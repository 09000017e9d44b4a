import Mathlib
import ScalarLang.Parse.Fragment

/-
  Names are words.
  The scanner makes identifiers of word characters only, and parsers drop tokens but never make
  any. So a definition, which takes its name from an identifier, is named by a word, whatever
  source it was read from. `Yields` carries this through the parsers: it says what a parser gives
  if all tokens that are left have the property, and that all tokens it leaves have it.
-/

namespace ScalarLang

/-- The text has word characters only. -/
def IsWord (text : String) : Prop := ∀ c ∈ text.toList, isWordChar c = true

/-- If the token is an identifier then it is a word. -/
def Token.Spelled (t : Token) : Prop := t.kind = .ident → IsWord t.lexeme

/-! ## Scanning -/

namespace Token

theorem numberTail_ne_ident (cs : List Char) : (numberTail cs).1 ≠ .ident := by
  cases cs with
  | nil => exact TokenKind.noConfusion
  | cons c cs =>
      simp only [numberTail]
      split_ifs <;> exact TokenKind.noConfusion

theorem oneOrTwo_ne_ident {two one : TokenKind} (h₂ : two ≠ .ident) (h₁ : one ≠ .ident)
    (next : Char) (cs : List Char) : (oneOrTwo next two one cs).1 ≠ .ident := by
  unfold oneOrTwo
  repeat' split
  all_goals assumption

theorem munchSymbol_ne_ident (c : Char) (cs : List Char) : (munchSymbol c cs).1 ≠ .ident := by
  unfold munchSymbol
  repeat' split
  all_goals first | exact TokenKind.noConfusion | exact oneOrTwo_ne_ident (by simp) (by simp) _ _

theorem isWordChar_of_isWordStart {c : Char} (h : isWordStart c = true) : isWordChar c = true := by
  simp only [isWordStart, isWordChar, Char.isAlphanum, Bool.or_eq_true] at h ⊢
  exact h.imp_left Or.inl

/-- Where an identifier is found, what it takes are word characters. -/
theorem munch_ident {c : Char} {cs : List Char} (h : (munch c cs).1 = .ident) :
    ∀ d ∈ c :: cs.take (munch c cs).2, isWordChar d = true := by
  unfold munch at h ⊢
  split at h
  · exact absurd h (numberTail_ne_ident _)
  · split at h
    · rename_i hdigit hstart
      rw [if_neg hdigit, if_pos hstart]
      intro d hd
      rcases List.mem_cons.mp hd with rfl | hd
      · exact isWordChar_of_isWordStart hstart
      · have hrun : cs.takeWhile isWordChar <+: cs := List.takeWhile_prefix _
        have htake : cs.take (munchWord c cs).2 = cs.takeWhile isWordChar :=
          (List.prefix_iff_eq_take.mp hrun).symm
        rw [htake] at hd
        exact List.mem_takeWhile_imp hd
    · exact absurd h (munchSymbol_ne_ident c cs)

theorem scanFrom_spelled (pos : Nat) (cs : List Char) : ∀ t ∈ scanFrom pos cs, t.Spelled := by
  fun_induction scanFrom pos cs with
  | case1 => simp
  | case2 pos c cs _ ih => exact ih
  | case3 pos c cs _ kind more hm lexeme stop ih =>
      intro t ht
      rcases List.mem_cons.mp ht with rfl | ht
      · rintro hkind
        have hident : (munch c cs).1 = .ident := by rw [hm]; exact hkind
        have hword := munch_ident hident
        rw [hm] at hword
        rwa [IsWord, String.toList_ofList]
      · exact ih t ht

end Token

theorem Stream.ofSource_spelled (source : String) : ∀ t ∈ (ofSource source).tokens, t.Spelled :=
  fun t ht => Token.scanFrom_spelled _ _ t (List.mem_filter.mp ht).1

/-! ## Parsing -/

namespace Parser

variable {α β : Type} {x : Parser α} {Q : α → Prop} {R : β → Prop}

theorem bind_apply (x : Parser α) (f : α → Parser β) (s : Stream) :
    (x >>= f) s = match x s with
      | (.ok a, s') => f a s'
      | (.error e, s') => (.error e, s') := by
  change (ExceptT.bindCont f (x s).1) (x s).2 = _
  rcases x s with ⟨_ | _, _⟩ <;> rfl

/-- If all tokens are spelled right then those that the parser leaves are, and what it gives has
    the property. -/
def Yields (x : Parser α) (Q : α → Prop) : Prop :=
  ∀ s : Stream, (∀ t ∈ s.tokens, t.Spelled) →
    (∀ t ∈ (x s).2.tokens, t.Spelled) ∧ ∀ a, (x s).1 = .ok a → Q a

namespace Yields

theorem pure {a : α} (h : Q a) : Yields (pure a) Q := by
  intro s hs
  refine ⟨hs, fun b hb => ?_⟩
  obtain rfl : a = b := Except.ok.inj hb
  exact h

theorem bind {f : α → Parser β} (hx : Yields x Q) (hf : ∀ a, Q a → Yields (f a) R) :
    Yields (x >>= f) R := by
  intro s hs
  obtain ⟨hleft, hgives⟩ := hx s hs
  rw [bind_apply]
  rcases hr : x s with ⟨e | a, s'⟩
  · rw [hr] at hleft
    exact ⟨hleft, fun b hb => nomatch hb⟩
  · rw [hr] at hleft hgives
    exact hf a (hgives a rfl) s' hleft

theorem mono {Q' : α → Prop} (h : Yields x Q) (hQ : ∀ a, Q a → Q' a) : Yields x Q' := by
  intro s hs
  exact ⟨(h s hs).1, fun a ha => hQ a ((h s hs).2 a ha)⟩

theorem fail (kind : ParseErrorKind) (span : Span) (hint : Option String) :
    Yields (fail kind span hint) Q :=
  fun _ hs => ⟨hs, fun _ ha => nomatch ha⟩

/-- A test before a parser that goes on. -/
theorem refuse {c : Prop} [Decidable c] {f : Unit → Parser β} (kind : ParseErrorKind) (span : Span)
    (hint : Option String) (hf : Yields (f ()) R) :
    Yields (if c then Parser.fail kind span hint >>= f else f ()) R := by
  split
  · exact (fail (Q := fun _ => True) kind span hint).bind fun _ _ => hf
  · exact hf

theorem current : Yields current Token.Spelled := by
  intro s hs
  refine ⟨hs, fun t ht => ?_⟩
  obtain rfl : s.current = t := Except.ok.inj ht
  unfold Stream.current
  cases htokens : s.tokens with
  | nil => exact fun hkind => nomatch hkind
  | cons t rest => exact hs t (by simp [htokens])

theorem modify {f : Stream → Stream} (hf : ∀ s t, t ∈ (f s).tokens → t ∈ s.tokens) :
    Yields (modify f) fun _ => True :=
  fun s hs => ⟨fun t ht => hs t (hf s t ht), fun _ _ => trivial⟩

theorem advance : Yields advance fun _ => True := modify fun _ _ => List.mem_of_mem_tail

theorem skipSeparators : Yields skipSeparators fun _ => True :=
  modify fun _ _ ht => (List.dropWhile_sublist _).mem ht

theorem unexpected (expected : Expected) (hint : Option String) :
    Yields (unexpected expected hint) Q :=
  current.bind fun _ _ => fail _ _ _

theorem expect (kind : TokenKind) : Yields (expect kind) fun _ => True := by
  refine current.bind fun token _ => ?_
  split
  · exact advance.bind fun _ _ => pure trivial
  · exact unexpected _ _

theorem expectIdent : Yields expectIdent (IsWord ·.text) := by
  refine current.bind fun token htoken => ?_
  split
  · rename_i hkind
    exact advance.bind fun _ _ => pure (htoken hkind)
  · exact fail _ _ _

theorem endOfStatement (closer : TokenKind) : Yields (endOfStatement closer) fun _ => True := by
  refine current.bind fun token _ => ?_
  split
  · exact pure trivial
  · exact unexpected _ _

end Yields

/-! ## Expressions -/

/-- What an expression is read as is no definition. -/
def NoDefinition (node : Node) : Prop := node.definition? = none

theorem nameOrCall_yields {args : Parser (List Node)} (hargs : Yields args fun _ => True) :
    Yields (nameOrCall args) NoDefinition := by
  refine Yields.expectIdent.bind fun callee _ => Yields.current.bind fun next _ => ?_
  split
  · exact Yields.advance.bind fun _ _ => hargs.bind fun _ _ => (Yields.expect _).bind fun _ _ =>
      .pure rfl
  · exact .pure rfl

section Nested

variable {expr : Parser Node} (hexpr : Yields expr NoDefinition)
include hexpr

theorem arguments_yields (count : Nat) : Yields (arguments expr count) fun _ => True := by
  induction count with
  | zero => exact .pure trivial
  | succ count ih =>
      refine Yields.current.bind fun token _ => ?_
      split
      · exact .pure trivial
      · refine hexpr.bind fun _ _ => Yields.current.bind fun next _ => ?_
        split
        · exact Yields.advance.bind fun _ _ => ih.bind fun _ _ => .pure trivial
        · exact .pure trivial

theorem parenthesized_yields : Yields (parenthesized expr) NoDefinition :=
  Yields.advance.bind fun _ _ => hexpr.bind fun _ hinner => (Yields.expect _).bind fun _ _ =>
    .pure hinner

theorem conditional_yields (form : ConditionalForm) :
    Yields (conditional expr form) NoDefinition := by
  refine Yields.current.bind fun start _ => Yields.advance.bind fun _ _ => hexpr.bind fun _ _ =>
    hexpr.bind fun _ _ => Yields.current.bind fun next _ => ?_
  split
  · exact Yields.advance.bind fun _ _ => hexpr.bind fun _ _ => .pure rfl
  · exact .unexpected _ _

theorem primary_yields (count : Nat) : Yields (primary expr count) NoDefinition := by
  refine Yields.current.bind fun token _ => ?_
  split
  · exact Yields.advance.bind fun _ _ => .pure rfl
  · exact Yields.advance.bind fun _ _ => .fail _ _ _
  · split
    · exact nameOrCall_yields (arguments_yields hexpr count)
    · exact parenthesized_yields hexpr
    · exact conditional_yields hexpr _
    · exact conditional_yields hexpr _
    · exact .fail _ _ _
    · exact .fail _ _ _

theorem operand_yields (count : Nat) : Yields (operand expr count) NoDefinition := by
  induction count with
  | zero => exact Yields.current.bind fun _ _ => .fail _ _ _
  | succ count ih =>
      refine Yields.current.bind fun token _ => ?_
      split
      · refine Yields.advance.bind fun _ _ => Yields.current.bind fun next _ => ?_
        split
        · exact Yields.advance.bind fun _ _ => .pure rfl
        · exact ih.bind fun _ _ => .pure rfl
      · exact primary_yields hexpr (count + 1)

end Nested

theorem climb_yields {expr : Nat → Parser Node} (hexpr : ∀ level, Yields (expr level) NoDefinition)
    (level count : Nat) {lhs : Node} (hlhs : NoDefinition lhs) :
    Yields (climb expr level count lhs) NoDefinition := by
  induction count generalizing lhs with
  | zero => exact .pure hlhs
  | succ count ih =>
      refine Yields.current.bind fun token _ => ?_
      split
      · exact .pure hlhs
      · split
        · exact .pure hlhs
        · exact Yields.advance.bind fun _ _ => (hexpr _).bind fun _ _ => ih rfl

theorem expression_yields (fuel level : Nat) : Yields (expression fuel level) NoDefinition := by
  induction fuel generalizing level with
  | zero => exact Yields.current.bind fun _ _ => .fail _ _ _
  | succ fuel ih =>
      exact (operand_yields (ih 0) _).bind fun _ hlhs => climb_yields ih level _ hlhs

/-! ## Fragments -/

/-- If a definition was read then its name is a word. -/
def NamedByWord (node : Node) : Prop := ∀ d, node.definition? = some d → IsWord d.name.text

theorem body_yields {expr : Parser Node} (hexpr : Yields expr NoDefinition) (count : Nat) :
    Yields (body expr count) fun _ => True := by
  induction count with
  | zero => exact .pure trivial
  | succ count ih =>
      refine Yields.current.bind fun token _ => ?_
      split
      · exact .pure trivial
      · refine .refuse _ _ _ ?_
        exact hexpr.bind fun _ _ => (Yields.endOfStatement _).bind fun _ _ =>
          Yields.skipSeparators.bind fun _ _ => ih.bind fun _ _ => .pure trivial

theorem functionDef_yields {expr : Parser Node} (hexpr : Yields expr NoDefinition) (count : Nat) :
    Yields (functionDef expr count) NamedByWord := by
  refine (Yields.expect _).bind fun start _ => Yields.expectIdent.bind fun name hname =>
    (Yields.expect _).bind fun _ _ => Yields.current.bind fun next _ => .refuse _ _ _ ?_
  refine (Yields.expect _).bind fun _ _ => (Yields.expect _).bind fun _ _ =>
    Yields.skipSeparators.bind fun _ _ => (body_yields hexpr count).bind fun nodes _ =>
    (Yields.expect _).bind fun close _ => .refuse _ _ _ (.pure fun d hd => ?_)
  obtain rfl : _ = d := Option.some.inj hd
  exact hname

theorem statement_yields (fuel : Nat) : Yields (statement fuel) NamedByWord := by
  refine Yields.current.bind fun token _ => ?_
  split
  · exact functionDef_yields (expression_yields fuel 0) fuel
  · exact (expression_yields fuel 0).mono fun node hnode d hd => nomatch hnode.symm.trans hd

theorem topLevel_yields (fuel : Nat) : Yields (topLevel fuel) NamedByWord :=
  (statement_yields fuel).bind fun _ hnode => (Yields.endOfStatement _).bind fun _ _ => .pure hnode

/-- Whatever turns are taken, all statements that are read have the property. -/
theorem Yields.collect {Q : Node → Prop} {fuel : Nat} (h : Yields (topLevel fuel) Q) (turns : Nat)
    {s : Stream} (hs : ∀ t ∈ s.tokens, t.Spelled) : ∀ node ∈ (collect fuel turns s).1, Q node := by
  induction turns generalizing s with
  | zero => simp [Parser.collect]
  | succ turns ih =>
      rw [Parser.collect]
      split
      · simp
      · obtain ⟨hleft, hgives⟩ := h s hs
        rcases hr : topLevel fuel s with ⟨e | node, s'⟩
        · rw [hr] at hleft
          refine ih fun t ht => hleft t ?_
          exact (List.dropWhile_sublist _).mem ((List.dropWhile_sublist _).mem ht)
        · rw [hr] at hleft hgives
          intro n hn
          rcases List.mem_cons.mp hn with rfl | hn
          · exact hgives n rfl
          · exact ih (fun t ht => hleft t ((List.dropWhile_sublist _).mem ht)) n hn

end Parser

theorem Fragment.parse_yields {Q : Node → Prop} (hQ : ∀ fuel, Parser.Yields (.topLevel fuel) Q)
    {source : String} {f : Fragment} (h : parse source = .ok f) : ∀ node ∈ f.nodes, Q node := by
  have hs : ∀ t ∈ (Stream.ofSource source).skipSeparators.tokens, t.Spelled := fun t ht =>
    Stream.ofSource_spelled source t ((List.dropWhile_sublist _).mem ht)
  have hread := (hQ ((Stream.ofSource source).tokens.length + 1)).collect
    (Stream.ofSource source).tokens.length hs
  unfold parse at h
  split at h
  · dsimp only at h
    split at h
    · rename_i nodes hcollect
      obtain rfl : ⟨nodes⟩ = f := Except.ok.inj h
      rwa [hcollect] at hread
    · cases h
  · cases h

theorem Fragment.parse_named {source : String} {f : Fragment} (h : parse source = .ok f) :
    ∀ d ∈ f.definitions, IsWord d.name.text := by
  intro d hd
  obtain ⟨node, hnode, hd⟩ := List.mem_filterMap.mp hd
  exact parse_yields Parser.topLevel_yields h node hnode d hd

end ScalarLang
