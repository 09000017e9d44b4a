import Mathlib
import ScalarLang.Proofs.Parse.Grammar
import ScalarLang.Proofs.Parse.Words

/-
  Parsers accept what the grammar derives.
  A parser that gives something has taken tokens from the front; `Takes` says so and what these
  tokens derive from. For the levels of operators more is needed: a parser of a level stops before
  an operator that binds less tightly, and this holds only while the fuel is greater than the
  number of tokens left.
-/

namespace ScalarLang

open Token (Separators NoTrailingComma)

namespace Stream

variable {s : Stream}

theorem tokens_eq_cons (h : s.current.kind ≠ .eof) : s.tokens = s.current :: s.advance.tokens := by
  unfold current at h ⊢
  unfold advance
  cases hs : s.tokens with
  | nil => rw [hs] at h; exact absurd rfl h
  | cons t rest => rfl

theorem current_of_head? {t : Token} (h : t ∈ s.tokens.head?) : s.current = t := by
  rw [current, List.headD_eq_head?_getD, h]
  rfl

theorem length_advance (h : s.current.kind ≠ .eof) :
    s.advance.tokens.length + 1 = s.tokens.length := by
  rw [tokens_eq_cons h, List.length_cons]

/-- The separators that come next. -/
def separators (s : Stream) : List Token := s.tokens.takeWhile (·.kind.isSeparator)

theorem separators_append (s : Stream) : s.tokens = s.separators ++ s.skipSeparators.tokens :=
  (List.takeWhile_append_dropWhile).symm

theorem separators_separate (s : Stream) : Separators s.separators :=
  fun _ ht => List.mem_takeWhile_imp (p := fun t : Token => t.kind.isSeparator) ht

theorem separators_ne_nil (h : s.current.kind.isSeparator = true) : s.separators ≠ [] := by
  have hne : s.current.kind ≠ .eof := fun he => by rw [he] at h; cases h
  rw [separators, tokens_eq_cons hne, List.takeWhile_cons, if_pos h]
  exact List.cons_ne_nil _ _

/-- Where no separator comes next, none are skipped. -/
theorem skipSeparators_eq (h : s.separators = []) : s.skipSeparators = s := by
  have htokens := s.separators_append
  rw [h, List.nil_append] at htokens
  cases s
  exact congrArg (Stream.mk · _) htokens.symm

theorem length_le_of_append {s' : Stream} {taken : List Token}
    (h : s.tokens = taken ++ s'.tokens) : s'.tokens.length ≤ s.tokens.length := by
  rw [h, List.length_append]
  exact Nat.le_add_left _ _

end Stream

namespace Parser

variable {α β : Type} {x : Parser α} {s : Stream} {Q : List Token → α → Stream → Prop}
  {R : List Token → β → Stream → Prop}

/-- If the parser gives something then it has taken tokens from the front, and these, what it gives
    and the stream that it leaves have the property. -/
def Takes (x : Parser α) (s : Stream) (Q : List Token → α → Stream → Prop) : Prop :=
  ∀ a s', x s = (.ok a, s') → ∃ taken, s.tokens = taken ++ s'.tokens ∧ Q taken a s'

namespace Takes

theorem pure {a : α} (h : Q [] a s) : Takes (pure a) s Q := by
  intro b s' hb
  obtain ⟨hab, rfl⟩ := Prod.mk.inj (show (Except.ok a, s) = (.ok b, s') from hb)
  obtain rfl := Except.ok.inj hab
  exact ⟨[], rfl, h⟩

theorem fail (kind : ParseErrorKind) (span : Span) (hint : Option String) :
    Takes (fail kind span hint) s Q :=
  fun _ _ h => nomatch h

theorem bind {f : α → Parser β} (hx : Takes x s Q)
    (hf : ∀ taken a s', s.tokens = taken ++ s'.tokens → Q taken a s' →
      Takes (f a) s' fun more => R (taken ++ more)) : Takes (x >>= f) s R := by
  intro b s'' hb
  rw [bind_apply] at hb
  rcases hr : x s with ⟨e | a, s'⟩
  · rw [hr] at hb
    cases hb
  · rw [hr] at hb
    obtain ⟨taken, htaken, hQ⟩ := hx a s' hr
    obtain ⟨more, hmore, hR⟩ := hf taken a s' htaken hQ b s'' hb
    exact ⟨taken ++ more, by rw [htaken, hmore, List.append_assoc], hR⟩

theorem mono {Q' : List Token → α → Stream → Prop} (h : Takes x s Q)
    (hQ : ∀ taken a s', Q taken a s' → Q' taken a s') : Takes x s Q' := by
  intro a s' ha
  obtain ⟨taken, htaken, hgives⟩ := h a s' ha
  exact ⟨taken, htaken, hQ taken a s' hgives⟩

theorem current {f : Token → Parser β} (h : Takes (f s.current) s R) :
    Takes (Parser.current >>= f) s R := h

theorem advance {f : Unit → Parser β} (hs : s.current.kind ≠ .eof)
    (h : Takes (f ()) s.advance fun more => R (s.current :: more)) :
    Takes (Parser.advance >>= f) s R := by
  intro b s' hb
  obtain ⟨more, hmore, hR⟩ := h b s' hb
  exact ⟨s.current :: more, by rw [Stream.tokens_eq_cons hs, hmore, List.cons_append], hR⟩

theorem skipSeparators {f : Unit → Parser β}
    (h : Takes (f ()) s.skipSeparators fun more => R (s.separators ++ more)) :
    Takes (Parser.skipSeparators >>= f) s R := by
  intro b s' hb
  obtain ⟨more, hmore, hR⟩ := h b s' hb
  exact ⟨s.separators ++ more, by rw [s.separators_append, hmore, List.append_assoc], hR⟩

/-- A test before a parser that goes on. -/
theorem refuse {c : Prop} [Decidable c] {f : Unit → Parser β} (kind : ParseErrorKind) (span : Span)
    (hint : Option String) (hf : ¬ c → Takes (f ()) s R) :
    Takes (if c then Parser.fail kind span hint >>= f else f ()) s R := by
  split
  · exact fun _ _ h => nomatch h
  · rename_i hc
    exact hf hc

theorem unexpected (expected : Expected) (hint : Option String) :
    Takes (unexpected expected hint) s Q :=
  current (fail _ _ _)

theorem expect {kind : TokenKind} (hkind : kind ≠ .eof) :
    Takes (expect kind) s fun ts t _ => ts = [t] ∧ t.kind = kind := by
  refine current ?_
  split
  · rename_i h
    exact advance (h ▸ hkind) (pure ⟨rfl, h⟩)
  · exact unexpected _ _

theorem expectIdent :
    Takes expectIdent s fun ts name _ =>
      ∃ t : Token, ts = [t] ∧ t.kind = .ident ∧ name = ⟨t.lexeme, t.span⟩ := by
  refine current ?_
  split
  · rename_i h
    exact advance (by rw [h]; exact TokenKind.noConfusion) (pure ⟨_, rfl, h, rfl⟩)
  · exact fail _ _ _

theorem endOfStatement {closer : TokenKind} {f : Unit → Parser β}
    (h : s.current.kind.isSeparator = true ∨ s.current.kind = closer → Takes (f ()) s R) :
    Takes (endOfStatement closer >>= f) s R := by
  have hends : Takes (Parser.endOfStatement closer) s fun ts _ s' =>
      ts = [] ∧ s' = s ∧ (s.current.kind.isSeparator = true ∨ s.current.kind = closer) := by
    refine current ?_
    split
    · rename_i hc
      exact pure ⟨rfl, rfl, by simpa using hc⟩
    · exact unexpected _ _
  refine hends.bind ?_
  rintro _ _ _ _ ⟨rfl, rfl, hc⟩
  exact h hc

end Takes

/-! ## Expressions -/

/-- What may be read of a list of arguments before its closing parenthesis. -/
inductive Listed : List Token → List Node → Prop
  | none : Listed [] []
  | all {ts : List Token} {args : List Node} (h : Derives true .arguments ts args) : Listed ts args
  | trailing {ts : List Token} {comma : Token} {args : List Node}
      (h : Derives true .arguments ts args) (hcomma : comma.kind = .comma) :
      Listed (ts ++ [comma]) args

theorem Listed.cons {ts us : List Token} {comma : Token} {arg : Node} {args : List Node}
    (harg : Derives true .expression ts [arg]) (hcomma : comma.kind = .comma)
    (h : Listed us args) : Listed (ts ++ [comma] ++ us) (arg :: args) := by
  cases h with
  | none =>
      rw [List.append_nil]
      exact .trailing (.argument harg) hcomma
  | all hrest => exact .all (.arguments harg hcomma hrest)
  | trailing hrest hlast =>
      rw [← List.append_assoc]
      exact .trailing (.arguments harg hcomma hrest) hlast

section Nested

variable {n : Nat} {expr : Parser Node} (hexpr : ∀ s : Stream, s.tokens.length < n →
  Takes expr s fun ts node _ => Derives true .expression ts [node])
include hexpr

theorem arguments_takes (count : Nat) {s : Stream} (hs : s.tokens.length < n) :
    Takes (arguments expr count) s fun ts args _ => Listed ts args := by
  induction count generalizing s with
  | zero => exact .pure .none
  | succ count ih =>
      refine .current ?_
      split
      · exact .pure .none
      · refine (hexpr s hs).bind fun ts arg s' hs' harg => .current ?_
        have hlen := Stream.length_le_of_append hs'
        split
        · rename_i hcomma
          have hne : s'.current.kind ≠ .eof := by rw [hcomma]; exact TokenKind.noConfusion
          have hlen' := Stream.length_advance hne
          refine .advance hne ((ih (by omega)).bind fun us args _ _ hargs => .pure ?_)
          simpa using Listed.cons harg hcomma hargs
        · refine .pure ?_
          rw [List.append_nil]
          exact .all (.argument harg)

theorem nameOrCall_takes (count : Nat) {s : Stream} (hs : s.tokens.length ≤ n) :
    Takes (nameOrCall (arguments expr count)) s fun ts node _ =>
      Derives true .primary ts [node] := by
  refine Takes.expectIdent.bind ?_
  rintro _ _ s' hs' ⟨callee, rfl, hcallee, rfl⟩
  rw [hs', List.singleton_append, List.length_cons] at hs
  refine .current ?_
  split
  · rename_i hopening
    have hne : s'.current.kind ≠ .eof := by rw [hopening]; exact TokenKind.noConfusion
    have hlen := Stream.length_advance hne
    refine .advance hne ((arguments_takes hexpr count (by omega)).bind ?_)
    intro ts args s'' _ hargs
    refine (Takes.expect (by simp)).bind ?_
    rintro _ close _ _ ⟨rfl, hclose⟩
    refine .pure ?_
    cases hargs with
    | none => exact .callEmpty hcallee hopening hclose
    | all h => simpa using Derives.call hcallee hopening h hclose
    | trailing h hcomma => simpa using Derives.callTrailing rfl hcallee hopening h hcomma hclose
  · exact .pure (.name hcallee)

theorem parenthesized_takes {s : Stream} (hs : s.tokens.length ≤ n)
    (hopening : s.current.kind = .lParen) :
    Takes (parenthesized expr) s fun ts node _ => Derives true .primary ts [node] := by
  have hne : s.current.kind ≠ .eof := by rw [hopening]; exact TokenKind.noConfusion
  have hlen := Stream.length_advance hne
  refine .advance hne ((hexpr _ (by omega)).bind fun ts node _ _ hnode => ?_)
  refine (Takes.expect (by simp)).bind ?_
  rintro _ close _ _ ⟨rfl, hclose⟩
  refine .pure ?_
  simpa using Derives.parentheses hopening hnode hclose

theorem conditional_takes {s : Stream} (hs : s.tokens.length ≤ n) {form : ConditionalForm}
    (hword : s.current.kind.conditionalForm? = some form) :
    Takes (conditional expr form) s fun ts node _ => Derives true .primary ts [node] := by
  have hne : s.current.kind ≠ .eof := fun he => by rw [he] at hword; cases hword
  have hlen := Stream.length_advance hne
  refine .current (.advance hne ((hexpr _ (by omega)).bind fun ts test s₁ hs₁ htest => ?_))
  have hlen₁ := Stream.length_le_of_append hs₁
  refine (hexpr _ (by omega)).bind fun us thenArm s₂ hs₂ hthen => .current ?_
  have hlen₂ := Stream.length_le_of_append hs₂
  split
  · rename_i hmid
    have hne₂ : s₂.current.kind ≠ .eof := by rw [hmid]; exact TokenKind.noConfusion
    have hlen₃ := Stream.length_advance hne₂
    refine .advance hne₂ ((hexpr _ (by omega)).bind fun vs elseArm _ _ helse => .pure ?_)
    simpa using Derives.selection (.conditional hword htest hthen hmid helse)
  · exact .unexpected _ _

theorem primary_takes (count : Nat) {s : Stream} (hs : s.tokens.length ≤ n) :
    Takes (primary expr count) s fun ts node _ => Derives true .primary ts [node] := by
  refine .current ?_
  split
  · rename_i value hliteral
    have hne : s.current.kind ≠ .eof := fun he => by
      have hkind := Token.literal_isLiteral hliteral
      rw [he] at hkind
      cases hkind
    exact .advance hne (.pure (.literal hliteral))
  · rename_i e hliteral
    exact fun _ _ h => nomatch h
  · split
    · exact nameOrCall_takes hexpr count hs
    · rename_i hkind
      exact parenthesized_takes hexpr hs hkind
    · rename_i hkind
      exact conditional_takes hexpr hs (by rw [hkind]; rfl)
    · rename_i hkind
      exact conditional_takes hexpr hs (by rw [hkind]; rfl)
    · exact .fail _ _ _
    · exact .fail _ _ _

theorem operand_takes (count : Nat) {s : Stream} (hs : s.tokens.length ≤ n) :
    Takes (operand expr count) s fun ts node _ => Derives true .unary ts [node] := by
  induction count generalizing s with
  | zero => exact .current (.fail _ _ _)
  | succ count ih =>
      refine .current ?_
      split
      · rename_i hsign
        have hne : s.current.kind ≠ .eof := by rw [hsign]; exact TokenKind.noConfusion
        have hlen := Stream.length_advance hne
        refine .advance hne (.current ?_)
        split
        · rename_i hleast
          obtain ⟨hnumber, hleast⟩ := (Bool.and_eq_true _ _).mp hleast
          have hnumber := of_decide_eq_true hnumber
          exact .advance (by rw [hnumber]; exact TokenKind.noConfusion)
            (.pure (.least hsign hnumber hleast))
        · refine (ih (by omega)).bind fun ts inner _ _ hinner => .pure ?_
          rw [List.append_nil]
          exact .negation hsign hinner
      · exact (primary_takes hexpr (count + 1) hs).mono fun _ _ _ h => .primary h

end Nested

/-- No operator comes next that binds as tightly as the level. -/
def Stops (level : Nat) (s : Stream) : Prop :=
  ∀ op, s.current.kind.binaryOp? = some op → op.precedence < level

/-- What a parser of a level reads, and where it stops. -/
def Climbed (level : Nat) (ts : List Token) (node : Node) (s : Stream) : Prop :=
  (∃ k, 1 ≤ k ∧ level ≤ k ∧ Derives true (.binary k) ts [node]) ∧ Stops level s

theorem Climbed.expression {level : Nat} {ts : List Token} {node : Node} {s : Stream}
    (h : Climbed level ts node s) : Derives true .expression ts [node] := by
  obtain ⟨⟨k, hpos, _, hnode⟩, _⟩ := h
  exact .operators (hnode.loosen hpos)

/-- The operand on the left derives from a level `k`, and the operator that comes next binds no
    more tightly than that, so it may take the operand. -/
theorem climb_takes {n : Nat} {expr : Nat → Parser Node}
    (hexpr : ∀ level ≤ 8, ∀ s : Stream, s.tokens.length < n →
      Takes (expr level) s (Climbed level)) {level : Nat} (count : Nat) {s : Stream}
    (hs : s.tokens.length ≤ n) (hcount : s.tokens.length < count) {k : Nat} {done : List Token}
    {lhs : Node} (hpos : 1 ≤ k) (hk : level ≤ k) (hlhs : Derives true (.binary k) done [lhs])
    (hnext : Stops (k + 1) s) :
    Takes (climb expr level count lhs) s fun ts => Climbed level (done ++ ts) := by
  induction count generalizing s k done lhs with
  | zero => omega
  | succ count ih =>
      have hdone : Derives true (.binary k) (done ++ []) [lhs] := by rwa [List.append_nil]
      refine .current ?_
      split
      · rename_i hnone
        exact .pure ⟨⟨k, hpos, hk, hdone⟩, fun op hop => nomatch hnone.symm.trans hop⟩
      · rename_i op hop
        split
        · rename_i hlow
          refine .pure ⟨⟨k, hpos, hk, hdone⟩, fun op' hop' => ?_⟩
          obtain rfl : op = op' := Option.some.inj (hop.symm.trans hop')
          exact hlow
        · rename_i hhigh
          have hne : s.current.kind ≠ .eof := fun he => by rw [he] at hop; cases hop
          have hlen := Stream.length_advance hne
          have hprec := op.precedence_le
          have hle : op.precedence ≤ k := Nat.le_of_lt_succ (hnext op hop)
          refine .advance hne ((hexpr _ (by omega) _ (by omega)).bind ?_)
          rintro ts rhs s' hs' ⟨⟨k', _, hk', hrhs⟩, hstop⟩
          have hlen' := Stream.length_le_of_append hs'
          have hboth := (hlhs.loosen hle).operation hop (hrhs.loosen hk')
          have hrest := ih (by omega) (by omega) op.precedence_pos (Nat.le_of_not_lt hhigh) hboth
            hstop
          simpa using hrest

theorem expression_takes (fuel : Nat) {level : Nat} (hlevel : level ≤ 8) {s : Stream}
    (hs : s.tokens.length < fuel) : Takes (expression fuel level) s (Climbed level) := by
  induction fuel generalizing level s with
  | zero => omega
  | succ fuel ih =>
      have hnested : ∀ s : Stream, s.tokens.length < fuel →
          Takes (expression fuel 0) s fun ts node _ => Derives true .expression ts [node] :=
        fun s hs => (ih (Nat.zero_le _) hs).mono fun _ _ _ h => h.expression
      refine (operand_takes hnested _ (Nat.le_of_lt_succ hs)).bind fun ts lhs s' hs' hlhs => ?_
      have hlen := Stream.length_le_of_append hs'
      have htight : Stops (8 + 1) s' := fun op _ => by have := op.precedence_le; omega
      exact climb_takes (fun level hlevel s hs => ih hlevel hs) _ (by omega) (by omega) (by omega)
        hlevel hlhs.tightest htight

/-- An expression, whatever its operators. -/
theorem expression_derives {fuel : Nat} {s : Stream} (hs : s.tokens.length < fuel) :
    Takes (expression fuel 0) s fun ts node _ => Derives true .expression ts [node] :=
  (expression_takes fuel (Nat.zero_le _) hs).mono fun _ _ _ h => h.expression

/-! ## Fragments -/

/-- Statements that separators may follow. -/
inductive Block : List Token → List Node → Prop
  | nil : Block [] []
  | cons {ts after : List Token} {nodes : List Node} (h : Derives true .statements ts nodes)
      (hafter : Separators after) : Block (ts ++ after) nodes

/-- Another statement in front, which a separator ends if anything follows. -/
theorem Block.prepend {ts seps us : List Token} {node : Node} {nodes : List Node}
    (h : Derives true .statement ts [node]) (hseps : Separators seps) (hrest : Block us nodes)
    (hends : us ≠ [] → seps ≠ []) : Block (ts ++ seps ++ us) (node :: nodes) := by
  cases hrest with
  | nil =>
      rw [List.append_nil]
      exact .cons (.single h) hseps
  | cons hnodes hafter =>
      have hne : seps ≠ [] := hends fun hnil =>
        (hnodes.framed (by simp)).ne_nil (List.append_eq_nil_iff.mp hnil).1
      rw [← List.append_assoc]
      exact .cons (.sequence h hseps hne hnodes) hafter

/-- No statement starts with an end marker. -/
theorem Block.eq_nil {ts : List Token} {nodes : List Node} (h : Block ts nodes)
    (hhead : ∀ t ∈ ts.head?, t.kind = .eof) : ts = [] := by
  cases h with
  | nil => rfl
  | cons hnodes hafter =>
      obtain ⟨⟨t, ht, hopens⟩, _⟩ := hnodes.framed (by simp)
      rw [hhead t (List.mem_head?_append_of_mem_head? ht)] at hopens
      cases hopens

theorem body_takes {n : Nat} {expr : Parser Node} (hexpr : ∀ s : Stream, s.tokens.length < n →
    Takes expr s fun ts node _ => Derives true .expression ts [node]) (count : Nat) {s : Stream}
    (hs : s.tokens.length < n) :
    Takes (body expr count) s fun ts nodes _ =>
      Block ts nodes ∧ (s.current.kind = .rBrace → ts = []) := by
  induction count generalizing s with
  | zero => exact .pure ⟨.nil, fun _ => rfl⟩
  | succ count ih =>
      refine .current ?_
      split
      · exact .pure ⟨.nil, fun _ => rfl⟩
      · rename_i hgoes
        refine .refuse _ _ _ fun _ => (hexpr s hs).bind fun ts node s' hs' hnode => ?_
        refine .endOfStatement fun hends => .skipSeparators ?_
        have hlen := Stream.length_le_of_append hs'
        have hlen' := Stream.length_le_of_append s'.separators_append
        refine (ih (by omega)).bind ?_
        rintro us nodes _ _ ⟨hrest, hstop⟩
        refine .pure ⟨?_, fun hbrace => ?_⟩
        · have hblock := Block.prepend (.evaluation hnode) s'.separators_separate hrest
            fun hus hseps => hus (hstop ?_)
          · simpa using hblock
          -- Nothing separates the statement from what follows, which is therefore the brace.
          · rw [Stream.skipSeparators_eq hseps]
            exact hends.resolve_left fun h => Stream.separators_ne_nil h hseps
        · simp [hbrace] at hgoes

theorem functionDef_takes {n : Nat} {expr : Parser Node} (hexpr : ∀ s : Stream,
    s.tokens.length < n → Takes expr s fun ts node _ => Derives true .expression ts [node])
    (count : Nat) {s : Stream} (hs : s.tokens.length < n) :
    Takes (functionDef expr count) s fun ts node _ => Derives true .function ts [node] := by
  refine (Takes.expect (by simp)).bind ?_
  rintro _ word s₁ hs₁ ⟨rfl, hword⟩
  refine Takes.expectIdent.bind ?_
  rintro _ _ s₂ hs₂ ⟨name, rfl, hname, rfl⟩
  refine (Takes.expect (by simp)).bind ?_
  rintro _ opening s₃ hs₃ ⟨rfl, hopening⟩
  refine .current (.refuse _ _ _ fun _ => (Takes.expect (by simp)).bind ?_)
  rintro _ closing s₄ hs₄ ⟨rfl, hclosing⟩
  refine (Takes.expect (by simp)).bind ?_
  rintro _ left s₅ hs₅ ⟨rfl, hleft⟩
  have hlen : s₅.skipSeparators.tokens.length < n := by
    rw [hs₁, hs₂, hs₃, hs₄, hs₅, s₅.separators_append] at hs
    simp only [List.length_append, List.length_singleton] at hs
    omega
  refine .skipSeparators ((body_takes hexpr count hlen).bind ?_)
  rintro _ nodes s₆ _ ⟨hblock, _⟩
  refine (Takes.expect (by simp)).bind ?_
  rintro _ right s₇ _ ⟨rfl, hright⟩
  refine .refuse _ _ _ fun hne => .pure ?_
  cases hblock with
  | nil => exact absurd rfl hne
  | cons h hafter =>
      have hfunction := Derives.function hword hname hopening hclosing hleft
        s₅.separators_separate h hafter hright
      simpa using hfunction

theorem statement_takes {fuel : Nat} {s : Stream} (hs : s.tokens.length < fuel) :
    Takes (statement fuel) s fun ts node _ => Derives true .statement ts [node] := by
  refine .current ?_
  split
  · exact (functionDef_takes (fun _ => expression_derives) fuel hs).mono fun _ _ _ h =>
      .definition h
  · exact (expression_derives hs).mono fun _ _ _ h => .evaluation h

theorem topLevel_takes {fuel : Nat} {s : Stream} (hs : s.tokens.length < fuel) :
    Takes (topLevel fuel) s fun ts node s' => Derives true .statement ts [node] ∧
      (s'.current.kind.isSeparator = true ∨ s'.current.kind = .eof) := by
  refine (statement_takes hs).bind fun ts node s' _ hnode => .endOfStatement fun hends => .pure ?_
  rw [List.append_nil]
  exact ⟨hnode, hends⟩

/-- If nothing was wrong then all tokens have been read. -/
theorem collect_derives {fuel : Nat} (turns : Nat) {s : Stream} (hfuel : s.tokens.length < fuel)
    (hturns : s.tokens.length ≤ turns) {nodes : List Node}
    (h : collect fuel turns s = (nodes, [])) : Block s.tokens nodes := by
  induction turns generalizing s nodes with
  | zero =>
      obtain rfl : [] = nodes := (Prod.mk.inj h).1
      rw [List.length_eq_zero_iff.mp (Nat.le_zero.mp hturns)]
      exact .nil
  | succ turns ih =>
      rw [collect] at h
      split at h
      · rename_i hempty
        obtain rfl : [] = nodes := (Prod.mk.inj h).1
        rw [List.isEmpty_iff.mp hempty]
        exact .nil
      · rcases hr : topLevel fuel s with ⟨e | node, s'⟩ <;> rw [hr] at h
        · cases (Prod.mk.inj h).2
        · obtain ⟨rest, errors, hrest⟩ : ∃ rest errors,
              collect fuel turns s'.skipSeparators = (rest, errors) := ⟨_, _, rfl⟩
          simp only [hrest, Prod.mk.injEq] at h
          obtain ⟨rfl, rfl⟩ := h
          obtain ⟨ts, htaken, hnode, hends⟩ := topLevel_takes hfuel node s' hr
          have hseps := s'.separators_append
          have hpos := List.length_pos_iff.mpr (hnode.framed (by simp)).ne_nil
          have hlen := congrArg List.length htaken
          have hlen' := Stream.length_le_of_append hseps
          rw [List.length_append] at hlen
          have hblock := ih (by omega) (by omega) hrest
          rw [htaken, hseps, ← List.append_assoc]
          refine .prepend hnode s'.separators_separate hblock fun hus hnil => hus ?_
          -- Nothing separates the statement from what follows, which is therefore the end.
          have heof := hends.resolve_left fun h => Stream.separators_ne_nil h hnil
          rw [Stream.skipSeparators_eq hnil] at hblock ⊢
          exact hblock.eq_nil fun t ht => Stream.current_of_head? ht ▸ heof

end Parser

/-- The tokens of a source without its comments. -/
def Token.significant (source : String) : List Token :=
  (tokenize source).filter (!·.kind.isTrivia)

theorem Token.significant_eq (source : String) :
    significant source =
      (Stream.ofSource source).tokens ++ [eof (byteLength source.toList)] := by
  rw [significant, tokenize, List.filter_append]
  rfl

theorem Fragment.parse_derives {source : String} {f : Fragment} (h : parse source = .ok f) :
    Derives true .fragment (Token.significant source) f.nodes := by
  unfold parse at h
  split at h
  · dsimp only at h
    split at h
    · rename_i nodes hcollect
      obtain rfl : ⟨nodes⟩ = f := Except.ok.inj h
      have hseps := (Stream.ofSource source).separators_append
      have hlen := Stream.length_le_of_append hseps
      have hblock := Parser.collect_derives _ (by omega) hlen hcollect
      rw [Token.significant_eq, hseps]
      generalize (Stream.ofSource source).skipSeparators.tokens = ts at hblock
      cases hblock with
      | nil =>
          rw [List.append_nil]
          exact .blank (Stream.separators_separate _) rfl
      | cons hnodes hafter =>
          rw [← List.append_assoc]
          exact .fragment (Stream.separators_separate _) hnodes hafter rfl
    · cases h
  · cases h

/-- What is accepted derives from the grammar that lets a comma follow the last argument of a call,
    with the tree that is returned. It derives from the grammar without that rule, with the same
    tree, exactly if no comma stands directly before a closing parenthesis; otherwise no tree
    derives from it. -/
theorem accepted_source_derives {source : String} {f : Fragment}
    (h : Fragment.parse source = .ok f) :
    Derives true .fragment (Token.significant source) f.nodes ∧
      (NoTrailingComma (Token.significant source) →
        Derives false .fragment (Token.significant source) f.nodes) ∧
      (¬ NoTrailingComma (Token.significant source) →
        ∀ nodes, ¬ Derives false .fragment (Token.significant source) nodes) := by
  have hloose := Fragment.parse_derives h
  exact ⟨hloose, hloose.strict, fun hcomma nodes hstrict => hcomma hstrict.punctuated.1⟩

def nestedSource : String :=
  "; def f() \x7b\n -9223372036854775808; 1 \x7d // f\n" ++
    "when f() == -(2) (f()) else g(1, h(), 2 * 3 + 4 << 5)\n"

theorem nestedSource_derives : ∃ f, Fragment.parse nestedSource = .ok f ∧
    NoTrailingComma (Token.significant nestedSource) ∧
    Derives false .fragment (Token.significant nestedSource) f.nodes := by
  have hok : (Fragment.parse nestedSource).toOption.isSome = true := by decide +kernel
  have hcommas : NoTrailingComma (Token.significant nestedSource) := by decide +kernel
  rcases hf : Fragment.parse nestedSource with errors | f
  · rw [hf] at hok
    cases hok
  · exact ⟨f, rfl, hcommas, (accepted_source_derives hf).2.1 hcommas⟩

/-- A call with a comma after its last argument is accepted, and no tree derives from it. -/
theorem trailing_comma_accepted :
    (Fragment.parse "f(1,)").toOption.isSome = true ∧
      ∀ nodes, ¬ Derives false .fragment (Token.significant "f(1,)") nodes := by
  refine ⟨by decide +kernel, fun nodes h => ?_⟩
  have hcomma : ¬ NoTrailingComma (Token.significant "f(1,)") := by decide +kernel
  exact hcomma h.punctuated.1

end ScalarLang
