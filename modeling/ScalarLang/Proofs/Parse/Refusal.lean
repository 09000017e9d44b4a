import Mathlib
import ScalarLang.Proofs.Parse.Agreement
import ScalarLang.Proofs.Parse.Placement

/-
  Numbers that are refused.
  A number that does not fit its type is no literal, except for `2 ^ 63` directly after a unary
  minus. A parser sees the exception by looking ahead from the minus; here it is found by looking
  back from the number: a minus is unary if no operand ends before it. `Spends` carries the tokens
  before along. A parser takes tokens none of which is refused, or it fails at the first that is.
  So every number that is refused is reported, unless an error of the same statement comes first,
  and no other number is.
-/

namespace ScalarLang

theorem TokenKind.isLiteral_of_isSeparator {kind : TokenKind} (h : kind.isSeparator = true) :
    kind.isLiteral = false := by
  cases kind <;> first | rfl | cases h

theorem TokenKind.closes_of_binaryOp {kind : TokenKind} {op : BinaryOp}
    (h : kind.binaryOp? = some op) : kind.closes = false := by
  cases kind <;> first | rfl | cases h

theorem TokenKind.isLiteral_of_binaryOp {kind : TokenKind} {op : BinaryOp}
    (h : kind.binaryOp? = some op) : kind.isLiteral = false := by
  cases kind <;> first | rfl | cases h

/-! ## Looking back -/

namespace Token

variable {P : List Token → Token → Prop} {before ts us : List Token} {t : Token}

/-- Each token has the property, given the tokens before it. -/
def Each (P : List Token → Token → Prop) : List Token → List Token → Prop
  | _, [] => True
  | before, t :: ts => P before t ∧ Each P (before ++ [t]) ts

theorem each_append : Each P before (ts ++ us) ↔ Each P before ts ∧ Each P (before ++ ts) us := by
  induction ts generalizing before with
  | nil => simp [Each]
  | cons t ts ih => simp [Each, ih, and_assoc]

theorem each_singleton : Each P before [t] ↔ P before t := by
  simp [Each]

theorem Each.mono {Q : List Token → Token → Prop} (h : Each P before ts)
    (hPQ : ∀ before t, P before t → Q before t) : Each Q before ts := by
  induction ts generalizing before with
  | nil => trivial
  | cons t ts ih => exact ⟨hPQ before t h.1, ih h.2⟩

theorem Each.at {front after : List Token} (h : Each P before (front ++ t :: after)) :
    P (before ++ front) t :=
  (each_append.mp h).2.1

theorem each_of_forall (h : ∀ t ∈ ts, ∀ before, P before t) (before : List Token) :
    Each P before ts := by
  induction ts generalizing before with
  | nil => trivial
  | cons t ts ih =>
      obtain ⟨ht, hts⟩ := List.forall_mem_cons.mp h
      exact ⟨ht before, ih hts _⟩

/-- A token stands in the first list or in the second. -/
theorem split_append {front after : List Token} (h : ts ++ us = front ++ t :: after) :
    (∃ rest, ts = front ++ t :: rest) ∨ ∃ more, front = ts ++ more ∧ us = more ++ t :: after := by
  rcases List.append_eq_append_iff.mp h with ⟨more, hfront, hus⟩ | ⟨rest, hts, hcons⟩
  · exact .inr ⟨more, hfront, hus⟩
  · cases rest with
    | nil => exact .inr ⟨[], by simpa using hts.symm, by simpa using hcons.symm⟩
    | cons u rest =>
        obtain ⟨rfl, -⟩ := List.cons.inj hcons
        exact .inl ⟨rest, hts⟩

/-- The last token is one that an operand may end with. -/
def EndsInOperand (ts : List Token) : Prop := ∃ t ∈ ts.getLast?, t.kind.closes = true

/-- The last token is a unary minus: one that no operand ends before. -/
def EndsInSign (ts : List Token) : Prop :=
  ∃ front sign, ts = front ++ [sign] ∧ sign.kind = .minus ∧ ¬ EndsInOperand front

theorem endsInOperand_concat : EndsInOperand (ts ++ [t]) ↔ t.kind.closes = true := by
  simp [EndsInOperand]

theorem endsInOperand_of_kind {kind : TokenKind} (hkind : t.kind = kind)
    (hcloses : kind.closes = true) (ts : List Token) : EndsInOperand (ts ++ [t]) :=
  endsInOperand_concat.mpr (hkind ▸ hcloses)

theorem endsInSign_concat :
    EndsInSign (ts ++ [t]) ↔ t.kind = .minus ∧ ¬ EndsInOperand ts := by
  constructor
  · rintro ⟨front, sign, heq, hsign, hfront⟩
    obtain ⟨rfl, rfl⟩ := List.append_inj' heq rfl |>.imp_right List.singleton_inj.mp
    exact ⟨hsign, hfront⟩
  · rintro ⟨hsign, hfront⟩
    exact ⟨ts, t, rfl, hsign, hfront⟩

theorem EndsInSign.not_operand (h : EndsInSign ts) : ¬ EndsInOperand ts := by
  obtain ⟨front, sign, rfl, hsign, -⟩ := h
  rw [endsInOperand_concat, hsign]
  exact Bool.false_ne_true

/-- The token stands for `2 ^ 63` and directly follows a unary minus. -/
def IsExcepted (before : List Token) (t : Token) : Prop :=
  t.kind = .int ∧ NumberToken.isMinMagnitude t.lexeme = true ∧ EndsInSign before

/-- The token is a number that does not fit its type, and not the exception. -/
def Refused (before : List Token) (t : Token) (why : NumberError) : Prop :=
  t.literal? = some (.error why) ∧ ¬ IsExcepted before t

def Accepted (before : List Token) (t : Token) : Prop := ∀ why, ¬ t.Refused before why

theorem Refused.isLiteral {why : NumberError} (h : t.Refused before why) :
    t.kind.isLiteral = true :=
  literal_isLiteral h.1

theorem accepted_of_isLiteral (h : t.kind.isLiteral = false) (before : List Token) :
    Accepted before t := by
  intro why hrefused
  rw [hrefused.isLiteral] at h
  cases h

theorem accepted_of_literal {value : Literal} (h : t.literal? = some (.ok value)) :
    Accepted before t := by
  intro why hrefused
  cases h.symm.trans hrefused.1

theorem each_accepted_separators (h : Separators ts) (before : List Token) :
    Each Accepted before ts :=
  each_of_forall (fun t ht => accepted_of_isLiteral (TokenKind.isLiteral_of_isSeparator (h t ht)))
    before

end Token

open Token (Each Accepted EndsInOperand EndsInSign IsExcepted)

namespace Parser

/-! ## Where an operand is read -/

/-- If the next token is a minus then it is unary, and it is not the number of the exception. -/
structure Ready (before : List Token) (s : Stream) : Prop where
  unary : s.current.kind = .minus → ¬ EndsInOperand before
  single : ¬ IsExcepted before s.current

namespace Ready

variable {before : List Token} {s : Stream} {t : Token}

theorem of_kind (hminus : s.current.kind ≠ .minus) (hint : s.current.kind ≠ .int) :
    Ready before s :=
  ⟨fun h => absurd h hminus, fun h => hint h.1⟩

theorem start (s : Stream) : Ready [] s := by
  constructor
  · rintro - ⟨t, ht, -⟩
    cases ht
  · rintro ⟨-, -, front, sign, heq, -⟩
    simp at heq

theorem after {kind : TokenKind} (hkind : t.kind = kind) (hcloses : kind.closes = false)
    (hminus : kind ≠ .minus) (before : List Token) (s : Stream) : Ready (before ++ [t]) s := by
  subst hkind
  constructor
  · intro _ h
    rw [Token.endsInOperand_concat, hcloses] at h
    cases h
  · rintro ⟨-, -, h⟩
    exact hminus (Token.endsInSign_concat.mp h).1

/-- Directly after an operand, no minus comes next. -/
theorem after_operand (h : EndsInOperand before) (hminus : s.current.kind ≠ .minus) :
    Ready before s :=
  ⟨fun hsign => absurd hsign hminus, fun hexcepted => hexcepted.2.2.not_operand h⟩

/-- A minus after an operand is binary. -/
theorem after_operator {op : BinaryOp} (h : EndsInOperand before)
    (hop : t.kind.binaryOp? = some op) (s : Stream) : Ready (before ++ [t]) s := by
  constructor
  · intro _ hend
    rw [Token.endsInOperand_concat, TokenKind.closes_of_binaryOp hop] at hend
    cases hend
  · rintro ⟨-, -, hsign⟩
    exact (Token.endsInSign_concat.mp hsign).2 h

/-- After the separators that come next, if there are any. -/
theorem skipSeparators (h : s.separators = [] → Ready before s) :
    Ready (before ++ s.separators) s.skipSeparators := by
  rcases List.eq_nil_or_concat' s.separators with hnil | ⟨front, last, hlast⟩
  · rw [hnil, List.append_nil, Stream.skipSeparators_eq hnil]
    exact h hnil
  · have hsep := s.separators_separate last (by simp [hlast])
    rw [hlast, ← List.append_assoc]
    refine after rfl ?_ (fun hkind => ?_) _ _
    · revert hsep
      cases last.kind <;> simp [TokenKind.isSeparator, TokenKind.closes, TokenKind.isLiteral]
    · rw [hkind] at hsep
      cases hsep

/-- After a statement. -/
theorem after_statement {closer : TokenKind} (hminus : closer ≠ .minus) (hint : closer ≠ .int)
    (h : s.current.kind.isSeparator = true ∨ s.current.kind = closer) :
    Ready (before ++ s.separators) s.skipSeparators := by
  refine skipSeparators fun hnil => ?_
  have hkind := h.resolve_left fun hsep => Stream.separators_ne_nil hsep hnil
  exact of_kind (hkind ▸ hminus) (hkind ▸ hint)

end Ready

/-! ## Steps -/

variable {α β : Type} {before : List Token} {x : Parser α} {s : Stream}
  {Q : List Token → α → Stream → Prop} {R : List Token → β → Stream → Prop}

/-- The error stands at the token that comes next, or it covers the last one that was taken. -/
def StandsAt (before : List Token) (s : Stream) (e : ParseError) : Prop :=
  e.span = s.current.span ∨
    ∃ t ∈ before.getLast?, e.span.start ≤ t.span.start ∧ t.span.stop ≤ e.span.stop

/-- Either no token that was taken is refused, and the error is not about a number; or just the
    last one is, and the error is about it. -/
def Fails (before taken : List Token) (s : Stream) (e : ParseError) : Prop :=
  StandsAt (before ++ taken) s e ∧
    ((Each Accepted before taken ∧ ∀ why, e.kind ≠ .invalidNumber why) ∨
      ∃ front t why, taken = front ++ [t] ∧ Each Accepted before front ∧
        t.Refused (before ++ front) why ∧ e = ⟨.invalidNumber why, t.span, none⟩)

/-- The parser takes tokens from the front, after the ones before. If it gives something then none
    of them is refused, and all tokens so far, what it gives and the stream that it leaves have the
    property. -/
structure Spends (before : List Token) (x : Parser α) (s : Stream)
    (Q : List Token → α → Stream → Prop) : Prop where
  ok : ∀ a s', x s = (.ok a, s') →
    ∃ taken, s.tokens = taken ++ s'.tokens ∧ Each Accepted before taken ∧ Q (before ++ taken) a s'
  error : ∀ e s', x s = (.error e, s') →
    ∃ taken, s.tokens = taken ++ s'.tokens ∧ Fails before taken s' e

theorem Fails.prepend {taken more : List Token} {e : ParseError}
    (htaken : Each Accepted before taken) (h : Fails (before ++ taken) more s e) :
    Fails before (taken ++ more) s e := by
  obtain ⟨hstands, hfails⟩ := h
  rw [List.append_assoc] at hstands
  refine ⟨hstands, hfails.imp ?_ ?_⟩
  · rintro ⟨hmore, hkind⟩
    exact ⟨Token.each_append.mpr ⟨htaken, hmore⟩, hkind⟩
  · rintro ⟨front, t, why, rfl, hfront, hrefused, he⟩
    rw [List.append_assoc] at hrefused
    exact ⟨taken ++ front, t, why, by rw [List.append_assoc],
      Token.each_append.mpr ⟨htaken, hfront⟩, hrefused, he⟩

namespace Spends

theorem pure {a : α} (h : Q before a s) : Spends before (pure a) s Q where
  ok := fun b s' hb => by
    obtain ⟨hab, rfl⟩ := Prod.mk.inj (show (Except.ok a, s) = (.ok b, s') from hb)
    obtain rfl := Except.ok.inj hab
    exact ⟨[], rfl, trivial, by rwa [List.append_nil]⟩
  error := fun e s' he => nomatch he

theorem fail {kind : ParseErrorKind} {span : Span} {hint : Option String}
    (hkind : ∀ why, kind ≠ .invalidNumber why) (hspan : StandsAt before s ⟨kind, span, hint⟩) :
    Spends before (Parser.fail kind span hint) s Q where
  ok := fun b s' hb => nomatch hb
  error := fun e s' he => by
    obtain ⟨herror, rfl⟩ := Prod.mk.inj (show (Except.error _, s) = (.error e, s') from he)
    obtain rfl := Except.error.inj herror
    exact ⟨[], rfl, by rwa [List.append_nil], .inl ⟨trivial, hkind⟩⟩

theorem fail_current {kind : ParseErrorKind} {hint : Option String}
    (hkind : ∀ why, kind ≠ .invalidNumber why) :
    Spends before (Parser.fail kind s.current.span hint) s Q :=
  fail hkind (.inl rfl)

theorem bind {f : α → Parser β} (hx : Spends before x s Q)
    (hf : ∀ now a s', s'.tokens.length ≤ s.tokens.length → Q now a s' → Spends now (f a) s' R) :
    Spends before (x >>= f) s R := by
  rcases hr : x s with ⟨e | a, s'⟩
  · have hbind : (x >>= f) s = (.error e, s') := by rw [bind_apply, hr]
    refine ⟨fun b s'' hb => ?_, fun e' s'' he => ?_⟩
    · cases hbind.symm.trans hb
    · cases hbind.symm.trans he
      exact hx.error e s' hr
  · have hbind : (x >>= f) s = f a s' := by rw [bind_apply, hr]
    obtain ⟨taken, htaken, haccepted, hQ⟩ := hx.ok a s' hr
    have hnext := hf _ a s' (Stream.length_le_of_append htaken) hQ
    refine ⟨fun b s'' hb => ?_, fun e s'' he => ?_⟩
    · obtain ⟨more, hmore, haccepted', hR⟩ := hnext.ok b s'' (hbind.symm.trans hb)
      rw [List.append_assoc] at hR
      exact ⟨taken ++ more, by rw [htaken, hmore, List.append_assoc],
        Token.each_append.mpr ⟨haccepted, haccepted'⟩, hR⟩
    · obtain ⟨more, hmore, hfails⟩ := hnext.error e s'' (hbind.symm.trans he)
      exact ⟨taken ++ more, by rw [htaken, hmore, List.append_assoc], hfails.prepend haccepted⟩

theorem mono {Q' : List Token → α → Stream → Prop} (h : Spends before x s Q)
    (hQ : ∀ now a s', Q now a s' → Q' now a s') : Spends before x s Q' where
  ok := fun a s' ha => by
    obtain ⟨taken, htaken, haccepted, hgives⟩ := h.ok a s' ha
    exact ⟨taken, htaken, haccepted, hQ _ a s' hgives⟩
  error := h.error

/-- What is known of the tokens that are taken, and of the stream that is left, is added. -/
theorem takes {Q' : List Token → α → Stream → Prop} (h : Spends before x s Q)
    (htakes : Takes x s Q') :
    Spends before x s fun now a s' => Q now a s' ∧ ∃ taken, Q' taken a s' where
  ok := fun a s' ha => by
    obtain ⟨taken, htaken, haccepted, hgives⟩ := h.ok a s' ha
    obtain ⟨taken', -, hgives'⟩ := htakes a s' ha
    exact ⟨taken, htaken, haccepted, hgives, taken', hgives'⟩
  error := h.error

theorem current {f : Token → Parser β} (h : Spends before (f s.current) s R) :
    Spends before (Parser.current >>= f) s R := ⟨h.ok, h.error⟩

theorem advance {f : Unit → Parser β} (hs : s.current.kind ≠ .eof)
    (haccepted : Accepted before s.current)
    (h : Spends (before ++ [s.current]) (f ()) s.advance R) :
    Spends before (Parser.advance >>= f) s R := by
  have htaken : Each Accepted before [s.current] := Token.each_singleton.mpr haccepted
  refine ⟨fun b s' hb => ?_, fun e s' he => ?_⟩
  · obtain ⟨more, hmore, haccepted', hR⟩ := h.ok b s' hb
    rw [List.append_assoc] at hR
    exact ⟨s.current :: more, by rw [Stream.tokens_eq_cons hs, hmore, List.cons_append],
      Token.each_append.mpr ⟨htaken, haccepted'⟩, hR⟩
  · obtain ⟨more, hmore, hfails⟩ := h.error e s' he
    exact ⟨s.current :: more, by rw [Stream.tokens_eq_cons hs, hmore, List.cons_append],
      hfails.prepend htaken⟩

/-- A token that is no literal is taken. -/
theorem advance_kind {kind : TokenKind} {f : Unit → Parser β} (hkind : s.current.kind = kind)
    (heof : kind ≠ .eof) (hliteral : kind.isLiteral = false)
    (h : Spends (before ++ [s.current]) (f ()) s.advance R) :
    Spends before (Parser.advance >>= f) s R := by
  subst hkind
  exact advance heof (Token.accepted_of_isLiteral hliteral before) h

theorem skipSeparators {f : Unit → Parser β}
    (h : Spends (before ++ s.separators) (f ()) s.skipSeparators R) :
    Spends before (Parser.skipSeparators >>= f) s R := by
  have htaken := Token.each_accepted_separators s.separators_separate before
  refine ⟨fun b s' hb => ?_, fun e s' he => ?_⟩
  · obtain ⟨more, hmore, haccepted, hR⟩ := h.ok b s' hb
    rw [List.append_assoc] at hR
    exact ⟨s.separators ++ more, by rw [s.separators_append, hmore, List.append_assoc],
      Token.each_append.mpr ⟨htaken, haccepted⟩, hR⟩
  · obtain ⟨more, hmore, hfails⟩ := h.error e s' he
    exact ⟨s.separators ++ more, by rw [s.separators_append, hmore, List.append_assoc],
      hfails.prepend htaken⟩

/-- A test before a parser that goes on. -/
theorem refuse {c : Prop} [Decidable c] {kind : ParseErrorKind} {span : Span}
    {hint : Option String} {f : Unit → Parser β}
    (hfail : Spends before (Parser.fail kind span hint : Parser Unit) s fun _ _ _ => True)
    (hf : Spends before (f ()) s R) :
    Spends before (if c then Parser.fail kind span hint >>= f else f ()) s R := by
  split
  · refine ⟨fun b s' hb => (nomatch hb), fun e s' he => ?_⟩
    obtain ⟨herror, rfl⟩ := Prod.mk.inj (show (Except.error _, s) = (.error e, s') from he)
    obtain rfl := Except.error.inj herror
    exact hfail.error _ s rfl
  · exact hf

theorem unexpected (expected : Expected) (hint : Option String) :
    Spends before (unexpected expected hint) s Q :=
  current (fail_current fun _ => ParseErrorKind.noConfusion)

theorem expect {kind : TokenKind} (heof : kind ≠ .eof) (hliteral : kind.isLiteral = false) :
    Spends before (expect kind) s fun now t _ => t.kind = kind ∧ ∃ front, now = front ++ [t] := by
  refine current ?_
  split
  · rename_i hkind
    exact advance_kind hkind heof hliteral (pure ⟨hkind, before, rfl⟩)
  · exact unexpected _ _

theorem expectIdent :
    Spends before expectIdent s fun now _ _ => EndsInOperand now := by
  refine current ?_
  split
  · rename_i hkind
    exact advance_kind hkind TokenKind.noConfusion rfl
      (pure (Token.endsInOperand_of_kind hkind rfl before))
  · exact fail_current fun _ => ParseErrorKind.noConfusion

theorem endOfStatement {closer : TokenKind} {f : Unit → Parser β}
    (h : s.current.kind.isSeparator = true ∨ s.current.kind = closer → Spends before (f ()) s R) :
    Spends before (endOfStatement closer >>= f) s R := by
  have hends : Spends before (Parser.endOfStatement closer) s fun now _ s' =>
      now = before ∧ s' = s ∧ (s.current.kind.isSeparator = true ∨ s.current.kind = closer) := by
    refine current ?_
    split
    · rename_i hc
      exact pure ⟨rfl, rfl, by simpa using hc⟩
    · exact unexpected _ _
  refine hends.bind ?_
  rintro _ _ _ _ ⟨rfl, rfl, hc⟩
  exact h hc

end Spends

/-! ## Expressions -/

/-- An operand has been read, and no minus follows that might extend it. -/
def Read (now : List Token) (_ : Node) (s : Stream) : Prop :=
  EndsInOperand now ∧ s.current.kind ≠ .minus

section Nested

variable {n : Nat} {expr : Parser Node} (hexpr : ∀ (before : List Token) (s : Stream),
  s.tokens.length < n → Ready before s → Spends before expr s Read)
include hexpr

theorem arguments_spends (count : Nat) {before : List Token} {s : Stream}
    (hs : s.tokens.length < n) (hready : Ready before s) :
    Spends before (arguments expr count) s fun _ _ _ => True := by
  induction count generalizing before s with
  | zero => exact .pure trivial
  | succ count ih =>
      refine .current ?_
      split
      · exact .pure trivial
      · refine (hexpr before s hs hready).bind fun now arg s' hlen _ => .current ?_
        split
        · rename_i hcomma
          have hne : s'.current.kind ≠ .eof := by rw [hcomma]; exact TokenKind.noConfusion
          have hlen' := Stream.length_advance hne
          have hready' : Ready (now ++ [s'.current]) s'.advance :=
            .after hcomma rfl TokenKind.noConfusion _ _
          refine .advance_kind hcomma TokenKind.noConfusion rfl ?_
          exact (ih (by omega) hready').bind fun _ _ _ _ _ => .pure trivial
        · exact .pure trivial

theorem nameOrCall_spends (count : Nat) {before : List Token} {s : Stream}
    (hs : s.tokens.length ≤ n) :
    Spends before (nameOrCall (arguments expr count)) s fun now _ _ => EndsInOperand now := by
  refine Spends.expectIdent.bind fun now callee s' hlen hend => .current ?_
  split
  · rename_i hopening
    have hne : s'.current.kind ≠ .eof := by rw [hopening]; exact TokenKind.noConfusion
    have hlen' := Stream.length_advance hne
    have hready : Ready (now ++ [s'.current]) s'.advance :=
      .after hopening rfl TokenKind.noConfusion _ _
    refine .advance_kind hopening TokenKind.noConfusion rfl ?_
    refine (arguments_spends hexpr count (by omega) hready).bind fun now' args s'' _ _ => ?_
    refine (Spends.expect (by simp) rfl).bind ?_
    rintro _ close _ _ ⟨hclose, front, rfl⟩
    exact .pure (Token.endsInOperand_of_kind hclose rfl front)
  · exact .pure hend

theorem parenthesized_spends {before : List Token} {s : Stream} (hs : s.tokens.length ≤ n)
    (hopening : s.current.kind = .lParen) :
    Spends before (parenthesized expr) s fun now _ _ => EndsInOperand now := by
  have hne : s.current.kind ≠ .eof := by rw [hopening]; exact TokenKind.noConfusion
  have hlen := Stream.length_advance hne
  have hready : Ready (before ++ [s.current]) s.advance :=
    .after hopening rfl TokenKind.noConfusion _ _
  refine .advance_kind hopening TokenKind.noConfusion rfl ?_
  refine (hexpr _ _ (by omega) hready).bind fun now inner s' _ _ => ?_
  refine (Spends.expect (by simp) rfl).bind ?_
  rintro _ close _ _ ⟨hclose, front, rfl⟩
  exact .pure (Token.endsInOperand_of_kind hclose rfl front)

theorem conditional_spends {before : List Token} {s : Stream} (hs : s.tokens.length ≤ n)
    {form : ConditionalForm} (hword : s.current.kind.conditionalForm? = some form) :
    Spends before (conditional expr form) s fun now _ _ => EndsInOperand now := by
  have hkind : s.current.kind ≠ .eof ∧ s.current.kind.isLiteral = false ∧
      s.current.kind.closes = false ∧ s.current.kind ≠ .minus := by
    revert hword
    cases s.current.kind <;>
      simp [TokenKind.conditionalForm?, TokenKind.isLiteral, TokenKind.closes]
  obtain ⟨hne, hliteral, hcloses, hminus⟩ := hkind
  have hlen := Stream.length_advance hne
  refine .current (.advance_kind rfl hne hliteral ?_)
  refine (hexpr _ _ (by omega) (.after rfl hcloses hminus _ _)).bind
    fun now₁ test s₁ hlen₁ htest => ?_
  -- The test has taken every operator, so an arm that starts with a minus cannot follow it.
  have hready := Ready.after_operand htest.1 htest.2
  refine (hexpr _ _ (by omega) hready).bind fun now₂ thenArm s₂ hlen₂ hthen => .current ?_
  split
  · rename_i hmid
    have hne₂ : s₂.current.kind ≠ .eof := by rw [hmid]; exact TokenKind.noConfusion
    have hlen₃ := Stream.length_advance hne₂
    have hready' : Ready (now₂ ++ [s₂.current]) s₂.advance :=
      .after hmid rfl TokenKind.noConfusion _ _
    refine .advance_kind hmid TokenKind.noConfusion rfl ?_
    exact (hexpr _ _ (by omega) hready').bind fun now₃ elseArm s₃ _ helse => .pure helse.1
  · exact .unexpected _ _

/-- A number that is refused is taken before the failure. -/
theorem primary_spends (count : Nat) {before : List Token} {s : Stream}
    (hs : s.tokens.length ≤ n) (hready : Ready before s) :
    Spends before (primary expr count) s fun now _ _ => EndsInOperand now := by
  refine .current ?_
  have hne {r : Except NumberError Literal} (h : s.current.literal? = some r) :
      s.current.kind ≠ .eof := fun heof => by
    have hkind := Token.literal_isLiteral h
    rw [heof] at hkind
    cases hkind
  split
  · rename_i value hliteral
    refine .advance (hne hliteral) (Token.accepted_of_literal hliteral) (.pure ?_)
    have hcloses := TokenKind.closes_of_isLiteral (Token.literal_isLiteral hliteral)
    exact Token.endsInOperand_of_kind rfl hcloses before
  · rename_i why hliteral
    refine ⟨fun a s' ha => (nomatch ha), fun e s' he => ?_⟩
    obtain ⟨herror, rfl⟩ :=
      Prod.mk.inj (show (Except.error _, s.advance) = (.error e, s') from he)
    obtain rfl := Except.error.inj herror
    refine ⟨[s.current], Stream.tokens_eq_cons (hne hliteral), .inr ⟨s.current, ?_⟩, .inr ?_⟩
    · simp
    · exact ⟨[], s.current, why, rfl, trivial, by simpa using ⟨hliteral, hready.single⟩, rfl⟩
  · split
    · exact nameOrCall_spends hexpr count hs
    · rename_i hkind
      exact parenthesized_spends hexpr hs hkind
    · rename_i hkind
      exact conditional_spends hexpr hs (by rw [hkind]; rfl)
    · rename_i hkind
      exact conditional_spends hexpr hs (by rw [hkind]; rfl)
    · exact .fail_current fun _ => ParseErrorKind.noConfusion
    · exact .fail_current fun _ => ParseErrorKind.noConfusion

theorem operand_spends (count : Nat) {before : List Token} {s : Stream}
    (hs : s.tokens.length ≤ n) (hready : Ready before s) :
    Spends before (operand expr count) s fun now _ _ => EndsInOperand now := by
  induction count generalizing before s with
  | zero => exact .current (.fail_current fun _ => ParseErrorKind.noConfusion)
  | succ count ih =>
      refine .current ?_
      split
      · rename_i hsign
        have hne : s.current.kind ≠ .eof := by rw [hsign]; exact TokenKind.noConfusion
        have hlen := Stream.length_advance hne
        have hends : EndsInSign (before ++ [s.current]) :=
          Token.endsInSign_concat.mpr ⟨hsign, hready.unary hsign⟩
        refine .advance_kind hsign TokenKind.noConfusion rfl (.current ?_)
        split
        · rename_i hleast
          obtain ⟨hnumber, hleast⟩ := (Bool.and_eq_true _ _).mp hleast
          have hnumber := of_decide_eq_true hnumber
          have haccepted : Accepted (before ++ [s.current]) s.advance.current :=
            fun why hrefused => hrefused.2 ⟨hnumber, hleast, hends⟩
          exact .advance (by rw [hnumber]; exact TokenKind.noConfusion) haccepted
            (.pure (Token.endsInOperand_of_kind hnumber rfl _))
        · rename_i hother
          have hready' : Ready (before ++ [s.current]) s.advance := by
            refine ⟨fun _ => hends.not_operand, fun hexcepted => hother ?_⟩
            rw [hexcepted.2.1, hexcepted.1]
            rfl
          exact (ih (by omega) hready').bind fun now inner s' _ hend => .pure hend
      · exact primary_spends hexpr (count + 1) hs hready

end Nested

theorem climb_spends {n : Nat} {expr : Nat → Parser Node}
    (hexpr : ∀ (level : Nat) (before : List Token) (s : Stream), s.tokens.length < n →
      Ready before s → Spends before (expr level) s fun now _ _ => EndsInOperand now)
    (level count : Nat) {before : List Token} {s : Stream} {lhs : Node}
    (hs : s.tokens.length ≤ n) (hbefore : EndsInOperand before) :
    Spends before (climb expr level count lhs) s fun now _ _ => EndsInOperand now := by
  induction count generalizing before s lhs with
  | zero => exact .pure hbefore
  | succ count ih =>
      refine .current ?_
      split
      · exact .pure hbefore
      · rename_i op hop
        split
        · exact .pure hbefore
        · have hne : s.current.kind ≠ .eof := fun heof => by rw [heof] at hop; cases hop
          have hlen := Stream.length_advance hne
          refine .advance_kind rfl hne (TokenKind.isLiteral_of_binaryOp hop) ?_
          refine (hexpr _ _ _ (by omega) (.after_operator hbefore hop _)).bind
            fun now rhs s' hlen' hend => ih (by omega) hend

/-- No operator binds less tightly than the lowest level, so all that follow are taken. -/
theorem Spends.reads {fuel : Nat} {before : List Token} {s : Stream} (hs : s.tokens.length < fuel)
    (h : Spends before (expression fuel 0) s fun now _ _ => EndsInOperand now) :
    Spends before (expression fuel 0) s Read := by
  refine (h.takes (expression_takes fuel (Nat.zero_le _) hs)).mono ?_
  rintro now node s' ⟨hend, ts, -, hstop⟩
  exact ⟨hend, fun hminus => absurd (hstop .sub (by rw [hminus]; rfl)) (Nat.not_lt_zero _)⟩

theorem expression_spends (fuel level : Nat) {before : List Token} {s : Stream}
    (hs : s.tokens.length < fuel) (hready : Ready before s) :
    Spends before (expression fuel level) s fun now _ _ => EndsInOperand now := by
  induction fuel generalizing level before s with
  | zero => omega
  | succ fuel ih =>
      have hnested (before : List Token) (s : Stream) (hs : s.tokens.length < fuel)
          (hready : Ready before s) : Spends before (expression fuel 0) s Read :=
        (ih 0 hs hready).reads hs
      refine (operand_spends hnested _ (Nat.le_of_lt_succ hs) hready).bind
        fun now lhs s' hlen hend => ?_
      exact climb_spends (fun level before s hs => ih level hs) level _ (by omega) hend

/-! ## Statements -/

theorem body_spends {n : Nat} {expr : Parser Node} (hexpr : ∀ (before : List Token) (s : Stream),
    s.tokens.length < n → Ready before s → Spends before expr s Read) (count : Nat)
    {before : List Token} {s : Stream} (hs : s.tokens.length < n) (hready : Ready before s) :
    Spends before (body expr count) s fun _ _ _ => True := by
  induction count generalizing before s with
  | zero => exact .pure trivial
  | succ count ih =>
      refine .current ?_
      split
      · exact .pure trivial
      · refine .refuse (.fail_current fun _ => ParseErrorKind.noConfusion) ?_
        refine (hexpr before s hs hready).bind fun now node s' hlen _ => ?_
        refine .endOfStatement fun hends => .skipSeparators ?_
        have hlen' := Stream.length_le_of_append s'.separators_append
        have hready' : Ready (now ++ s'.separators) s'.skipSeparators :=
          .after_statement TokenKind.noConfusion TokenKind.noConfusion hends
        exact (ih (by omega) hready').bind fun _ _ _ _ _ => .pure trivial

theorem functionDef_spends {n : Nat} {expr : Parser Node}
    (hexpr : ∀ (before : List Token) (s : Stream), s.tokens.length < n → Ready before s →
      Spends before expr s Read) (count : Nat) {before : List Token} {s : Stream}
    (hs : s.tokens.length < n) :
    Spends before (functionDef expr count) s fun _ _ _ => True := by
  refine (Spends.expect (by simp) rfl).bind fun _ word s₁ hlen₁ _ => ?_
  refine Spends.expectIdent.bind fun _ name s₂ hlen₂ _ => ?_
  refine (Spends.expect (by simp) rfl).bind fun _ opening s₃ hlen₃ _ => ?_
  refine .current (.refuse (.fail_current fun _ => ParseErrorKind.noConfusion) ?_)
  refine (Spends.expect (by simp) rfl).bind fun _ closing s₄ hlen₄ _ => ?_
  refine (Spends.expect (by simp) rfl).bind ?_
  rintro _ left s₅ hlen₅ ⟨hleft, front, rfl⟩
  have hready : Ready (front ++ [left] ++ s₅.separators) s₅.skipSeparators :=
    .skipSeparators fun _ => .after hleft rfl TokenKind.noConfusion _ _
  have hlen₆ := Stream.length_le_of_append s₅.separators_append
  refine .skipSeparators ((body_spends hexpr count (by omega) hready).bind fun _ nodes s₆ _ _ => ?_)
  refine (Spends.expect (by simp) rfl).bind ?_
  rintro _ close s₇ _ ⟨-, front', rfl⟩
  -- An empty body is reported at the whole definition, which ends with the brace just taken.
  refine .refuse (.fail (fun _ => ParseErrorKind.noConfusion) (.inr ⟨close, by simp, ?_⟩))
    (.pure trivial)
  exact ⟨Nat.min_le_right _ _, Nat.le_max_right _ _⟩

theorem statement_spends {fuel : Nat} {before : List Token} {s : Stream}
    (hs : s.tokens.length < fuel) (hready : Ready before s) :
    Spends before (statement fuel) s fun _ _ _ => True := by
  refine .current ?_
  split
  · refine functionDef_spends (fun before s hs hready => ?_) fuel hs
    exact (expression_spends fuel 0 hs hready).reads hs
  · exact (expression_spends fuel 0 hs hready).mono fun _ _ _ _ => trivial

theorem topLevel_spends {fuel : Nat} {before : List Token} {s : Stream}
    (hs : s.tokens.length < fuel) (hready : Ready before s) :
    Spends before (topLevel fuel) s fun _ _ s' =>
      s'.current.kind.isSeparator = true ∨ s'.current.kind = .eof :=
  (statement_spends hs hready).bind fun _ _ _ _ _ => .endOfStatement fun hends => .pure hends

end Parser

/-! ## Reports -/

/-- The error comes before the token, and no separator stands between the two. -/
def ParseError.Hides (tokens : List Token) (t : Token) (e : ParseError) : Prop :=
  e.span.start < t.span.start ∧ ∀ u ∈ tokens, u.kind.isSeparator = true →
    u.span.start < e.span.stop ∨ t.span.start < u.span.start

/-- The errors for tokens after others: what they say about numbers is right, and every number that
    is refused is reported, or hidden by an error of the same statement. -/
structure Reports (before ts : List Token) (errors : List ParseError) : Prop where
  sound : ∀ e ∈ errors, ∀ why, e.kind = .invalidNumber why → ∃ front t after,
    ts = front ++ t :: after ∧ t.Refused (before ++ front) why ∧ e.span = t.span
  complete : ∀ front t after why, ts = front ++ t :: after → t.Refused (before ++ front) why →
    ∃ e ∈ errors, e.span = t.span ∨ e.Hides (before ++ ts) t

namespace Reports

variable {before ts us : List Token} {errors : List ParseError}

theorem nil (before : List Token) : Reports before [] [] :=
  ⟨fun e he => (nomatch he), fun front t after why h => by simp at h⟩

/-- Tokens that are accepted are put in front. -/
theorem append (hts : Each Accepted before ts) (h : Reports (before ++ ts) us errors) :
    Reports before (ts ++ us) errors where
  sound := fun e he why hkind => by
    obtain ⟨front, t, after, rfl, hrefused, hspan⟩ := h.sound e he why hkind
    rw [List.append_assoc] at hrefused
    exact ⟨ts ++ front, t, after, by rw [List.append_assoc], hrefused, hspan⟩
  complete := fun front t after why heq hrefused => by
    rcases Token.split_append heq with ⟨rest, rfl⟩ | ⟨more, rfl, rfl⟩
    · exact absurd hrefused (hts.at why)
    · rw [← List.append_assoc] at hrefused
      obtain ⟨e, he, hreported⟩ := h.complete more t after why rfl hrefused
      rw [List.append_assoc] at hreported
      exact ⟨e, he, hreported⟩

end Reports

open Token (InOrder)

/-- An error of a parser comes no later than the tokens up to the next separator. -/
theorem Parser.StandsAt.hides {before front after : List Token} {s : Stream} {t : Token}
    {e : ParseError} (h : StandsAt before s e) (hts : InOrder (before ++ s.tokens))
    (hs : s.tokens = front ++ t :: after) (hfront : ∀ u ∈ front, u.kind.isSeparator = false)
    (ht : t.kind.isSeparator = false) :
    e.span = t.span ∨ e.Hides (before ++ s.tokens) t := by
  obtain ⟨hbefore, hleft, hordered⟩ := Token.inOrder_append.mp hts
  have hmem : t ∈ s.tokens := by simp [hs]
  have hlater : ∀ u ∈ s.tokens, u.kind.isSeparator = true → t.span.start < u.span.start := by
    intro u hu hsep
    rw [hs, List.mem_append, List.mem_cons] at hu
    rcases hu with hu | rfl | hu
    · rw [hfront u hu] at hsep
      cases hsep
    · rw [ht] at hsep
      cases hsep
    · have hafter := (hs ▸ hleft).ordered
      have hle := List.rel_of_pairwise_cons (List.pairwise_append.mp hafter).2.1 hu
      exact Nat.lt_of_lt_of_le (hleft.solid t hmem) hle
  suffices hearly : e.span = t.span ∨
      e.span.start < t.span.start ∧ ∀ u ∈ before, u.span.start < e.span.stop by
    refine hearly.imp_right fun ⟨hstart, hstop⟩ => ⟨hstart, fun u hu hsep => ?_⟩
    exact (List.mem_append.mp hu).imp (hstop u) (hlater u · hsep)
  rcases h with hnext | ⟨last, hlast, hstart, hstop⟩
  · cases front with
    | nil => exact .inl (by rw [hnext, Stream.current, hs]; rfl)
    | cons first front =>
        have hcurrent : s.current = first := by rw [Stream.current, hs]; rfl
        have hfirst : first ∈ s.tokens := by simp [hs]
        have hle : first.span.stop ≤ t.span.start := by
          have hpairs := (hs ▸ hleft).ordered
          exact List.rel_of_pairwise_cons hpairs (by simp)
        have hsolid := hleft.solid first hfirst
        rw [hnext, hcurrent]
        refine .inr ⟨by omega, fun u hu => ?_⟩
        have hsolid' := hbefore.solid u hu
        have hle' := hordered u hu first hfirst
        omega
  · obtain ⟨init, rfl⟩ := List.getLast?_eq_some_iff.mp hlast
    have hlastMem : last ∈ init ++ [last] := by simp
    have hsolid := hbefore.solid last hlastMem
    have hle := hordered last hlastMem t hmem
    refine .inr ⟨by omega, fun u hu => ?_⟩
    rcases List.mem_append.mp hu with hu | hu
    · have hsolid' := hbefore.solid u (List.mem_append_left _ hu)
      have hle' := (Token.inOrder_append.mp hbefore).2.2 u hu last (List.mem_singleton_self _)
      omega
    · rw [List.mem_singleton.mp hu]
      omega

namespace Reports

variable {before taken dropped rest : List Token} {s : Stream} {e : ParseError}
  {errors : List ParseError}

/-- A turn that fails: tokens are taken, and then others are dropped up to a separator. -/
theorem failure (hfails : Parser.Fails before taken s e) (hs : s.tokens = dropped ++ rest)
    (hdropped : ∀ t ∈ dropped, t.kind.isSeparator = false)
    (hts : InOrder (before ++ (taken ++ s.tokens)))
    (h : Reports (before ++ (taken ++ dropped)) rest errors) :
    Reports before (taken ++ s.tokens) (e :: errors) where
  sound := fun e' he' why hkind => by
    rcases List.mem_cons.mp he' with rfl | he'
    · rcases hfails.2 with ⟨-, hother⟩ | ⟨front, t, why', rfl, -, hrefused, rfl⟩
      · exact absurd hkind (hother why)
      · cases hkind
        exact ⟨front, t, s.tokens, by simp, hrefused, rfl⟩
    · obtain ⟨front, t, after, rfl, hrefused, hspan⟩ := h.sound e' he' why hkind
      rw [List.append_assoc] at hrefused
      exact ⟨taken ++ dropped ++ front, t, after, by simp [hs], hrefused, hspan⟩
  complete := fun front t after why heq hrefused => by
    have hsep : t.kind.isSeparator = false :=
      TokenKind.isSeparator_of_opens (TokenKind.opens_of_isLiteral hrefused.isLiteral)
    rcases Token.split_append heq with ⟨more, htaken⟩ | ⟨more, rfl, hleft⟩
    · -- The token was taken, so it is the one that the error is about.
      refine ⟨e, List.mem_cons_self, .inl ?_⟩
      rcases hfails.2 with ⟨haccepted, -⟩ | ⟨front', t', why', hfirst, haccepted, -, rfl⟩
      · rw [htaken] at haccepted
        exact absurd hrefused (haccepted.at why)
      · rcases Token.split_append (hfirst.symm.trans htaken) with ⟨more', rfl⟩ | ⟨more', -, hlast⟩
        · exact absurd hrefused (haccepted.at why)
        · obtain ⟨-, rfl⟩ : more' = [] ∧ t' = t := by
            cases more' with
            | nil => exact ⟨rfl, (List.cons.inj hlast).1⟩
            | cons u more' => simp at hlast
          rfl
    · rw [← List.append_assoc] at hts
      rcases Token.split_append (hs.symm.trans hleft) with ⟨more', hdrop⟩ | ⟨more', rfl, rfl⟩
      · have hfront : ∀ u ∈ more, u.kind.isSeparator = false :=
          fun u hu => hdropped u (by simp [hdrop, hu])
        have hhides := hfails.1.hides hts hleft hfront hsep
        rw [List.append_assoc] at hhides
        exact ⟨e, List.mem_cons_self, hhides⟩
      · have hrefused' : t.Refused (before ++ (taken ++ dropped) ++ more') why := by
          simpa using hrefused
        obtain ⟨e', he', hreported⟩ := h.complete more' t after why rfl hrefused'
        refine ⟨e', List.mem_cons_of_mem _ he', ?_⟩
        simpa [hs] using hreported

end Reports

theorem Stream.skipStatement_ends (s : Stream) :
    s.skipStatement.current.kind.isSeparator = true ∨ s.skipStatement.current.kind = .eof := by
  cases htokens : s.skipStatement.tokens with
  | nil => exact .inr (current_of_nil htokens)
  | cons t rest =>
      have hhead := List.head?_dropWhile_not (fun t : Token => !t.kind.isSeparator) s.tokens
      rw [show s.tokens.dropWhile _ = t :: rest from htokens] at hhead
      rw [current, htokens]
      exact .inl (by simpa using hhead)

namespace Parser

theorem collect_reports {fuel : Nat} (turns : Nat) {before : List Token} {s : Stream}
    (hts : InOrder (before ++ s.skipSeparators.tokens))
    (hfuel : s.skipSeparators.tokens.length < fuel)
    (hturns : s.skipSeparators.tokens.length ≤ turns) (hready : Ready before s.skipSeparators) :
    Reports before s.skipSeparators.tokens (collect fuel turns s.skipSeparators).2 := by
  induction turns generalizing before s with
  | zero =>
      rw [List.length_eq_zero_iff.mp (Nat.le_zero.mp hturns)]
      exact .nil before
  | succ turns ih =>
      by_cases hne : s.skipSeparators.tokens = []
      · rw [collect_end _ _ hne, hne]
        exact .nil before
      have hspends := topLevel_spends hfuel hready
      rcases hr : topLevel fuel s.skipSeparators with ⟨e | node, s'⟩
      · obtain ⟨taken, htaken, hfails⟩ := hspends.error e s' hr
        have hrest := (Nesting.topLevel_agrees hfuel).run hr |>.1
        have hlt := skipStatement_length_lt hrest hne
        have hdrop : s'.tokens = _ ++ s'.skipStatement.tokens :=
          (List.takeWhile_append_dropWhile (p := fun t : Token => !t.kind.isSeparator)).symm
        generalize hdropped : s'.tokens.takeWhile _ = dropped at hdrop
        have hseps := s'.skipStatement.separators_append
        have hlen := Stream.length_le_of_append hseps
        rw [collect_error turns hne hr, htaken]
        rw [htaken] at hts
        refine .failure hfails hdrop (fun t ht => ?_) hts ?_
        · rw [← hdropped] at ht
          simpa using List.mem_takeWhile_imp ht
        · rw [hseps]
          refine .append (Token.each_accepted_separators (Stream.separators_separate _) _) ?_
          refine ih ?_ (by omega) (by omega)
            (.after_statement TokenKind.noConfusion TokenKind.noConfusion s'.skipStatement_ends)
          rw [hdrop, hseps] at hts
          simpa using hts
      · obtain ⟨taken, htaken, haccepted, hends⟩ := hspends.ok node s' hr
        have hlt := topLevel_length_lt hfuel hr
        have hseps := s'.separators_append
        have hlen := Stream.length_le_of_append hseps
        rw [collect_ok turns hne hr, htaken]
        rw [htaken, hseps] at hts
        refine .append haccepted ?_
        rw [hseps]
        refine .append (Token.each_accepted_separators s'.separators_separate _) ?_
        refine ih (by simpa using hts) (by omega) (by omega)
          (.after_statement TokenKind.noConfusion TokenKind.noConfusion hends)

end Parser

/-- The errors of a source without unknown characters. -/
theorem Fragment.errors_report {source : String} (hlex : Token.lexErrors source = []) :
    Reports [] (Stream.ofSource source).tokens (errors source) := by
  have hseps := (Stream.ofSource source).separators_append
  have hlen := Stream.length_le_of_append hseps
  have hts := Stream.ofSource_inOrder source
  rw [hseps] at hts
  rw [errors, if_pos hlex, Parser.collected, hseps]
  refine .append (Token.each_accepted_separators (Stream.separators_separate _) _) ?_
  rw [List.nil_append]
  refine Parser.collect_reports _ hts ?_ ?_ ?_
  · rw [← hseps]
    omega
  · rw [← hseps]
    omega
  · simpa using Parser.Ready.skipSeparators fun _ => .start (Stream.ofSource source)

end ScalarLang
