import Mathlib
import ScalarLang.Proofs.Parse.Spans

/-
  Where errors point.
  Spans come from tokens, from the end marker and from hulls of these. So a mark that all tokens
  have, and that hulls keep, is on every span of what a parser gives and of the errors it fails
  with. A parser fails where it stopped or at a place before: no error starts after the first token
  that is left. `Blames` carries both through the parsers.
-/

namespace ScalarLang

/-! ## Marks -/

mutual

/-- All spans of the tree have the mark. -/
def Node.Marked (P : Span → Prop) : Node → Prop
  | .literal span _ | .name span _ => P span
  | .binary span _ lhs rhs => P span ∧ lhs.Marked P ∧ rhs.Marked P
  | .negate span operand => P span ∧ operand.Marked P
  | .conditional span _ test thenArm elseArm =>
    P span ∧ test.Marked P ∧ thenArm.Marked P ∧ elseArm.Marked P
  | .function span ident params body =>
    P span ∧ P ident.span ∧ (∀ param ∈ params, P param.span) ∧ Node.AllMarked P body
  | .call span callee args => P span ∧ P callee.span ∧ Node.AllMarked P args

def Node.AllMarked (P : Span → Prop) : List Node → Prop
  | [] => True
  | node :: rest => node.Marked P ∧ Node.AllMarked P rest

end

theorem Node.allMarked_iff {P : Span → Prop} {nodes : List Node} :
    AllMarked P nodes ↔ ∀ n ∈ nodes, n.Marked P := by
  induction nodes with
  | nil => simp [AllMarked]
  | cons node rest ih => rw [AllMarked, List.forall_mem_cons, ih]

theorem Node.Marked.span {P : Span → Prop} {node : Node} (h : node.Marked P) : P node.span := by
  cases node with
  | literal | name => exact h
  | binary | negate | conditional | function | call => exact h.1

/-- Hulls of marked spans are marked. -/
def Span.HullClosed (P : Span → Prop) : Prop := ∀ a b, P a → P b → P (a.hull b)

/-- The tokens that are left stand from byte `lo` on, and their spans have the mark, as has that of
    the end marker. -/
structure Stream.Marked (P : Span → Prop) (s : Stream) (size lo : Nat) : Prop where
  laid : s.LaidFrom size lo
  tokens : ∀ t ∈ s.tokens, P t.span
  eof : P (Token.eof size).span

namespace Stream.Marked

variable {P : Span → Prop} {s : Stream} {size lo : Nat}

theorem current (h : s.Marked P size lo) : P s.current.span := by
  obtain ⟨⟨rfl, -⟩, htokens, heof⟩ := h
  unfold Stream.current
  cases hs : s.tokens with
  | nil => exact heof
  | cons t rest =>
      rw [hs] at htokens
      exact htokens t List.mem_cons_self

theorem advance (h : s.Marked P size lo) : s.advance.Marked P size s.current.span.stop :=
  ⟨h.laid.current.2.2, fun t ht => h.tokens t (List.mem_of_mem_tail ht), h.eof⟩

theorem skipSeparators (h : s.Marked P size lo) : s.skipSeparators.Marked P size lo :=
  ⟨h.laid.skipSeparators, fun t ht => h.tokens t ((List.dropWhile_sublist _).mem ht), h.eof⟩

theorem skipStatement (h : s.Marked P size lo) : s.skipStatement.Marked P size lo :=
  ⟨h.laid.skipStatement, fun t ht => h.tokens t ((List.dropWhile_sublist _).mem ht), h.eof⟩

/-- The tokens that are left stand from the current one on. -/
theorem at_current (h : s.Marked P size lo) : s.Marked P size s.current.span.start := by
  obtain ⟨⟨rfl, hlaid⟩, htokens, heof⟩ := h
  refine ⟨⟨rfl, ?_⟩, htokens, heof⟩
  unfold Stream.current
  cases hs : s.tokens with
  | nil => exact Nat.le_refl _
  | cons t rest =>
      rw [hs] at hlaid
      exact ⟨Nat.le_refl _, hlaid.2⟩

end Stream.Marked

namespace Parser

variable {α β : Type} {P : Span → Prop} {size lo : Nat} {x : Parser α} {s : Stream}
  {Q : Nat → α → Prop} {R : Nat → β → Prop}

/-! ## Steps -/

/-- The parser takes tokens up to some place. What it gives has the property there; an error has
    the mark and starts no later. -/
def Blames (P : Span → Prop) (size lo : Nat) (x : Parser α) (s : Stream) (Q : Nat → α → Prop) :
    Prop :=
  ∃ hi, lo ≤ hi ∧ (x s).2.Marked P size hi ∧ (∀ a, (x s).1 = .ok a → Q hi a) ∧
    ∀ e, (x s).1 = .error e → P e.span ∧ e.span.start ≤ hi

/-- So it does wherever it starts. -/
def Points (P : Span → Prop) (size : Nat) (x : Parser α) (Q : Nat → α → Prop) : Prop :=
  ∀ (lo : Nat) (s : Stream), s.Marked P size lo → Blames P size lo x s Q

namespace Blames

theorem ok (h : Blames P size lo x s Q) {a : α} {t : Stream} (hx : x s = (.ok a, t)) :
    ∃ hi, lo ≤ hi ∧ t.Marked P size hi ∧ Q hi a := by
  obtain ⟨hi, hle, hleft, hgives, -⟩ := h
  rw [hx] at hleft hgives
  exact ⟨hi, hle, hleft, hgives a rfl⟩

theorem error (h : Blames P size lo x s Q) {e : ParseError} {t : Stream}
    (hx : x s = (.error e, t)) :
    ∃ hi, lo ≤ hi ∧ t.Marked P size hi ∧ P e.span ∧ e.span.start ≤ hi := by
  obtain ⟨hi, hle, hleft, -, hfails⟩ := h
  rw [hx] at hleft hfails
  exact ⟨hi, hle, hleft, hfails e rfl⟩

theorem pure {a : α} (hs : s.Marked P size lo) (h : Q lo a) : Blames P size lo (pure a) s Q := by
  refine ⟨lo, Nat.le_refl _, hs, fun b hb => ?_, fun e he => nomatch he⟩
  obtain rfl : a = b := Except.ok.inj hb
  exact h

/-- A failure at a place that was passed. -/
theorem fail {span : Span} (hs : s.Marked P size lo) (hspan : P span) (hle : span.start ≤ lo)
    (kind : ParseErrorKind) (hint : Option String) :
    Blames P size lo (fail kind span hint) s Q := by
  refine ⟨lo, Nat.le_refl _, hs, fun a ha => (nomatch ha), fun e he => ?_⟩
  obtain rfl := Except.error.inj he
  exact ⟨hspan, hle⟩

/-- A failure at the current token. -/
theorem fail_current (hs : s.Marked P size lo) (kind : ParseErrorKind) (hint : Option String) :
    Blames P size lo (Parser.fail kind s.current.span hint) s Q := by
  obtain ⟨hi, hle, h⟩ : Blames P size s.current.span.start
      (Parser.fail kind s.current.span hint) s Q :=
    fail hs.at_current hs.current (Nat.le_refl _) kind hint
  exact ⟨hi, hs.laid.current.1.trans hle, h⟩

theorem bind {f : α → Parser β} (hx : Blames P size lo x s Q)
    (hf : ∀ hi a s', lo ≤ hi → s'.Marked P size hi → Q hi a → Blames P size hi (f a) s' R) :
    Blames P size lo (x >>= f) s R := by
  obtain ⟨hi, hle, hs, hgives, hfails⟩ := hx
  unfold Blames
  rw [bind_apply]
  rcases hr : x s with ⟨e | a, s'⟩
  · rw [hr] at hs hfails
    refine ⟨hi, hle, hs, fun b hb => (nomatch hb), fun e' he => ?_⟩
    obtain rfl := Except.error.inj he
    exact hfails e rfl
  · rw [hr] at hs hgives
    obtain ⟨hi', hle', h⟩ := hf hi a s' hle hs (hgives a rfl)
    exact ⟨hi', hle.trans hle', h⟩

theorem current {f : Token → Parser β} (h : Blames P size lo (f s.current) s R) :
    Blames P size lo (current >>= f) s R := h

/-- The current token is taken. -/
theorem advance {f : Unit → Parser β} (hs : s.Marked P size lo)
    (hf : s.advance.Marked P size s.current.span.stop →
      Blames P size s.current.span.stop (f ()) s.advance R) :
    Blames P size lo (advance >>= f) s R := by
  obtain ⟨hlo, hstop, -⟩ := hs.laid.current
  obtain ⟨hi, hle, h⟩ := hf hs.advance
  exact ⟨hi, hlo.trans (hstop.trans hle), h⟩

theorem skipSeparators {f : Unit → Parser β} (hf : Blames P size lo (f ()) s.skipSeparators R) :
    Blames P size lo (skipSeparators >>= f) s R := hf

theorem unexpected (hs : s.Marked P size lo) (expected : Expected) (hint : Option String) :
    Blames P size lo (unexpected expected hint) s Q :=
  current (fail_current hs _ _)

/-- A test before a parser that goes on. -/
theorem refuse {c : Prop} [Decidable c] {kind : ParseErrorKind} {span : Span}
    {hint : Option String} {f : Unit → Parser β}
    (hfail : Blames P size lo (Parser.fail kind span hint : Parser Unit) s fun _ _ => True)
    (hf : Blames P size lo (f ()) s R) :
    Blames P size lo (if c then Parser.fail kind span hint >>= f else f ()) s R := by
  split
  · obtain ⟨hi, hle, hs, -, hfails⟩ := hfail
    refine ⟨hi, hle, hs, fun a ha => (nomatch ha), fun e he => ?_⟩
    obtain rfl := Except.error.inj he
    exact hfails _ rfl
  · exact hf

end Blames

theorem expect_points (kind : TokenKind) :
    Points P size (expect kind) fun hi t => P t.span ∧ t.span.start ≤ hi := by
  intro lo s hs
  refine .current ?_
  split
  · exact .advance hs fun hs' => .pure hs' ⟨hs.current, hs.laid.current.2.1⟩
  · exact .unexpected hs _ _

theorem expectIdent_points : Points P size expectIdent fun _ ident => P ident.span := by
  intro lo s hs
  refine .current ?_
  split
  · exact .advance hs fun hs' => .pure hs' hs.current
  · exact .fail_current hs _ _

theorem endOfStatement_points (closer : TokenKind) :
    Points P size (endOfStatement closer) fun _ _ => True := by
  intro lo s hs
  refine .current ?_
  split
  · exact .pure hs trivial
  · exact .unexpected hs _ _

/-! ## Expressions -/

section Hulls

variable (hhull : Span.HullClosed P)
include hhull

theorem nameOrCall_points {args : Parser (List Node)}
    (hargs : Points P size args fun _ nodes => Node.AllMarked P nodes) :
    Points P size (nameOrCall args) fun _ node => node.Marked P := by
  intro lo s hs
  refine (expectIdent_points lo s hs).bind fun hi callee s₁ _ hs₁ hcallee => .current ?_
  split
  · refine .advance hs₁ fun hs₂ => (hargs _ _ hs₂).bind fun hi₃ nodes s₃ _ hs₃ hnodes => ?_
    refine (expect_points _ _ _ hs₃).bind fun hi₄ close s₄ _ hs₄ hclose => .pure hs₄ ?_
    exact ⟨hhull _ _ hcallee hclose.1, hcallee, hnodes⟩
  · exact .pure hs₁ hcallee

section Nested

variable {expr : Parser Node} (hexpr : Points P size expr fun _ node => node.Marked P)
include hexpr

omit hhull in
theorem arguments_points (count : Nat) :
    Points P size (arguments expr count) fun _ nodes => Node.AllMarked P nodes := by
  induction count with
  | zero => exact fun lo s hs => .pure hs trivial
  | succ count ih =>
      intro lo s hs
      refine .current ?_
      split
      · exact .pure hs trivial
      · refine (hexpr lo s hs).bind fun hi arg s₁ _ hs₁ harg => .current ?_
        split
        · exact .advance hs₁ fun hs₂ => (ih _ _ hs₂).bind fun hi₃ rest s₃ _ hs₃ hrest =>
            .pure hs₃ ⟨harg, hrest⟩
        · exact .pure hs₁ ⟨harg, trivial⟩

omit hhull in
theorem parenthesized_points : Points P size (parenthesized expr) fun _ node => node.Marked P := by
  intro lo s hs
  refine .advance hs fun hs₁ => (hexpr _ _ hs₁).bind fun hi inner s₂ _ hs₂ hinner => ?_
  exact (expect_points _ _ _ hs₂).bind fun hi₃ close s₃ _ hs₃ _ => .pure hs₃ hinner

theorem conditional_points (form : ConditionalForm) :
    Points P size (conditional expr form) fun _ node => node.Marked P := by
  intro lo s hs
  refine .current (.advance hs fun hs₁ => ?_)
  refine (hexpr _ _ hs₁).bind fun hi₁ test s₂ _ hs₂ htest => ?_
  refine (hexpr _ _ hs₂).bind fun hi₂ thenArm s₃ _ hs₃ hthen => .current ?_
  split
  · refine .advance hs₃ fun hs₄ => (hexpr _ _ hs₄).bind fun hi₃ elseArm s₅ _ hs₅ helse => ?_
    exact .pure hs₅ ⟨hhull _ _ hs.current helse.span, htest, hthen, helse⟩
  · exact .unexpected hs₃ _ _

theorem primary_points (count : Nat) :
    Points P size (primary expr count) fun _ node => node.Marked P := by
  intro lo s hs
  refine .current ?_
  split
  · exact .advance hs fun hs₁ => .pure hs₁ hs.current
  · -- The number was taken before the failure.
    exact .advance hs fun hs₁ => .fail hs₁ hs.current hs.laid.current.2.1 _ _
  · split
    · exact nameOrCall_points hhull (arguments_points hexpr count) lo s hs
    · exact parenthesized_points hexpr lo s hs
    · exact conditional_points hhull hexpr _ lo s hs
    · exact conditional_points hhull hexpr _ lo s hs
    · exact .fail_current hs _ _
    · exact .fail_current hs _ _

theorem operand_points (count : Nat) :
    Points P size (operand expr count) fun _ node => node.Marked P := by
  induction count with
  | zero => exact fun lo s hs => .current (.fail_current hs _ _)
  | succ count ih =>
      intro lo s hs
      refine .current ?_
      split
      · refine .advance hs fun hs₁ => .current ?_
        split
        · exact .advance hs₁ fun hs₂ => .pure hs₂ (hhull _ _ hs.current hs₁.current)
        · exact (ih _ _ hs₁).bind fun hi inner s₂ _ hs₂ hinner =>
            .pure hs₂ ⟨hhull _ _ hs.current hinner.span, hinner⟩
      · exact primary_points hhull hexpr (count + 1) lo s hs

end Nested

theorem climb_points {expr : Nat → Parser Node}
    (hexpr : ∀ level, Points P size (expr level) fun _ node => node.Marked P) (level count : Nat)
    {lhs : Node} (hlhs : lhs.Marked P) :
    Points P size (climb expr level count lhs) fun _ node => node.Marked P := by
  induction count generalizing lhs with
  | zero => exact fun lo s hs => .pure hs hlhs
  | succ count ih =>
      intro lo s hs
      refine .current ?_
      split
      · exact .pure hs hlhs
      · split
        · exact .pure hs hlhs
        · refine .advance hs fun hs₁ => (hexpr _ _ _ hs₁).bind fun hi rhs s₂ _ hs₂ hrhs =>
            ih ?_ _ _ hs₂
          exact ⟨hhull _ _ hlhs.span hrhs.span, hlhs, hrhs⟩

theorem expression_points (fuel level : Nat) :
    Points P size (expression fuel level) fun _ node => node.Marked P := by
  induction fuel generalizing level with
  | zero => exact fun lo s hs => .current (.fail_current hs _ _)
  | succ fuel ih =>
      intro lo s hs
      exact (operand_points hhull (ih 0) _ lo s hs).bind fun hi lhs s' _ hs' hlhs =>
        climb_points hhull ih level _ hlhs _ _ hs'

/-! ## Fragments -/

omit hhull in
theorem body_points {expr : Parser Node} (hexpr : Points P size expr fun _ node => node.Marked P)
    (count : Nat) : Points P size (body expr count) fun _ nodes => Node.AllMarked P nodes := by
  induction count with
  | zero => exact fun lo s hs => .pure hs trivial
  | succ count ih =>
      intro lo s hs
      refine .current ?_
      split
      · exact .pure hs trivial
      · refine .refuse (.fail_current hs _ _) ?_
        refine (hexpr lo s hs).bind fun hi node s₁ _ hs₁ hnode => ?_
        refine (endOfStatement_points _ _ _ hs₁).bind fun hi₂ _ s₂ _ hs₂ _ => .skipSeparators ?_
        exact (ih _ _ hs₂.skipSeparators).bind fun hi₃ rest s₃ _ hs₃ hrest =>
          .pure hs₃ ⟨hnode, hrest⟩

theorem functionDef_points {expr : Parser Node}
    (hexpr : Points P size expr fun _ node => node.Marked P) (count : Nat) :
    Points P size (functionDef expr count) fun _ node => node.Marked P := by
  intro lo s hs
  refine (expect_points _ _ _ hs).bind fun hi₁ start s₁ _ hs₁ hstart => ?_
  refine (expectIdent_points _ _ hs₁).bind fun hi₂ ident s₂ hle₂ hs₂ hident => ?_
  refine (expect_points _ _ _ hs₂).bind fun hi₃ _ s₃ hle₃ hs₃ _ =>
    .current (.refuse (.fail_current hs₃ _ _) ?_)
  refine (expect_points _ _ _ hs₃).bind fun hi₄ _ s₄ hle₄ hs₄ _ => ?_
  refine (expect_points _ _ _ hs₄).bind fun hi₅ _ s₅ hle₅ hs₅ _ => .skipSeparators ?_
  refine (body_points hexpr count _ _ hs₅.skipSeparators).bind
    fun hi₆ nodes s₆ hle₆ hs₆ hnodes => ?_
  refine (expect_points _ _ _ hs₆).bind fun hi₇ close s₇ hle₇ hs₇ hclose => ?_
  -- An empty body is reported at the whole definition, which starts with its first word.
  have hspan := hhull _ _ hstart.1 hclose.1
  have hle : (start.span.hull close.span).start ≤ hi₇ := by
    have hmin : (start.span.hull close.span).start ≤ start.span.start := Nat.min_le_left _ _
    have hfirst := hstart.2
    omega
  exact .refuse (.fail hs₇ hspan hle _ _) (.pure hs₇ ⟨hspan, hident, by simp, hnodes⟩)

theorem statement_points (fuel : Nat) :
    Points P size (statement fuel) fun _ node => node.Marked P := by
  intro lo s hs
  refine .current ?_
  split
  · exact functionDef_points hhull (expression_points hhull fuel 0) fuel lo s hs
  · exact expression_points hhull fuel 0 lo s hs

theorem topLevel_points (fuel : Nat) :
    Points P size (topLevel fuel) fun _ node => node.Marked P := by
  intro lo s hs
  refine (statement_points hhull fuel lo s hs).bind fun hi node s₁ _ hs₁ hnode => ?_
  exact (endOfStatement_points _ _ _ hs₁).bind fun hi₂ _ s₂ _ hs₂ _ => .pure hs₂ hnode

/-- Whatever turns are taken, all that is read and all errors have the mark. -/
theorem collect_marked (fuel turns : Nat) {s : Stream} (hs : s.Marked P size lo) :
    (∀ node ∈ (collect fuel turns s).1, node.Marked P) ∧
      ∀ e ∈ (collect fuel turns s).2, P e.span := by
  induction turns generalizing s lo with
  | zero => simp [collect]
  | succ turns ih =>
      rw [collect]
      split
      · simp
      · have hpoints := topLevel_points hhull fuel lo s hs
        rcases hr : topLevel fuel s with ⟨e | node, t⟩
        · obtain ⟨hi, -, hleft, he, -⟩ := hpoints.error hr
          obtain ⟨hnodes, herrors⟩ := ih hleft.skipStatement.skipSeparators
          exact ⟨hnodes, List.forall_mem_cons.mpr ⟨he, herrors⟩⟩
        · obtain ⟨hi, -, hleft, hnode⟩ := hpoints.ok hr
          obtain ⟨hnodes, herrors⟩ := ih hleft.skipSeparators
          exact ⟨List.forall_mem_cons.mpr ⟨hnode, hnodes⟩, herrors⟩

end Hulls

end Parser

end ScalarLang
