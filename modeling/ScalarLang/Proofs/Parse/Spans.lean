import Mathlib
import ScalarLang.Proofs.Parse.Words

/-
  Where nodes stand in their source.
  The scanner lays tokens out one after the other, and parsers take them in that order. So what a
  parser reads stands between the place where it starts and the place where the tokens that it
  leaves start. `Lays` carries this through the parsers. It follows that the span of every node
  covers those of its parts.
-/

namespace ScalarLang

namespace Span

/-- The span lies in the other one. -/
def Within (a b : Span) : Prop := b.start ≤ a.start ∧ a.stop ≤ b.stop

theorem Within.refl (a : Span) : a.Within a := ⟨Nat.le_refl _, Nat.le_refl _⟩

theorem Within.trans {a b c : Span} (h : a.Within b) (h' : b.Within c) : a.Within c :=
  ⟨h'.1.trans h.1, h.2.trans h'.2⟩

/-- The span stands between two places. -/
def Between (lo hi : Nat) (a : Span) : Prop := lo ≤ a.start ∧ a.start ≤ a.stop ∧ a.stop ≤ hi

theorem Between.mono {lo lo' hi hi' : Nat} {a : Span} (h : a.Between lo hi) (hlo : lo' ≤ lo)
    (hhi : hi ≤ hi') : a.Between lo' hi' :=
  ⟨hlo.trans h.1, h.2.1, h.2.2.trans hhi⟩

/-- The hull of two spans, one after the other. -/
theorem Between.hull {lo mid mid' hi : Nat} {a b : Span} (ha : a.Between lo mid)
    (hb : b.Between mid' hi) (hm : mid ≤ mid') : (a.hull b).Between lo hi := by
  obtain ⟨ha, ha', ha''⟩ := ha
  obtain ⟨hb, hb', hb''⟩ := hb
  show lo ≤ min a.start b.start ∧ min a.start b.start ≤ max a.stop b.stop ∧ max a.stop b.stop ≤ hi
  omega

theorem within_hull {a b c : Span} (hstart : a.start ≤ c.start) (hstop : c.stop ≤ b.stop) :
    c.Within (a.hull b) :=
  ⟨(Nat.min_le_left _ _).trans hstart, hstop.trans (Nat.le_max_right _ _)⟩

end Span

/-! ## Nesting -/

mutual

/-- The span of each part lies in that of the whole. -/
def Node.Nested : Node → Prop
  | .literal _ _ | .name _ _ => True
  | .binary span _ lhs rhs =>
    (lhs.span.Within span ∧ lhs.Nested) ∧ rhs.span.Within span ∧ rhs.Nested
  | .negate span operand => operand.span.Within span ∧ operand.Nested
  | .conditional span _ test thenArm elseArm =>
    (test.span.Within span ∧ test.Nested) ∧ (thenArm.span.Within span ∧ thenArm.Nested) ∧
      elseArm.span.Within span ∧ elseArm.Nested
  | .function span ident _ body => ident.span.Within span ∧ Node.NestedIn span body
  | .call span callee args => callee.span.Within span ∧ Node.NestedIn span args

def Node.NestedIn (span : Span) : List Node → Prop
  | [] => True
  | node :: rest => (node.span.Within span ∧ node.Nested) ∧ Node.NestedIn span rest

end

theorem Node.nestedIn_iff {span : Span} {nodes : List Node} :
    NestedIn span nodes ↔ ∀ n ∈ nodes, n.span.Within span ∧ n.Nested := by
  induction nodes with
  | nil => simp [NestedIn]
  | cons node rest ih => rw [NestedIn, List.forall_mem_cons, ih]

/-- The node stands between two places, with its parts. -/
def Node.Stands (lo hi : Nat) (n : Node) : Prop := n.span.Between lo hi ∧ n.Nested

theorem Node.Stands.mono {lo lo' hi hi' : Nat} {n : Node} (h : n.Stands lo hi) (hlo : lo' ≤ lo)
    (hhi : hi ≤ hi') : n.Stands lo' hi' :=
  ⟨h.1.mono hlo hhi, h.2⟩

/-- A part stands in the hull of what comes first and what comes last. -/
theorem Node.Stands.within_hull {lo hi : Nat} {n : Node} (h : n.Stands lo hi) {first last : Span}
    (hlo : first.start ≤ lo) (hhi : hi ≤ last.stop) :
    n.span.Within (first.hull last) ∧ n.Nested :=
  ⟨Span.within_hull (hlo.trans h.1.1) (h.1.2.2.trans hhi), h.2⟩

theorem Node.Stands.within_hull_first {lo hi : Nat} {n : Node} (h : n.Stands lo hi) {last : Span}
    (hhi : hi ≤ last.stop) : n.span.Within (n.span.hull last) ∧ n.Nested :=
  ⟨Span.within_hull (Nat.le_refl _) (h.1.2.2.trans hhi), h.2⟩

theorem Node.Stands.within_hull_last {lo hi : Nat} {n : Node} (h : n.Stands lo hi) {first : Span}
    (hlo : first.start ≤ lo) : n.span.Within (first.hull n.span) ∧ n.Nested :=
  ⟨Span.within_hull (hlo.trans h.1.1) (Nat.le_refl _), h.2⟩

/-! ## Tokens in order -/

/-- Tokens one after the other, from byte `lo` to the end of a source. -/
def Laid (size : Nat) : Nat → List Token → Prop
  | lo, [] => lo ≤ size
  | lo, t :: rest => lo ≤ t.span.start ∧ t.span.start ≤ t.span.stop ∧ Laid size t.span.stop rest

namespace Laid

variable {size lo lo' : Nat} {tokens tokens' : List Token}

theorem mono (h : Laid size lo tokens) (hlo : lo' ≤ lo) : Laid size lo' tokens := by
  cases tokens with
  | nil => exact hlo.trans h
  | cons t rest => exact ⟨hlo.trans h.1, h.2⟩

theorem le_size (h : Laid size lo tokens) : lo ≤ size := by
  induction tokens generalizing lo with
  | nil => exact h
  | cons t rest ih =>
      obtain ⟨hlo, hstop, hrest⟩ := h
      exact hlo.trans (hstop.trans (ih hrest))

theorem sublist (h : Laid size lo tokens) (hs : tokens'.Sublist tokens) :
    Laid size lo tokens' := by
  induction hs generalizing lo with
  | slnil => exact h
  | cons t _ ih =>
      obtain ⟨hlo, hstop, hrest⟩ := h
      exact ih (hrest.mono (hlo.trans hstop))
  | cons_cons t _ ih => exact ⟨h.1, h.2.1, ih h.2.2⟩

end Laid

theorem Token.scanFrom_laid (pos : Nat) (cs : List Char) :
    Laid (pos + byteLength cs) pos (scanFrom pos cs) := by
  fun_induction scanFrom pos cs with
  | case1 pos => exact Nat.le_add_right _ _
  | case2 pos c cs _ ih =>
      rw [byteLength_cons, ← Nat.add_assoc]
      exact ih.mono (Nat.le_add_right _ _)
  | case3 pos c cs _ kind more _ lexeme stop ih =>
      have hlen : byteLength cs = byteLength (cs.take more) + byteLength (cs.drop more) := by
        rw [← byteLength_append, List.take_append_drop]
      have hsize : stop + byteLength (cs.drop more) = pos + byteLength (c :: cs) := by
        simp only [stop, lexeme, byteLength_cons]
        omega
      rw [hsize] at ih
      exact ⟨Nat.le_refl _, Nat.le_add_right _ _, ih⟩

/-- The tokens that are left stand from byte `lo` on. -/
structure Stream.LaidFrom (s : Stream) (size lo : Nat) : Prop where
  size_eq : s.size = size
  tokens : Laid size lo s.tokens

namespace Stream.LaidFrom

variable {s : Stream} {size lo : Nat}

theorem skipSeparators (h : s.LaidFrom size lo) : s.skipSeparators.LaidFrom size lo :=
  ⟨h.size_eq, h.tokens.sublist (List.dropWhile_sublist _)⟩

theorem skipStatement (h : s.LaidFrom size lo) : s.skipStatement.LaidFrom size lo :=
  ⟨h.size_eq, h.tokens.sublist (List.dropWhile_sublist _)⟩

/-- The current token, which may be the end marker, and the tokens after it. -/
theorem current (h : s.LaidFrom size lo) : lo ≤ s.current.span.start ∧
    s.current.span.start ≤ s.current.span.stop ∧
    s.advance.LaidFrom size s.current.span.stop := by
  obtain ⟨rfl, ht⟩ := h
  unfold Stream.current Stream.advance
  cases htokens : s.tokens with
  | nil =>
      rw [htokens] at ht
      exact ⟨ht, Nat.le_refl _, rfl, Nat.le_refl _⟩
  | cons t rest =>
      rw [htokens] at ht
      exact ⟨ht.1, ht.2.1, rfl, ht.2.2⟩

end Stream.LaidFrom

theorem Stream.ofSource_laid (source : String) :
    (ofSource source).LaidFrom (byteLength source.toList) 0 := by
  refine ⟨rfl, Laid.sublist ?_ List.filter_sublist⟩
  have h := Token.scanFrom_laid 0 source.toList
  rwa [Nat.zero_add] at h

/-! ## Parsing -/

namespace Parser

variable {α β : Type} {size lo : Nat} {x : Parser α} {s : Stream} {Q : Nat → α → Prop}
  {R : Nat → β → Prop}

/-- The parser takes tokens up to some place; what it gives has the property there. -/
def Reads (size lo : Nat) (x : Parser α) (s : Stream) (Q : Nat → α → Prop) : Prop :=
  ∃ hi, lo ≤ hi ∧ (x s).2.LaidFrom size hi ∧ ∀ a, (x s).1 = .ok a → Q hi a

/-- So it does wherever it starts. -/
def Lays (size : Nat) (x : Parser α) (Q : Nat → Nat → α → Prop) : Prop :=
  ∀ (lo : Nat) (s : Stream), s.LaidFrom size lo → Reads size lo x s (Q lo)

namespace Reads

theorem pure {a : α} (hs : s.LaidFrom size lo) (h : Q lo a) : Reads size lo (pure a) s Q := by
  refine ⟨lo, Nat.le_refl _, hs, fun b hb => ?_⟩
  obtain rfl : a = b := Except.ok.inj hb
  exact h

theorem fail (hs : s.LaidFrom size lo) (kind : ParseErrorKind) (span : Span)
    (hint : Option String) : Reads size lo (fail kind span hint) s Q :=
  ⟨lo, Nat.le_refl _, hs, fun _ ha => nomatch ha⟩

theorem bind {f : α → Parser β} (hx : Reads size lo x s Q)
    (hf : ∀ hi a s', lo ≤ hi → s'.LaidFrom size hi → Q hi a → Reads size hi (f a) s' R) :
    Reads size lo (x >>= f) s R := by
  obtain ⟨hi, hle, hs, hgives⟩ := hx
  unfold Reads
  rw [bind_apply]
  rcases hr : x s with ⟨e | a, s'⟩
  · rw [hr] at hs
    exact ⟨hi, hle, hs, fun b hb => nomatch hb⟩
  · rw [hr] at hs hgives
    obtain ⟨hi', hle', hs', hgives'⟩ := hf hi a s' hle hs (hgives a rfl)
    exact ⟨hi', hle.trans hle', hs', hgives'⟩

theorem current {f : Token → Parser β} (h : Reads size lo (f s.current) s R) :
    Reads size lo (current >>= f) s R := h

/-- The current token is taken. -/
theorem advance {f : Unit → Parser β} (hs : s.LaidFrom size lo)
    (hf : s.advance.LaidFrom size s.current.span.stop →
      Reads size s.current.span.stop (f ()) s.advance R) :
    Reads size lo (advance >>= f) s R := by
  obtain ⟨hlo, hstop, hrest⟩ := hs.current
  obtain ⟨hi, hle, h⟩ := hf hrest
  exact ⟨hi, hlo.trans (hstop.trans hle), h⟩

theorem skipSeparators {f : Unit → Parser β} (hf : Reads size lo (f ()) s.skipSeparators R) :
    Reads size lo (skipSeparators >>= f) s R := hf

theorem unexpected (hs : s.LaidFrom size lo) (expected : Expected) (hint : Option String) :
    Reads size lo (unexpected expected hint) s Q :=
  current (fail hs _ _ _)

/-- A test before a parser that goes on. -/
theorem refuse {c : Prop} [Decidable c] {f : Unit → Parser β} (hs : s.LaidFrom size lo)
    (kind : ParseErrorKind) (span : Span) (hint : Option String)
    (hf : Reads size lo (f ()) s R) :
    Reads size lo (if c then Parser.fail kind span hint >>= f else f ()) s R := by
  split
  · exact fail hs kind span hint
  · exact hf

end Reads

theorem expect_lays (kind : TokenKind) :
    Lays size (expect kind) fun lo hi t => t.span.Between lo hi := by
  intro lo s hs
  obtain ⟨hlo, hstop, -⟩ := hs.current
  refine .current ?_
  split
  · exact .advance hs fun hs' => .pure hs' ⟨hlo, hstop, Nat.le_refl _⟩
  · exact .unexpected hs _ _

theorem expectIdent_lays : Lays size expectIdent fun lo hi ident => ident.span.Between lo hi := by
  intro lo s hs
  obtain ⟨hlo, hstop, -⟩ := hs.current
  refine .current ?_
  split
  · exact .advance hs fun hs' => .pure hs' ⟨hlo, hstop, Nat.le_refl _⟩
  · exact .fail hs _ _ _

theorem endOfStatement_lays (closer : TokenKind) :
    Lays size (endOfStatement closer) fun _ _ _ => True := by
  intro lo s hs
  refine .current ?_
  split
  · exact .pure hs trivial
  · exact .unexpected hs _ _

/-! ## Expressions -/

theorem nameOrCall_lays {args : Parser (List Node)}
    (hargs : Lays size args fun lo hi nodes => ∀ n ∈ nodes, n.Stands lo hi) :
    Lays size (nameOrCall args) Node.Stands := by
  intro lo s hs
  refine (expectIdent_lays lo s hs).bind fun hi callee s' _ hs' hcallee => .current ?_
  obtain ⟨hparen, hparen', -⟩ := hs'.current
  split
  · refine .advance hs' fun hs' => (hargs _ _ hs').bind fun hi₁ nodes s₁ hle₁ hs₁ hnodes => ?_
    refine (expect_lays _ _ _ hs₁).bind fun hi₂ close s₂ _ hs₂ hclose => .pure hs₂ ?_
    refine ⟨hcallee.hull hclose (by omega), Span.within_hull (Nat.le_refl _) ?_,
      Node.nestedIn_iff.mpr fun n hn => (hnodes n hn).within_hull ?_ ?_⟩
    all_goals
      unfold Span.Between at hcallee hclose
      omega
  · exact .pure hs' ⟨hcallee, trivial⟩

section Nested

variable {expr : Parser Node} (hexpr : Lays size expr Node.Stands)
include hexpr

theorem arguments_lays (count : Nat) :
    Lays size (arguments expr count) fun lo hi nodes => ∀ n ∈ nodes, n.Stands lo hi := by
  induction count with
  | zero => exact fun lo s hs => .pure hs (by simp)
  | succ count ih =>
      intro lo s hs
      refine .current ?_
      split
      · exact .pure hs (by simp)
      · refine (hexpr lo s hs).bind fun hi arg s₁ _ hs₁ harg => .current ?_
        obtain ⟨hcomma, hcomma', -⟩ := hs₁.current
        split
        · refine .advance hs₁ fun hs₂ => (ih _ _ hs₂).bind fun hi₃ rest s₃ hle hs₃ hrest => ?_
          refine .pure hs₃ fun n hn => ?_
          rcases List.mem_cons.mp hn with rfl | hn
          · exact harg.mono (Nat.le_refl _) (by omega)
          · exact (hrest n hn).mono (by omega) (Nat.le_refl _)
        · exact .pure hs₁ (by simpa using harg)

theorem parenthesized_lays : Lays size (parenthesized expr) Node.Stands := by
  intro lo s hs
  obtain ⟨hlo, hstop, -⟩ := hs.current
  refine .advance hs fun hs₁ => (hexpr _ _ hs₁).bind fun hi inner s₂ _ hs₂ hinner => ?_
  refine (expect_lays _ _ _ hs₂).bind fun hi₃ close s₃ hle hs₃ _ => .pure hs₃ ?_
  exact hinner.mono (by omega) hle

theorem conditional_lays (form : ConditionalForm) :
    Lays size (conditional expr form) Node.Stands := by
  intro lo s hs
  obtain ⟨hlo, hstop, -⟩ := hs.current
  have hstart : s.current.span.Between lo s.current.span.stop := ⟨hlo, hstop, Nat.le_refl _⟩
  refine .current (.advance hs fun hs₁ => ?_)
  refine (hexpr _ _ hs₁).bind fun hi₁ test s₂ hle₁ hs₂ htest => ?_
  refine (hexpr _ _ hs₂).bind fun hi₂ thenArm s₃ hle₂ hs₃ hthen => .current ?_
  obtain ⟨hword, hword', -⟩ := hs₃.current
  split
  · refine .advance hs₃ fun hs₄ => (hexpr _ _ hs₄).bind fun hi₃ elseArm s₅ _ hs₅ helse => ?_
    have hlast := helse.1
    unfold Span.Between at hlast
    exact .pure hs₅ ⟨hstart.hull helse.1 (by omega), htest.within_hull hstop (by omega),
      hthen.within_hull (by omega) (by omega), helse.within_hull_last (by omega)⟩
  · exact .unexpected hs₃ _ _

theorem primary_lays (count : Nat) : Lays size (primary expr count) Node.Stands := by
  intro lo s hs
  obtain ⟨hlo, hstop, -⟩ := hs.current
  refine .current ?_
  split
  · exact .advance hs fun hs₁ => .pure hs₁ ⟨⟨hlo, hstop, Nat.le_refl _⟩, trivial⟩
  · exact .advance hs fun hs₁ => .fail hs₁ _ _ _
  · split
    · exact nameOrCall_lays (arguments_lays hexpr count) lo s hs
    · exact parenthesized_lays hexpr lo s hs
    · exact conditional_lays hexpr _ lo s hs
    · exact conditional_lays hexpr _ lo s hs
    · exact .fail hs _ _ _
    · exact .fail hs _ _ _

theorem operand_lays (count : Nat) : Lays size (operand expr count) Node.Stands := by
  induction count with
  | zero => exact fun lo s hs => .current (.fail hs _ _ _)
  | succ count ih =>
      intro lo s hs
      obtain ⟨hlo, hstop, hs₁⟩ := hs.current
      have hminus : s.current.span.Between lo s.current.span.stop := ⟨hlo, hstop, Nat.le_refl _⟩
      refine .current ?_
      split
      · refine .advance hs fun _ => .current ?_
        split
        · -- the literal of both tokens
          obtain ⟨hnext, hnext', -⟩ := hs₁.current
          exact .advance hs₁ fun hs₂ => .pure hs₂
            ⟨hminus.hull ⟨hnext, hnext', Nat.le_refl _⟩ (Nat.le_refl _), trivial⟩
        · exact (ih _ _ hs₁).bind fun hi inner s₂ _ hs₂ hinner =>
            .pure hs₂ ⟨hminus.hull hinner.1 (Nat.le_refl _), hinner.within_hull_last hstop⟩
      · exact primary_lays hexpr (count + 1) lo s hs

end Nested

theorem climb_lays {expr : Nat → Parser Node} (hexpr : ∀ level, Lays size (expr level) Node.Stands)
    (level count : Nat) {lhs : Node} {lo mid : Nat} {s : Stream} (hs : s.LaidFrom size mid)
    (hlhs : lhs.Stands lo mid) :
    Reads size mid (climb expr level count lhs) s (Node.Stands lo) := by
  induction count generalizing lhs mid s with
  | zero => exact .pure hs hlhs
  | succ count ih =>
      refine .current ?_
      obtain ⟨hop, hop', -⟩ := hs.current
      split
      · exact .pure hs hlhs
      · split
        · exact .pure hs hlhs
        · refine .advance hs fun hs₁ => (hexpr _ _ _ hs₁).bind fun hi rhs s₂ _ hs₂ hrhs => ?_
          have hl := hlhs.1
          have hr := hrhs.1
          unfold Span.Between at hl hr
          exact ih hs₂ ⟨hlhs.1.hull hrhs.1 (by omega), hlhs.within_hull_first (by omega),
            hrhs.within_hull_last (by omega)⟩

theorem expression_lays (fuel level : Nat) : Lays size (expression fuel level) Node.Stands := by
  induction fuel generalizing level with
  | zero => exact fun lo s hs => .current (.fail hs _ _ _)
  | succ fuel ih =>
      intro lo s hs
      exact (operand_lays (ih 0) _ lo s hs).bind fun hi lhs s' _ hs' hlhs =>
        climb_lays ih level _ hs' hlhs

/-! ## Fragments -/

theorem body_lays {expr : Parser Node} (hexpr : Lays size expr Node.Stands) (count : Nat) :
    Lays size (body expr count) fun lo hi nodes => ∀ n ∈ nodes, n.Stands lo hi := by
  induction count with
  | zero => exact fun lo s hs => .pure hs (by simp)
  | succ count ih =>
      intro lo s hs
      refine .current ?_
      split
      · exact .pure hs (by simp)
      · refine .refuse hs _ _ _ ?_
        refine (hexpr lo s hs).bind fun hi node s₁ _ hs₁ hnode => ?_
        refine (endOfStatement_lays _ _ _ hs₁).bind fun hi₂ _ s₂ hle₂ hs₂ _ => .skipSeparators ?_
        refine (ih _ _ hs₂.skipSeparators).bind fun hi₃ rest s₃ hle₃ hs₃ hrest => .pure hs₃ ?_
        intro n hn
        rcases List.mem_cons.mp hn with rfl | hn
        · exact hnode.mono (Nat.le_refl _) (by omega)
        · exact (hrest n hn).mono (by omega) (Nat.le_refl _)

theorem functionDef_lays {expr : Parser Node} (hexpr : Lays size expr Node.Stands) (count : Nat) :
    Lays size (functionDef expr count) Node.Stands := by
  intro lo s hs
  refine (expect_lays _ _ _ hs).bind fun hi₁ start s₁ _ hs₁ hstart => ?_
  refine (expectIdent_lays _ _ hs₁).bind fun hi₂ ident s₂ hle₂ hs₂ hident => ?_
  refine (expect_lays _ _ _ hs₂).bind fun hi₃ _ s₃ hle₃ hs₃ _ => .current (.refuse hs₃ _ _ _ ?_)
  refine (expect_lays _ _ _ hs₃).bind fun hi₄ _ s₄ hle₄ hs₄ _ => ?_
  refine (expect_lays _ _ _ hs₄).bind fun hi₅ _ s₅ hle₅ hs₅ _ => .skipSeparators ?_
  refine (body_lays hexpr count _ _ hs₅.skipSeparators).bind fun hi₆ nodes s₆ hle₆ hs₆ hnodes => ?_
  refine (expect_lays _ _ _ hs₆).bind fun hi₇ close s₇ _ hs₇ hclose => .refuse hs₇ _ _ _ ?_
  refine .pure hs₇ ⟨hstart.hull hclose (by omega), Span.within_hull ?_ ?_,
    Node.nestedIn_iff.mpr fun n hn => (hnodes n hn).within_hull ?_ ?_⟩
  all_goals
    unfold Span.Between at hstart hident hclose
    omega

theorem statement_lays (fuel : Nat) : Lays size (statement fuel) Node.Stands := by
  intro lo s hs
  refine .current ?_
  split
  · exact functionDef_lays (expression_lays fuel 0) fuel lo s hs
  · exact expression_lays fuel 0 lo s hs

theorem topLevel_lays (fuel : Nat) : Lays size (topLevel fuel) Node.Stands := by
  intro lo s hs
  refine (statement_lays fuel lo s hs).bind fun hi node s₁ _ hs₁ hnode => ?_
  refine (endOfStatement_lays _ _ _ hs₁).bind fun hi₂ _ s₂ hle hs₂ _ => .pure hs₂ ?_
  exact hnode.mono (Nat.le_refl _) hle

/-- Whatever turns are taken, all that is read stands in the source. -/
theorem collect_stands (fuel turns : Nat) {s : Stream} (hs : s.LaidFrom size lo) :
    ∀ node ∈ (collect fuel turns s).1, node.Stands lo size := by
  induction turns generalizing s lo with
  | zero => simp [collect]
  | succ turns ih =>
      rw [collect]
      split
      · simp
      · obtain ⟨hi, hle, hleft, hgives⟩ := topLevel_lays fuel lo s hs
        rcases hr : topLevel fuel s with ⟨e | node, s'⟩
        · rw [hr] at hleft
          exact fun n hn => (ih hleft.skipStatement.skipSeparators n hn).mono hle (Nat.le_refl _)
        · rw [hr] at hleft hgives
          intro n hn
          rcases List.mem_cons.mp hn with rfl | hn
          · exact (hgives n rfl).mono (Nat.le_refl _) hleft.tokens.le_size
          · exact (ih hleft.skipSeparators n hn).mono hle (Nat.le_refl _)

end Parser

theorem Fragment.parse_stands {source : String} {f : Fragment} (h : parse source = .ok f) :
    ∀ node ∈ f.nodes, node.Stands 0 (byteLength source.toList) := by
  have hstands := Parser.collect_stands ((Stream.ofSource source).tokens.length + 1)
    (Stream.ofSource source).tokens.length (Stream.ofSource_laid source).skipSeparators
  unfold parse at h
  split at h
  · dsimp only at h
    split at h
    · rename_i nodes hcollect
      obtain rfl : ⟨nodes⟩ = f := Except.ok.inj h
      rw [hcollect] at hstands
      exact hstands
    · cases h
  · cases h

theorem Node.parse_stands {source : String} {node : Node} (h : parse source = .ok node) :
    node.Stands 0 (byteLength source.toList) := by
  have hlays := Parser.expression_lays ((Stream.ofSource source).tokens.length + 1) 0 0 _
    (Stream.ofSource_laid source)
  unfold parse at h
  split at h
  · dsimp only at h
    split at h
    · rename_i node' s' hwhole
      obtain rfl : node' = node := Except.ok.inj h
      have hlays' : Parser.Reads (byteLength source.toList) 0 (do
          let node ← Parser.expression ((Stream.ofSource source).tokens.length + 1) 0
          Parser.skipSeparators
          let _ ← Parser.expect .eof
          return node) (Stream.ofSource source) (Node.Stands 0) :=
        hlays.bind fun hi node s₁ _ hs₁ hnode => .skipSeparators <|
          (Parser.expect_lays _ _ _ hs₁.skipSeparators).bind fun hi₂ _ s₂ hle hs₂ _ =>
            .pure hs₂ (hnode.mono (Nat.le_refl _) hle)
      obtain ⟨hi, -, hleft, hgives⟩ := hlays'
      exact (hgives node' (congrArg Prod.fst hwhole)).mono (Nat.le_refl _) hleft.tokens.le_size
    · cases h
  · cases h

/-- The node is a statement that was read from a source: an expression, a statement of a fragment
    or one of the body of a definition there. -/
inductive Node.ReadFrom (source : String) (node : Node) : Prop where
  | expression : Node.parse source = .ok node → ReadFrom source node
  | statement {f : Fragment} : Fragment.parse source = .ok f → node ∈ f.nodes →
      ReadFrom source node
  | body {f : Fragment} {d : Definition} : Fragment.parse source = .ok f → d ∈ f.definitions →
      node ∈ d.body → ReadFrom source node

theorem Node.ReadFrom.nested {source : String} {node : Node} (h : node.ReadFrom source) :
    node.span.Within ⟨0, byteLength source.toList⟩ ∧ node.Nested := by
  have hwithin {n : Node} (h : n.Stands 0 (byteLength source.toList)) :
      n.span.Within ⟨0, byteLength source.toList⟩ ∧ n.Nested :=
    ⟨⟨h.1.1, h.1.2.2⟩, h.2⟩
  cases h with
  | expression h => exact hwithin (Node.parse_stands h)
  | statement h hmem => exact hwithin (Fragment.parse_stands h node hmem)
  | body h hd hmem =>
      obtain ⟨n, hn, hdef⟩ := List.mem_filterMap.mp hd
      obtain ⟨hspan, hnested⟩ := hwithin (Fragment.parse_stands h n hn)
      cases n <;> cases hdef
      obtain ⟨hbody, hnode⟩ := Node.nestedIn_iff.mp hnested.2 node hmem
      exact ⟨hbody.trans hspan, hnode⟩

end ScalarLang
