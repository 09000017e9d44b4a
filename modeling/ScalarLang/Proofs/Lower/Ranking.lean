import Mathlib
import ScalarLang.Proofs.Lower.Edges
import ScalarLang.Proofs.Lower.Function

/-
  Control only moves forward.
  The numbers of blocks do not follow control: the last block of a routine is made before those of
  its conditionals. The certificate is a rank for each block that grows along every edge. Ranks are
  rational, so that the blocks of an expression can be given ranks between that of the block it
  starts in and any higher one, such as that of the join it leads to; the ranks of older blocks
  stay as they are.
-/

namespace ScalarLang

namespace Ir

/-- Every edge leads to a block that exists and has a higher rank. -/
def Function.Ranked (f : Function) (rank : Nat → ℚ) : Prop :=
  ∀ b c : Nat, f.Edge b c → c < f.blocks.length ∧ rank b < rank c

namespace Function.Ranked

variable {f g : Function} {rank : Nat → ℚ}

theorem lt_of_transGen (h : f.Ranked rank) {b c : BlockId} (hbc : Relation.TransGen f.Edge b c) :
    rank b < rank c := by
  induction hbc with
  | single he => exact (h _ _ he).2
  | tail _ he ih => exact ih.trans (h _ _ he).2

theorem acyclic (h : f.Ranked rank) (b : BlockId) : ¬ Relation.TransGen f.Edge b b :=
  fun hb => lt_irrefl _ (h.lt_of_transGen hb)

theorem mono (h : f.Ranked rank) (hlen : f.blocks.length ≤ g.blocks.length)
    (hedge : ∀ b c, g.Edge b c → f.Edge b c) : g.Ranked rank := by
  intro b c he
  obtain ⟨hc, hlt⟩ := h b c (hedge b c he)
  exact ⟨Nat.lt_of_lt_of_le hc hlen, hlt⟩

/-- Along an edge fewer blocks are left that are ranked higher. -/
theorem exists_height (h : f.Ranked rank) :
    ∃ height : Nat → Nat, ∀ b c, f.Edge b c → height c < height b := by
  refine ⟨fun b => ((Finset.range f.blocks.length).filter (rank b < rank ·)).card, ?_⟩
  intro b c he
  obtain ⟨hc, hlt⟩ := h b c he
  refine Finset.card_lt_card (Finset.ssubset_iff_of_subset ?_ |>.mpr ⟨c, ?_, ?_⟩)
  · intro d hd
    rw [Finset.mem_filter] at hd ⊢
    exact ⟨hd.1, hlt.trans hd.2⟩
  · exact Finset.mem_filter.mpr ⟨Finset.mem_range.mpr hc, hlt⟩
  · simp

end Function.Ranked

/-! ## Ranks of new blocks -/

variable {B B' B'' T P D A C : Builder} {b b' b'' : Nat}

/-- `rank'` is right for `B'`, agrees with `rank` on the blocks of `B` and has the blocks made since
    between two bounds. -/
structure Interleaves (B : Builder) (rank : Nat → ℚ) (lo hi : ℚ) (B' : Builder)
    (rank' : Nat → ℚ) : Prop where
  ranked : B'.function.Ranked rank'
  agree : ∀ c, c < B.function.blocks.length → rank' c = rank c
  between : ∀ c, B.function.blocks.length ≤ c → c < B'.function.blocks.length →
    lo < rank' c ∧ rank' c < hi

namespace Interleaves

variable {rank rank' rank'' : Nat → ℚ} {lo hi : ℚ}

theorem trans (h : Interleaves B rank lo hi B' rank') (h' : Interleaves B' rank' lo hi B'' rank'')
    (hlen : B.function.blocks.length ≤ B'.function.blocks.length) :
    Interleaves B rank lo hi B'' rank'' where
  ranked := h'.ranked
  agree := fun c hc => (h'.agree c (by omega)).trans (h.agree c hc)
  between := by
    intro c hc hc'
    by_cases hold : c < B'.function.blocks.length
    · rw [h'.agree c hold]
      exact h.between c hc hold
    · exact h'.between c (by omega) hc'

theorem mono {lo' hi' : ℚ} (h : Interleaves B rank lo hi B' rank') (hlo : lo' ≤ lo)
    (hhi : hi ≤ hi') : Interleaves B rank lo' hi' B' rank' where
  ranked := h.ranked
  agree := h.agree
  between := fun c hc hc' =>
    ⟨hlo.trans_lt (h.between c hc hc').1, (h.between c hc hc').2.trans_le hhi⟩

/-- Edges between blocks that are there. -/
theorem linked (h : Interleaves B rank lo hi B' rank') (hr : B''.function.Ranked rank')
    (hlen : B''.function.blocks.length = B'.function.blocks.length) :
    Interleaves B rank lo hi B'' rank' :=
  ⟨hr, h.agree, fun c hc hc' => h.between c hc (hlen ▸ hc')⟩

theorem inline (h : Inline B b B') (hu : Unfinished (B.function.block b))
    (hr : B.function.Ranked rank) : Interleaves B rank lo hi B' rank where
  ranked := hr.mono h.length.symm.le fun _ _ => h.edge hu
  agree := fun _ _ => rfl
  between := by
    intro c hc hc'
    rw [h.length] at hc'
    omega

/-- A region ends below the bound. -/
theorem exit_lt (h : Interleaves B rank (rank b) hi B' rank') (r : Region B b B' b')
    (hb : b < B.function.blocks.length) (hhi : rank b < hi) :
    rank b ≤ rank' b' ∧ rank' b' < hi := by
  rcases r.exit with rfl | hnew
  · rw [h.agree b' hb]
    exact ⟨le_refl _, hhi⟩
  · exact ⟨(h.between b' hnew r.bound).1.le, (h.between b' hnew r.bound).2⟩

end Interleaves

/-- The blocks made between `B` and `B'` can be ranked above block `b` and below any bound that is
    higher, whatever ranks the blocks of `B` have. -/
def Rises (B : Builder) (b : Nat) (B' : Builder) : Prop :=
  ∀ rank hi, B.function.Ranked rank → rank b < hi →
    ∃ rank', Interleaves B rank (rank b) hi B' rank'

theorem Rises.of_inline (h : Inline B b B') (hu : Unfinished (B.function.block b)) :
    Rises B b B' := fun rank _ hr _ => ⟨rank, .inline h hu hr⟩

theorem Rises.trans (h : Rises B b B') (h' : Rises B' b' B'') (r : Region B b B' b')
    (hb : b < B.function.blocks.length) : Rises B b B'' := by
  intro rank hi hr hhi
  obtain ⟨rank', i⟩ := h rank hi hr hhi
  obtain ⟨hlo, hhi'⟩ := i.exit_lt r hb hhi
  obtain ⟨rank'', i'⟩ := h' rank' hi i.ranked hhi'
  exact ⟨rank'', i.trans (i'.mono hlo (le_refl _)) r.grown.length⟩

/-- Ranks with those of the four blocks of a conditional, in the order in which control gets to
    them: the test, the arms and the join. -/
def Builder.openedRank (B : Builder) (rank : Nat → ℚ) (test arms join : ℚ) (c : Nat) : ℚ :=
  if c < B.function.blocks.length then rank c
  else if c = B.function.blocks.length then test
  else if c = B.function.blocks.length + 3 then join else arms

theorem Builder.opened_interleaves (hc : B.cursor = .atEnd b) (hb : b < B.function.blocks.length)
    {rank : Nat → ℚ} {hi test arms join : ℚ} (hr : B.function.Ranked rank)
    (htest : rank b < test) (harms : test < arms) (hjoin : arms < join) (hhi : join < hi) :
    Interleaves B rank (rank b) hi B.opened (B.openedRank rank test arms join) where
  ranked := by
    intro c t he
    rw [Builder.opened_length]
    rcases Builder.opened_edge hc hb he with he | ⟨hcb, rfl⟩
    · obtain ⟨ht, hlt⟩ := hr c t he
      obtain ⟨s, hs, -⟩ := he
      refine ⟨Nat.lt_add_right 4 ht, ?_⟩
      rwa [openedRank, openedRank, if_pos (Function.block_mem hs), if_pos ht]
    · refine ⟨Nat.lt_add_of_pos_right (by decide), ?_⟩
      rw [hcb, openedRank, openedRank, if_pos hb, if_neg (Nat.lt_irrefl _), if_pos rfl]
      exact htest
  agree := fun c hc => if_pos hc
  between := by
    intro c hc _
    rw [openedRank, if_neg (Nat.not_lt.mpr hc)]
    split
    · exact ⟨htest, by linarith⟩
    · split
      · exact ⟨by linarith, hhi⟩
      · exact ⟨by linarith, by linarith⟩

namespace Layout

variable {parked : Option SlotId} {condition u w : ValueId} {testEnd thenEnd elseEnd : Nat}
  {rank : Nat → ℚ} {hi : ℚ}
  (L : Layout B b T P D A C parked condition u w testEnd thenEnd elseEnd)
include L

/-- The branch leads to the arms. -/
theorem branched_ranked (hr : T.function.Ranked rank)
    (hthen : rank testEnd < rank (B.function.blocks.length + 1))
    (helse : rank testEnd < rank (B.function.blocks.length + 2)) :
    (D.branched condition B.function.blocks.length).function.Ranked rank := by
  have hu := L.unfinished_ends.1
  have hD : D.function.Ranked rank :=
    hr.mono (L.park.trans L.decided).length.symm.le fun _ _ => (L.park.trans L.decided).edge hu
  have hlen := L.lengths
  intro c t he
  rcases Builder.emitted_edge L.decided.cursor L.ends.2.1 he with he | ⟨rfl, ht⟩
  · simpa [Builder.branched] using hD c t he
  · simp only [Builder.branched, Builder.enter_function, Builder.emitted_length]
    simp only [Inst.targets, List.mem_cons, List.not_mem_nil, or_false] at ht
    rcases ht with rfl | rfl
    · exact ⟨by omega, hthen⟩
    · exact ⟨by omega, helse⟩

theorem left_ranked (hr : A.function.Ranked rank)
    (hthen : rank thenEnd < rank (B.function.blocks.length + 3)) :
    (A.left parked u (B.function.blocks.length + 3)).function.Ranked rank := by
  have hlen := L.lengths
  intro c t he
  rw [Builder.left_length L.thenArm.cursor L.thenArm.bound]
  rcases Builder.left_edge L.thenArm.cursor L.thenArm.bound L.unfinished_ends.2.1 he with
    he | ⟨rfl, rfl⟩
  · exact hr c t he
  · exact ⟨by omega, hthen⟩

theorem joined_ranked (hr : C.function.Ranked rank)
    (helse : rank elseEnd < rank (B.function.blocks.length + 3)) (size : Nat) (ty : MachineType) :
    (((A.joined C parked size u w (B.function.blocks.length + 3)).2.enter
      (B.function.blocks.length + 3)).emitted
      (.load ty (A.joined C parked size u w (B.function.blocks.length + 3)).1)
      [ty]).function.Ranked rank := by
  have hlen := L.lengths
  have hjoin : B.function.blocks.length + 3 <
      (A.joined C parked size u w (B.function.blocks.length + 3)).2.function.blocks.length := by
    rw [L.joined_length]
    omega
  intro c t he
  rw [Builder.emitted_length, Builder.enter_function, L.joined_length]
  have hload := Builder.emitted_edge (B := (A.joined C parked size u w
    (B.function.blocks.length + 3)).2.enter (B.function.blocks.length + 3)) rfl hjoin he
  rcases hload with he | ⟨-, ht⟩
  · rcases Builder.left_edge L.elseArm.cursor L.elseArm.bound L.unfinished_ends.2.2
      (L.joined_edge he) with he | ⟨rfl, rfl⟩
    · exact hr c t he
    · exact ⟨by omega, helse⟩
  · cases ht

/-- A conditional can be ranked if its parts can: the test between its own block and the arms, the
    arms between theirs and the join. -/
theorem rises (htest : Rises B.opened B.function.blocks.length T)
    (hthen : Rises (D.branched condition B.function.blocks.length) (B.function.blocks.length + 1) A)
    (helse : Rises ((A.left parked u (B.function.blocks.length + 3)).enter
      (B.function.blocks.length + 2)) (B.function.blocks.length + 2) C) (size : Nat)
    (ty : MachineType) :
    Rises B b (((A.joined C parked size u w (B.function.blocks.length + 3)).2.enter
      (B.function.blocks.length + 3)).emitted
      (.load ty (A.joined C parked size u w (B.function.blocks.length + 3)).1) [ty]) := by
  intro rank hi hr hhi
  obtain ⟨m₁, hm₁, hhi⟩ := exists_between hhi
  obtain ⟨m₂, hm₂, hhi⟩ := exists_between hhi
  obtain ⟨m₃, hm₃, hhi⟩ := exists_between hhi
  have i₀ := Builder.opened_interleaves L.cursor L.bound hr hm₁ hm₂ hm₃ hhi
  have hlen := L.lengths
  have hO := B.opened_length
  have hX : (D.branched condition B.function.blocks.length).function.blocks.length =
      D.function.blocks.length := by simp [Builder.branched]
  have hE := Builder.left_length L.thenArm.cursor L.thenArm.bound parked u
    (B.function.blocks.length + 3)
  have hJ := L.joined_length size
  set N := B.function.blocks.length with hN
  have h₀ (k : Nat) : B.openedRank rank m₁ m₂ m₃ (N + k) =
      if k = 0 then m₁ else if k = 3 then m₃ else m₂ := by
    simp [Builder.openedRank, ← hN]
  -- the test lies between `m₁` and `m₂`
  have hlt₁ : B.openedRank rank m₁ m₂ m₃ N < m₂ := (h₀ 0).trans_lt hm₂
  obtain ⟨rank₁, i₁⟩ := htest _ m₂ i₀.ranked hlt₁
  have h₁ (k : Nat) (hk : k < 4) : rank₁ (N + k) =
      if k = 0 then m₁ else if k = 3 then m₃ else m₂ :=
    (i₁.agree _ (by omega)).trans (h₀ k)
  have hT := (i₁.exit_lt L.test (by omega) hlt₁).2
  have hranked₁ := L.branched_ranked i₁.ranked (hT.trans_eq (h₁ 1 (by decide)).symm)
    (hT.trans_eq (h₁ 2 (by decide)).symm)
  -- the arms lie between `m₂` and `m₃`
  have hlt₂ : rank₁ (N + 1) < m₃ := (h₁ 1 (by decide)).trans_lt hm₃
  obtain ⟨rank₂, i₂⟩ := hthen rank₁ m₃ hranked₁ hlt₂
  have h₂ (k : Nat) (hk : k < 4) : rank₂ (N + k) = _ :=
    (i₂.agree _ (by omega)).trans (h₁ k hk)
  have hA := (i₂.exit_lt L.thenArm (by omega) hlt₂).2
  have hranked₂ := L.left_ranked i₂.ranked (hA.trans_eq (h₂ 3 (by decide)).symm)
  have hlt₃ : rank₂ (N + 2) < m₃ := (h₂ 2 (by decide)).trans_lt hm₃
  obtain ⟨rank₃, i₃⟩ := helse rank₂ m₃ hranked₂ hlt₃
  have h₃ : rank₃ (N + 3) = _ :=
    (i₃.agree _ (by rw [Builder.enter_function]; omega)).trans (h₂ 3 (by decide))
  have hC := (i₃.exit_lt L.elseArm (by rw [Builder.enter_function]; omega) hlt₃).2
  have hranked₃ := L.joined_ranked i₃.ranked (hC.trans_eq h₃.symm) size ty
  -- all of it lies between the block the conditional starts in and the bound
  have hm₂' : rank b ≤ m₂ := by linarith
  have hhi₂ : m₂ ≤ hi := by linarith
  have j₁ : Interleaves B.opened _ (rank b) hi (D.branched condition N) rank₁ :=
    (i₁.mono (hm₁.le.trans_eq (h₀ 0).symm) hhi₂).linked hranked₁ (by omega)
  have j₂ : Interleaves (D.branched condition N) rank₁ (rank b) hi
      ((A.left parked u (N + 3)).enter (N + 2)) rank₂ :=
    (i₂.mono (hm₂'.trans_eq (h₁ 1 (by decide)).symm) hhi.le).linked hranked₂ hE
  have j₃ := (i₃.mono (hm₂'.trans_eq (h₂ 2 (by decide)).symm) hhi.le).linked hranked₃
    (by rw [Builder.emitted_length, Builder.enter_function, hJ])
  refine ⟨rank₃, i₀.trans (j₁.trans (j₂.trans j₃ ?_) ?_) ?_⟩
  · rw [Builder.enter_function]
    omega
  · omega
  · omega

end Layout

end Ir

/-! ## Lowering -/

namespace Lower

open Ir (Builder Region Inline Layout Unfinished Rises)

variable {α β : Type} {B B' : Builder} {b : Nat}

/-- What the step makes at the end of an open block can be ranked above that block. -/
def Rankable (x : Lower α) : Prop :=
  ∀ (B : Builder) (a : α) (B' : Builder) (b : Nat), Builds x B a B' → B.cursor = .atEnd b →
    b < B.function.blocks.length → B.Numbered → Unfinished (B.function.block b) → Rises B b B'

namespace Rankable

theorem of_inline {x : Lower α} (h : ∀ {B a B' b}, Builds x B a B' → B.cursor = .atEnd b →
    b < B.function.blocks.length → Inline B b B') : Rankable x :=
  fun _ _ _ _ hx hc hb _ hu => .of_inline (h hx hc hb) hu

theorem of_not_builds {x : Lower α} (h : ∀ {B a B'}, ¬ Builds x B a B') : Rankable x :=
  fun _ _ _ _ hx => absurd hx h

theorem bind {x : Lower α} {f : α → Lower β} (r : Regional x) (hx : Rankable x)
    (hf : ∀ a, Rankable (f a)) : Rankable (x >>= f) := by
  intro B v B'' b h hc hb hn hu
  obtain ⟨a, B', h₁, h₂⟩ := h.bind
  obtain ⟨b', r₁⟩ := r B a B' b h₁ hc hb hn
  exact (hx B a B' b h₁ hc hb hn hu).trans (hf a B' v B'' b' h₂ r₁.cursor r₁.bound
    (r₁.grown.numbered hn) (r₁.unfinished hu)) r₁ hb

theorem conditional {form : ConditionalForm} {testSpan thenSpan : Span}
    {test thenArm elseArm : Lower TypedValue} (ht : Rankable test) (ha : Rankable thenArm)
    (he : Rankable elseArm) (rt : Regional test) (ra : Regional thenArm) (re : Regional elseArm) :
    Rankable (Lower.conditional form testSpan thenSpan test thenArm elseArm) := by
  intro B tv B' b h hc hb hn hu
  obtain ⟨t, T, parked, P, condition, D, u, A, w, C, testEnd, thenEnd, elseEnd, L, h₁, -, -, h₄,
    h₅, -, -, rfl⟩ := h.layout rt ra re hc hb hn
  have hlen := L.lengths
  refine L.rises (ht _ _ _ _ h₁ rfl (by simp) L.opened_numbered ?_)
    (ha _ _ _ _ h₄ rfl ?_ L.branched_numbered ?_) (he _ _ _ _ h₅ rfl ?_ ?_ ?_) _ _
  · rw [L.block_opened (Nat.le_refl _)]
    exact Ir.unfinished_nil
  · simp only [Builder.branched, Builder.enter_function, Builder.emitted_length]
    omega
  · rw [L.block_thenStart]
    exact Ir.unfinished_nil
  · rw [Builder.enter_function, Builder.left_length L.thenArm.cursor L.thenArm.bound]
    omega
  · exact fun c s hs => L.left_numbered c s hs
  · rw [Builder.enter_function, L.block_elseStart]
    exact Ir.unfinished_nil

theorem call {p : Program} {span : Span} {callee : Ident} {count : Nat}
    {args : Lower (List Ir.ValueId)} (r : Regional args) (h : Rankable args) :
    Rankable (Lower.call p span callee count args) := by
  intro B tv B' b hx hc hb hn hu
  obtain ⟨index, routine, values, B₁, i, -, -, -, h₁, -, -, rfl⟩ := hx.call
  obtain ⟨b', r₁⟩ := r B values B₁ b h₁ hc hb hn
  have hi := Inline.imported r₁.cursor index routine.signature
  have hcall := hi.trans (.emitted hi.cursor (hi.length ▸ r₁.bound)
    (.call (B₁.imported index routine.signature).1 values) rfl i.signature.results)
  exact (h B values B₁ b h₁ hc hb hn hu).trans (.of_inline hcall (r₁.unfinished hu)) r₁ hb

end Rankable

mutual

theorem expression_rankable (p : Program) : ∀ node : Node, Rankable (expression p node)
  | .literal _ l => by
      rw [expression]
      exact .of_inline literal_inline
  | .name _ _ => by
      rw [expression]
      exact .of_not_builds not_builds_bareName
  | .binary _ _ lhs rhs => by
      rw [expression]
      exact .bind (expression_regional p lhs) (expression_rankable p lhs) fun _ =>
        .bind (expression_regional p rhs) (expression_rankable p rhs) fun _ =>
          .of_inline binary_inline
  | .negate _ operand => by
      rw [expression]
      exact .bind (expression_regional p operand) (expression_rankable p operand) fun _ =>
        .of_inline unary_inline
  | .conditional _ _ test thenArm elseArm => by
      rw [expression]
      exact .conditional (expression_rankable p test) (expression_rankable p thenArm)
        (expression_rankable p elseArm) (expression_regional p test)
        (expression_regional p thenArm) (expression_regional p elseArm)
  | .function _ _ _ _ => by
      rw [expression]
      exact .of_not_builds not_builds_fail
  | .call _ _ args => by
      rw [expression]
      exact .call (arguments_regional p args) (arguments_rankable p args)

theorem arguments_rankable (p : Program) : ∀ nodes : List Node, Rankable (arguments p nodes)
  | [] => by
      rw [arguments]
      exact .of_inline fun h hc _ => by
        obtain ⟨-, rfl⟩ := h.pure
        exact .refl hc
  | node :: rest => by
      rw [arguments]
      refine .bind (expression_regional p node) (expression_rankable p node) fun _ =>
        .bind (arguments_regional p rest) (arguments_rankable p rest) fun _ =>
          .of_inline fun h hc _ => ?_
      obtain ⟨-, rfl⟩ := h.pure
      exact .refl hc

end

theorem statements_rankable (p : Program) : ∀ nodes : List Node, Rankable (statements p nodes)
  | [] => .of_inline fun h hc hb => by
      obtain ⟨v, B₁, h₁, h⟩ := Builds.bind h
      obtain ⟨-, rfl⟩ := h.pure
      obtain ⟨-, rfl⟩ := h₁.build
      exact (Ir.Build.Straight.iconst .i64 0).inline _ _ hc hb
  | [node] => expression_rankable p node
  | node :: next :: rest =>
      .bind (expression_regional p node) (expression_rankable p node) fun _ =>
        statements_rankable p (next :: rest)

end Lower

/-! ## Routines -/

open Ir (Builder)

/-- The blocks of a routine can be ranked: block 0 leads to the body, the body to block 2. -/
theorem Routine.lower_ranked {p : Program} {types : TypeTable} {name : String} {anonymous : Bool}
    {nodes : List Node} {r : Routine}
    (h : (Routine.lower p types name anonymous nodes).1 = .ok r) :
    ∃ rank, r.code.Ranked rank := by
  obtain ⟨tv, E, hbody, rfl⟩ := Routine.lower_ok h
  obtain ⟨e, hE⟩ := statements_region hbody
  have hbounds := bodyEnd_bounds hE
  have hprepared : (Builder.prepared name).function.Ranked (fun c => c) := by
    rintro b c ⟨s, hs, -⟩
    rw [prepared_block] at hs
    cases hs
  obtain ⟨rank, i⟩ := Lower.statements_rankable p nodes _ _ _ 1 hbody rfl (by simp)
    (prepared_numbered name) (by rw [prepared_block]; exact Ir.unfinished_nil) (fun c => c) 2
    hprepared (by norm_num)
  have hend := i.exit_lt hE (by simp) (by norm_num)
  have hrank {c : Nat} (hc : c < 3) : rank c = c := i.agree c hc
  refine ⟨rank, ?_⟩
  rintro b c ⟨s, hs, hc⟩
  rw [finished_block hE] at hs
  rw [Builder.finished_length]
  split at hs
  · rename_i hb
    rw [List.mem_singleton.mp hs] at hc
    obtain rfl : c = 1 := List.mem_singleton.mp hc
    rw [hb, hrank (by decide), hrank (by decide)]
    exact ⟨by omega, by norm_num⟩
  · split at hs
    · rename_i hb
      subst hb
      rcases List.mem_append.mp hs with hs | hs
      · exact i.ranked b c ⟨s, hs, hc⟩
      · simp only [List.mem_cons, List.not_mem_nil, or_false] at hs
        rcases hs with rfl | rfl
        · cases hc
        · obtain rfl : c = 2 := List.mem_singleton.mp hc
          exact ⟨by omega, hend.2.trans_eq (hrank (by decide)).symm⟩
    · split at hs
      · simp only [List.mem_cons, List.not_mem_nil, or_false] at hs
        rcases hs with rfl | rfl <;> cases hc
      · exact i.ranked b c ⟨s, hs, hc⟩

end ScalarLang
