import Mathlib
import ScalarLang.Proofs.Ir.Representation
import ScalarLang.Proofs.Lower.Simulation
import ScalarLang.Proofs.Lower.SlotOrder
import ScalarLang.Proofs.Lower.Tables
import ScalarLang.Proofs.Parse.Literals

/-
  The types that lowering gives to values.
  Lowering gives each part of a tree a value with a type: `Arises` has these values, and the truth
  of each test. The code of a routine makes all of them in the ways that keep to their types. What
  is loaded where arms meet was stored by one of them, since nothing but the arms leads there; this
  is known of the whole function, because code that is made for an expression leads to blocks of its
  own only.
-/

namespace ScalarLang

open Ir (Builder Function Region Inline Silent Contained Covers Layout At)

/-! ## Code in a function -/

namespace Ir

/-- Nothing comes after what ends a block. -/
theorem Function.WellFormed.block_eq {f : Function} (h : f.WellFormed) {c : BlockId} {X : Block}
    {last : Stmt} (hlast : last.inst.isTerminator = true) (hp : X ++ [last] <+: f.block c) :
    f.block c = X ++ [last] := by
  have hmem : last ∈ f.block c := hp.subset (by simp)
  obtain ⟨body, last', hblock, hopen, -⟩ := h.terminated c (Function.block_mem hmem)
  obtain ⟨more, hmore⟩ := hp
  cases more using List.reverseRecOn with
  | nil => rw [← hmore, List.append_nil]
  | append_singleton more s =>
      rw [hblock, ← List.append_assoc] at hmore
      have hbody := List.append_inj_left' hmore rfl
      have hin : last ∈ body := hbody ▸ by simp
      rw [hopen last hin] at hlast
      cases hlast

/-- The function has the code between `B` and `B'`, and only that code leads to the blocks that were
    made there. -/
structure Encloses (f : Function) (B : Builder) (b : Nat) (B' : Builder) : Prop extends
    Covers f B b B' where
  mem : ∀ c : Nat, ∀ s ∈ B'.function.block c, s ∈ f.block c
  edges : ∀ d c : Nat, B.function.blocks.length ≤ c → c < B'.function.blocks.length →
    f.Edge d c → B'.function.Edge d c

namespace Encloses

variable {f : Function} {B B' B'' : Builder} {b b' b'' : Nat}

theorem first (h : Encloses f B b B'') (r : Region B' b' B'' b'') (hc : Contained B' B'') :
    Encloses f B b B' where
  toCovers := h.toCovers.first r
  mem := fun c s hs => h.mem c s (r.grown.mem c s hs)
  edges := by
    intro d c hlo hhi he
    rcases hc.edges d c (h.edges d c hlo (hhi.trans_le hc.length) he) with he | hge
    · exact he
    · omega

theorem second (h : Encloses f B b B'') (r : Region B b B' b') : Encloses f B' b' B'' where
  toCovers := h.toCovers.second r
  mem := h.mem
  edges := fun d c hlo => h.edges d c (r.grown.length.trans hlo)

theorem getElem?_imports (h : Encloses f B b B') {callee : ImportId} {i : Import}
    (hi : B'.function.imports[callee]? = some i) : f.imports[callee]? = some i :=
  Function.getElem?_of_isPrefix h.imports hi

end Encloses

namespace Layout

variable {B T P D A C : Builder} {parked : Option SlotId} {condition u w : ValueId}
  {b d c testEnd thenEnd elseEnd size : Nat} {f : Function}
  (L : Layout B b T P D A C parked condition u w testEnd thenEnd elseEnd)
include L

/-- The code of a conditional, without the load at its end. -/
theorem encloses_joined {ty : MachineType} {slot : SlotId}
    (hf : Encloses f B b (((A.joined C parked size u w (B.function.blocks.length + 3)).2.enter
      (B.function.blocks.length + 3)).emitted (.load ty slot) [ty])) :
    Encloses f B b (A.joined C parked size u w (B.function.blocks.length + 3)).2 := by
  have hlen := L.lengths
  have hbound : B.function.blocks.length + 3 < ((A.joined C parked size u w
      (B.function.blocks.length + 3)).2.enter
      (B.function.blocks.length + 3)).function.blocks.length := by
    rw [Builder.enter_function, L.joined_length]
    omega
  have hload := Inline.emitted rfl hbound (.load ty slot) rfl [ty]
  refine ⟨hf.toCovers.init ((Builder.Extends.enter _ _).trans hload.grown.toExtends)
    hload.grown.block_isPrefix, fun c s hs => hf.mem c s (hload.grown.mem c s hs),
    fun d c hlo hhi he => ?_⟩
  have he := hf.edges d c hlo (hload.length.symm ▸ hhi) he
  rcases Builder.emitted_edge rfl hbound he with he | ⟨-, htarget⟩
  · exact he
  · cases htarget

variable (hA : Contained (D.branched condition B.function.blocks.length) A)
  (hC : Contained ((A.left parked u (B.function.blocks.length + 3)).enter
    (B.function.blocks.length + 2)) C)
include hA hC

/-- Edges to the blocks that the parts of a conditional made are theirs. -/
theorem inner_edge (hc : B.function.blocks.length + 4 ≤ c)
    (he : (A.joined C parked size u w (B.function.blocks.length + 3)).2.function.Edge d c) :
    C.function.Edge d c ∧ (c < A.function.blocks.length → A.function.Edge d c) ∧
      (c < D.function.blocks.length → T.function.Edge d c) := by
  have hlen := L.lengths
  have hE := Builder.left_length L.thenArm.cursor L.thenArm.bound parked u
    (B.function.blocks.length + 3)
  have hX : (D.branched condition B.function.blocks.length).function.blocks.length =
      D.function.blocks.length := by simp [Builder.branched]
  obtain ⟨huT, huA, huC⟩ := L.unfinished_ends
  have helse : C.function.Edge d c :=
    (Builder.left_edge L.elseArm.cursor L.elseArm.bound huC (L.joined_edge he)).resolve_right
      fun hjoin => by omega
  have hthen (hlt : c < A.function.blocks.length) : A.function.Edge d c := by
    have hleft := (hC.edges d c helse).resolve_right fun hge => by
      rw [Builder.enter_function, hE] at hge
      omega
    exact (Builder.left_edge L.thenArm.cursor L.thenArm.bound huA hleft).resolve_right
      fun hjoin => by omega
  refine ⟨helse, hthen, fun hlt => ?_⟩
  have hbranched := (hA.edges d c (hthen (by omega))).resolve_right fun hge => by omega
  rcases Builder.emitted_edge L.decided.cursor L.ends.2.1 hbranched with he | ⟨-, htarget⟩
  · exact (L.park.trans L.decided).edge huT he
  · simp only [Inst.targets, List.mem_cons, List.not_mem_nil, or_false] at htarget
    omega

variable (hf : Encloses f B b (A.joined C parked size u w (B.function.blocks.length + 3)).2)
include hf

theorem enclosed_edge (hlo : B.function.blocks.length + 4 ≤ c) (hhi : c < C.function.blocks.length)
    (he : f.Edge d c) : C.function.Edge d c ∧
      (c < A.function.blocks.length → A.function.Edge d c) ∧
      (c < D.function.blocks.length → T.function.Edge d c) :=
  L.inner_edge hA hC hlo (hf.edges d c (by omega) (by rwa [L.joined_length]) he)

theorem encloses_test : Encloses f B.opened B.function.blocks.length T where
  toCovers := L.covers_test size hf.toCovers
  mem := fun c s hs => hf.mem c s ((L.test_extends size).mem c s hs)
  edges := by
    intro d c hlo hhi he
    have hlen := L.lengths
    rw [Builder.opened_length] at hlo
    exact (L.enclosed_edge hA hC hf hlo (by omega) he).2.2 (by omega)

theorem encloses_thenArm : Encloses f (D.branched condition B.function.blocks.length)
    (B.function.blocks.length + 1) A where
  toCovers := L.covers_thenArm size hf.toCovers
  mem := fun c s hs => hf.mem c s ((L.thenArm_extends size).mem c s hs)
  edges := by
    intro d c hlo hhi he
    have hlen := L.lengths
    simp only [Builder.branched, Builder.enter_function, Builder.emitted_length] at hlo
    exact (L.enclosed_edge hA hC hf (by omega) (by omega) he).2.1 hhi

theorem encloses_elseArm : Encloses f ((A.left parked u (B.function.blocks.length + 3)).enter
    (B.function.blocks.length + 2)) (B.function.blocks.length + 2) C where
  toCovers := L.covers_elseArm size hf.toCovers
  mem := fun c s hs => hf.mem c s ((L.elseArm_extends size).mem c s hs)
  edges := by
    intro d c hlo hhi he
    have hlen := L.lengths
    rw [Builder.enter_function,
      Builder.left_length L.thenArm.cursor L.thenArm.bound parked u] at hlo
    exact (L.enclosed_edge hA hC hf (by omega) hhi he).1

end Layout

end Ir

/-! ## What arises -/

namespace Lower

variable {α : Type} {p : Program} {f : Function} {B B' B'' : Builder} {b b' b'' : Nat}

/-- Lowering the test of a conditional and its truth comes to this. -/
def Decided (p : Program) (form : ConditionalForm) (test : Node) (B : Builder)
    (parked : Option Ir.SlotId) (condition : TypedValue) (D : Builder) : Prop :=
  ∃ t T P, Builds (expression p test) B.opened t T ∧ Builds (parkTest form t) T parked P ∧
    Builds (unary test.span .boolify t) P condition D

/-- The typed values that lowering the nodes one after the other gives, from the builder on: those
    of all parts, and the truth of tests. -/
inductive Arises (p : Program) : List Node → Builder → TypedValue → Prop where
  | value {node : Node} {rest : List Node} {B B' : Builder} {tv : TypedValue} :
      Builds (expression p node) B tv B' → Arises p (node :: rest) B tv
  | later {node : Node} {rest : List Node} {B B' : Builder} {x tv : TypedValue} :
      Builds (expression p node) B x B' → Arises p rest B' tv → Arises p (node :: rest) B tv
  | operands {span : Span} {op : BinaryOp} {lhs rhs : Node} {rest : List Node} {B : Builder}
      {tv : TypedValue} : Arises p [lhs, rhs] B tv → Arises p (.binary span op lhs rhs :: rest) B tv
  | operand {span : Span} {operand : Node} {rest : List Node} {B : Builder} {tv : TypedValue} :
      Arises p [operand] B tv → Arises p (.negate span operand :: rest) B tv
  | arguments {span : Span} {callee : Ident} {args rest : List Node} {B : Builder}
      {tv : TypedValue} : Arises p args B tv → Arises p (.call span callee args :: rest) B tv
  | test {span : Span} {form : ConditionalForm} {test thenArm elseArm : Node} {rest : List Node}
      {B : Builder} {tv : TypedValue} : Arises p [test] B.opened tv →
      Arises p (.conditional span form test thenArm elseArm :: rest) B tv
  | truth {span : Span} {form : ConditionalForm} {test thenArm elseArm : Node} {rest : List Node}
      {B D : Builder} {parked : Option Ir.SlotId} {condition : TypedValue} :
      Decided p form test B parked condition D →
      Arises p (.conditional span form test thenArm elseArm :: rest) B condition
  | thenArm {span : Span} {form : ConditionalForm} {test thenArm elseArm : Node} {rest : List Node}
      {B D : Builder} {parked : Option Ir.SlotId} {condition tv : TypedValue} :
      Decided p form test B parked condition D →
      Arises p [thenArm] (D.branched condition.value B.function.blocks.length) tv →
      Arises p (.conditional span form test thenArm elseArm :: rest) B tv
  | elseArm {span : Span} {form : ConditionalForm} {test thenArm elseArm : Node} {rest : List Node}
      {B D A : Builder} {parked : Option Ir.SlotId} {condition u tv : TypedValue} :
      Decided p form test B parked condition D →
      Builds (expression p thenArm) (D.branched condition.value B.function.blocks.length) u A →
      Arises p [elseArm] ((A.left parked u.value (B.function.blocks.length + 3)).enter
        (B.function.blocks.length + 2)) tv →
      Arises p (.conditional span form test thenArm elseArm :: rest) B tv

/-- What arises from a node arises from all that it stands in front of. -/
theorem Arises.append {node : Node} {rest : List Node} {tv : TypedValue}
    (h : Arises p [node] B tv) : Arises p (node :: rest) B tv := by
  cases h with
  | value h => exact .value h
  | later _ h => cases h
  | operands h => exact .operands h
  | operand h => exact .operand h
  | arguments h => exact .arguments h
  | test h => exact .test h
  | truth h => exact .truth h
  | thenArm h h' => exact .thenArm h h'
  | elseArm h h' h'' => exact .elseArm h h' h''

/-- A step that does not look at the table of types comes to one thing. -/
theorem Builds.unique {x : Lower α} (hx : Blind x) {a a' : α} (h : Builds x B a B')
    (h' : Builds x B a' B'') : a' = a ∧ B'' = B' := by
  obtain ⟨types, left, h⟩ := h
  obtain ⟨types', left', h'⟩ := h'
  obtain ⟨hresult, hbuilder⟩ := hx types types' B
  rw [h, h'] at hresult hbuilder
  exact ⟨Except.ok.inj hresult, hbuilder⟩

theorem Decided.unique {form : ConditionalForm} {test : Node} {parked parked' : Option Ir.SlotId}
    {condition condition' : TypedValue} {D D' : Builder}
    (h : Decided p form test B parked condition D)
    (h' : Decided p form test B parked' condition' D') :
    parked' = parked ∧ condition' = condition ∧ D' = D := by
  obtain ⟨t, T, P, h₁, h₂, h₃⟩ := h
  obtain ⟨t', T', P', h₁', h₂', h₃'⟩ := h'
  obtain ⟨rfl, rfl⟩ := h₁.unique (blind_expression p test) h₁'
  obtain ⟨rfl, rfl⟩ := h₂.unique (blind_parkTest form _) h₂'
  obtain ⟨rfl, rfl⟩ := h₃.unique (blind_unary _ _ _) h₃'
  exact ⟨rfl, rfl, rfl⟩

/-! ## Pieces of a function -/

/-- Lowering can go on at the end of block `b`. -/
structure Continues (p : Program) (b : Nat) (B : Builder) : Prop where
  numbered : B.Numbered
  state : ∃ signature doms, At p signature doms b B

/-- From the end of block `b` lowering has come to the end of block `b'`; what it made leads to its
    own blocks only. -/
structure Piece (p : Program) (B : Builder) (b : Nat) (B' : Builder) (b' : Nat) : Prop where
  region : Region B b B' b'
  contained : Contained B B'
  continues : Continues p b' B'

theorem Continues.piece {x : Lower α}
    {Good : Program → Builder → (Nat → Set Nat) → Nat → α → Prop} (hB : Continues p b B)
    (r : Regional x) (s : Sound p x Good) (o : Orderly p x) {a : α} (h : Builds x B a B') :
    ∃ b', Piece p B b B' b' ∧ ∃ doms, Good p B' doms b' a := by
  obtain ⟨hn, signature, doms, hat⟩ := hB
  obtain ⟨b', hr⟩ := r B a B' b h hat.cursor hat.bound hn
  obtain ⟨doms', b'', l, hgood⟩ := s signature doms B b a B' h hn hat
  obtain rfl := atEnd_inj hr.cursor l.state.cursor
  exact ⟨b'', ⟨hr, (o signature doms B b a B' h hn hat).1, hr.grown.numbered hn, _, _, l.state⟩,
    doms', hgood⟩

/-- Straight code at the end of a block. -/
theorem Continues.encloses {B₀ : Builder} {b₀ : Nat} (hB : Continues p b B) (hs : Silent B B')
    (hi : Inline B b B') (hf : Ir.Encloses f B₀ b₀ B') : Ir.Encloses f B₀ b₀ B := by
  obtain ⟨-, signature, doms, hat⟩ := hB
  exact hf.first (.of_inline hi hat.bound) (hs.contained hat.cursor hat.bound hat.unfinished).1

/-- The nodes are lowered one after the other at the end of block `b`, to code of the function. -/
def Placed (p : Program) (f : Function) : List Node → Builder → Nat → Prop
  | [], _, _ => True
  | node :: rest, B, b => Continues p b B ∧ ∃ tv B' b', Builds (expression p node) B tv B' ∧
      Ir.Encloses f B b B' ∧ Placed p f rest B' b'

section Consistent

variable (hp : p.Consistent)
include hp

theorem Continues.expression (hB : Continues p b B) {node : Node} {tv : TypedValue}
    (h : Builds (expression p node) B tv B') :
    ∃ b', Piece p B b B' b' ∧ ∃ doms, InReach p B' doms b' tv :=
  hB.piece (expression_regional p node) (expression_sound node) (expression_orderly hp node) h

theorem Continues.arguments (hB : Continues p b B) {nodes : List Node} {vs : List Ir.ValueId}
    (h : Builds (arguments p nodes) B vs B') : ∃ b', Piece p B b B' b' := by
  obtain ⟨b', hpiece, -⟩ := hB.piece (arguments_regional p nodes) (arguments_sound nodes)
    (arguments_orderly hp nodes) h
  exact ⟨b', hpiece⟩

/-- The first of two pieces. -/
theorem Placed.cons (hB : Continues p b B) {node : Node} {rest : List Node} {tv : TypedValue}
    (h : Builds (Lower.expression p node) B tv B') (hf : Ir.Encloses f B b B'')
    (hrest : ∀ b', Piece p B b B' b' → Ir.Encloses f B' b' B'' →
      (∃ b'', Piece p B' b' B'' b'') ∧ Placed p f rest B' b') : Placed p f (node :: rest) B b := by
  obtain ⟨b', hpiece, -⟩ := hB.expression hp h
  obtain ⟨⟨b'', hpiece'⟩, hplaced⟩ := hrest b' hpiece (hf.second hpiece.region)
  exact ⟨hB, tv, B', b', h, hf.first hpiece'.region hpiece'.contained, hplaced⟩

theorem arguments_placed {nodes : List Node} (hB : Continues p b B) {vs : List Ir.ValueId}
    (h : Builds (Lower.arguments p nodes) B vs B') (hf : Ir.Encloses f B b B') :
    Placed p f nodes B b := by
  induction nodes generalizing B b vs with
  | nil => trivial
  | cons node rest ih =>
      rw [Lower.arguments] at h
      obtain ⟨x, B₁, h₁, h⟩ := h.bind
      obtain ⟨xs, B₂, h₂, h⟩ := h.bind
      obtain ⟨-, rfl⟩ := h.pure
      exact .cons hp hB h₁ hf fun b₁ hpiece hf₁ =>
        ⟨hpiece.continues.arguments hp h₂, ih hpiece.continues h₂ hf₁⟩

theorem statements_placed {nodes : List Node} (hB : Continues p b B) {tv : TypedValue}
    (h : Builds (statements p nodes) B tv B') (hf : Ir.Encloses f B b B') :
    Placed p f nodes B b := by
  induction nodes generalizing B b with
  | nil => trivial
  | cons node rest ih =>
      cases rest with
      | nil =>
          obtain ⟨b', -⟩ := hB.expression hp h
          exact ⟨hB, tv, B', b', h, hf, trivial⟩
      | cons next rest =>
          obtain ⟨x, B₁, h₁, h⟩ := Builds.bind h
          refine .cons hp hB h₁ hf fun b₁ hpiece hf₁ => ⟨?_, ih hpiece.continues h hf₁⟩
          obtain ⟨b₂, hpiece', -⟩ := hpiece.continues.piece (statements_regional p (next :: rest))
            (statements_sound (next :: rest)) (statements_orderly hp (next :: rest)) h
          exact ⟨b₂, hpiece'⟩

theorem operands_placed {span : Span} {op : BinaryOp} {lhs rhs : Node} (hB : Continues p b B)
    {tv : TypedValue} (h : Builds (Lower.expression p (.binary span op lhs rhs)) B tv B')
    (hf : Ir.Encloses f B b B') : Placed p f [lhs, rhs] B b := by
  rw [Lower.expression] at h
  obtain ⟨x, B₁, h₁, h⟩ := h.bind
  obtain ⟨y, B₂, h₂, h⟩ := h.bind
  obtain ⟨b₁, hpiece₁, -⟩ := hB.expression hp h₁
  obtain ⟨b₂, hpiece₂, -⟩ := hpiece₁.continues.expression hp h₂
  have hf₂ := hpiece₂.continues.encloses (binary_silent h)
    (binary_inline h hpiece₂.region.cursor hpiece₂.region.bound) hf
  refine .cons hp hB h₁ hf₂ fun b' hpiece hf₁ => ?_
  obtain ⟨b'', hpiece', -⟩ := hpiece.continues.expression hp h₂
  exact ⟨⟨b'', hpiece'⟩, hpiece.continues, y, B₂, b'', h₂, hf₁, trivial⟩

theorem operand_placed {span : Span} {operand : Node} (hB : Continues p b B) {tv : TypedValue}
    (h : Builds (Lower.expression p (.negate span operand)) B tv B')
    (hf : Ir.Encloses f B b B') : Placed p f [operand] B b := by
  rw [Lower.expression] at h
  obtain ⟨x, B₁, h₁, h⟩ := h.bind
  obtain ⟨b₁, hpiece, -⟩ := hB.expression hp h₁
  have hf₁ := hpiece.continues.encloses (unary_silent h)
    (unary_inline h hpiece.region.cursor hpiece.region.bound) hf
  exact ⟨hB, x, B₁, b₁, h₁, hf₁, trivial⟩

theorem call_placed {span : Span} {callee : Ident} {args : List Node} (hB : Continues p b B)
    {tv : TypedValue} (h : Builds (Lower.expression p (.call span callee args)) B tv B')
    (hf : Ir.Encloses f B b B') : Placed p f args B b := by
  rw [Lower.expression] at h
  obtain ⟨index, routine, values, B₁, i, -, -, -, h₁, -, -, rfl⟩ := h.call
  obtain ⟨b₁, hpiece⟩ := hB.arguments hp h₁
  have himported := Inline.imported hpiece.region.cursor index routine.signature
  have hinline := himported.trans (.emitted himported.cursor
    (himported.length ▸ hpiece.region.bound)
    (.call (B₁.imported index routine.signature).1 values) rfl i.signature.results)
  exact arguments_placed hp hB h₁
    (hpiece.continues.encloses (.emitted (.imported (.refl B₁)) rfl) hinline hf)

end Consistent

/-! ## How values are made -/

section Made

variable {returns : List ScalarType} {tags : TypedValue → Prop} {tv : TypedValue}

/-- Values of most types may be made in any way. -/
theorem made_any {doms : Nat → Set Nat} (h : InReach p B doms b tv)
    (hmem : ∀ c : Nat, ∀ s ∈ B.function.block c, s ∈ f.block c) (hbool : tv.type ≠ .boolean)
    (hhalf : tv.type ≠ .float16) : f.Made returns tags tv := by
  obtain ⟨d, -, s, hs, hv⟩ := h.reach
  exact ⟨d, s, hmem d s hs, hv, .any hbool hhalf⟩

/-- A value that an instruction at the end of a block gives. -/
theorem made_emitted (hc : B.cursor = .atEnd b) (hb : b < B.function.blocks.length)
    {inst : Ir.Inst} {mty : MachineType} {ty : ScalarType}
    (hmem : ∀ c : Nat, ∀ s ∈ (B.emitted inst [mty]).function.block c, s ∈ f.block c)
    (hmakes : f.Makes returns tags b inst ty) :
    f.Made returns tags ⟨B.function.values.length, ty⟩ := by
  refine ⟨b, B.stmt inst [mty], hmem b _ ?_, by simp [Builder.stmt], hmakes⟩
  rw [B.block_emitted_self inst _ hc hb]
  exact List.mem_append_right _ (List.mem_singleton_self _)

end Made

end Lower

/-- Results that are booleans or halves: of comparisons, of bitwise operators on booleans, and of
    the arithmetic of halves. -/
theorem BinaryImpl.result_cases {ty : ScalarType} {op : BinaryOp} {impl : BinaryImpl}
    (h : ty.binaryImpl? op = some impl) :
    (impl.resultType ty ≠ .boolean ∧ impl.resultType ty ≠ .float16) ∨
      (∃ cc, impl = .intCompare cc) ∨ (∃ cc, impl = .floatCompare cc) ∨
      (ty = .boolean ∧ (impl = .int .and ∨ impl = .int .or ∨ impl = .int .xor)) ∨
      (ty = .float16 ∧ ∃ o, impl = .float o) := by
  cases ty <;> cases op <;> cases h <;> simp [BinaryImpl.resultType, BinaryImpl.ofInteger]

theorem UnaryImpl.result_cases {ty : ScalarType} {op : UnaryOperator} {impl : UnaryImpl}
    (h : ty.unaryImpl? op = some impl) :
    (impl.resultType ty ≠ .boolean ∧ impl.resultType ty ≠ .float16) ∨
      impl = .intTruthy ∨ impl = .floatTruthy ∨ (op = .boolify ∧ impl = .identity) ∨
      (ty = .float16 ∧ impl = .floatNegate) := by
  cases ty <;> cases op <;> cases h <;> simp [UnaryImpl.resultType]

/-- The list has the types that the routines return. -/
def Program.Returns (p : Program) (returns : List ScalarType) : Prop :=
  ∀ (k : Nat) (r : Routine), p.routines[k]? = some r → returns[k]? = some r.returnType

theorem Literal.Rounded.canonical {l : Literal} (h : l.Rounded) :
    l.type.Canonical l.value.word := by
  cases l with
  | boolean b => exact ScalarType.canonical_ofBool b
  | float16 x => exact ⟨x, rfl, h⟩
  | _ => trivial

namespace Lower

variable {p : Program} {f : Function} {B B' B₀ : Builder} {b b₀ : Nat} {returns : List ScalarType}
  {tags : TypedValue → Prop} {tv : TypedValue}

theorem binary_made {span : Span} {op : BinaryOp} {lhs rhs : TypedValue}
    (h : Builds (binary span op lhs rhs) B tv B') (hB : Continues p b B)
    (hf : Ir.Encloses f B₀ b₀ B')
    (hany : tv.type ≠ .boolean → tv.type ≠ .float16 → f.Made returns tags tv) (hlhs : tags lhs)
    (hrhs : tags rhs) : f.Made returns tags tv := by
  obtain ⟨-, signature, doms, hat⟩ := hB
  obtain ⟨htype, impl, himpl, rfl, rfl⟩ := h.binary
  rcases BinaryImpl.result_cases himpl with ⟨hbool, hhalf⟩ | ⟨cc, rfl⟩ | ⟨cc, rfl⟩ |
    ⟨hbool, himpl⟩ | ⟨hhalf, o, rfl⟩
  · exact hany hbool hhalf
  · exact made_emitted hat.cursor hat.bound hf.mem .icmp
  · exact made_emitted hat.cursor hat.bound hf.mem .fcmp
  · have hx : tags ⟨lhs.value, .boolean⟩ := hbool ▸ hlhs
    have hy : tags ⟨rhs.value, .boolean⟩ := (htype.symm.trans hbool) ▸ hrhs
    rcases himpl with rfl | rfl | rfl
    all_goals
      rw [BinaryImpl.resultType, hbool]
      exact made_emitted hat.cursor hat.bound hf.mem (.bitwise (by decide) hx hy)
  · -- the result of the instruction is rounded
    have hcode : (BinaryImpl.float o).code lhs.type lhs.value rhs.value B =
        Ir.Build.roundHalf B.function.values.length
          (B.emitted (.binary o.opcode lhs.value rhs.value) [B.typeOf lhs.value]) := by
      simp only [BinaryImpl.code, Ir.Build.bind_apply, if_pos hhalf]
      rfl
    obtain ⟨hi, hround⟩ := Ir.Build.roundHalf_apply
      (B := B.emitted (.binary o.opcode lhs.value rhs.value) [B.typeOf lhs.value])
      hat.built.imports B.function.values.length
    rw [hcode, hround] at hf ⊢
    rw [BinaryImpl.resultType, hhalf]
    have hop := Inline.emitted hat.cursor hat.bound (.binary o.opcode lhs.value rhs.value) rfl
      [B.typeOf lhs.value]
    have hinline := hop.trans
      (.imported hop.cursor Intrinsic.roundHalf.index Intrinsic.roundHalf.signature)
    exact made_emitted hinline.cursor (hinline.length ▸ hat.bound) hf.mem
      (.round (hf.getElem?_imports hi) rfl)

theorem unary_made {span : Span} {op : UnaryOperator} {operand : TypedValue}
    (h : Builds (unary span op operand) B tv B') (hc : B.cursor = .atEnd b)
    (hb : b < B.function.blocks.length)
    (hmem : ∀ c : Nat, ∀ s ∈ B'.function.block c, s ∈ f.block c)
    (hany : tv.type ≠ .boolean → tv.type ≠ .float16 → f.Made returns tags tv)
    (ho : tags operand) (hmade : op = .boolify → f.Made returns tags operand) :
    f.Made returns tags tv := by
  obtain ⟨impl, himpl, rfl, rfl⟩ := h.unary
  rcases UnaryImpl.result_cases himpl with ⟨hbool, hhalf⟩ | rfl | rfl | ⟨hop, rfl⟩ | ⟨hhalf, rfl⟩
  · exact hany hbool hhalf
  · exact made_emitted hc hb hmem .icmpImm
  · have horigin := (Ir.Build.Straight.const (if B.typeOf operand.value = .f64
      then Ir.Constant.f64 (.zero false) else .f32 (.zero false))).inline B b hc hb
    exact made_emitted horigin.cursor (horigin.length ▸ hb) hmem .fcmp
  · -- the truth of a boolean is the boolean itself
    exact hmade hop
  · rw [UnaryImpl.resultType, hhalf]
    exact made_emitted hc hb hmem (.negate (hhalf ▸ ho))

theorem call_made (hp : p.Consistent) (hreturns : p.Returns returns) {span : Span}
    {callee : Ident} {nodes : List Node} (hB : Continues p b B)
    (h : Builds (call p span callee nodes.length (arguments p nodes)) B tv B')
    (hf : Ir.Encloses f B₀ b₀ B') : f.Made returns tags tv := by
  obtain ⟨index, routine, values, B₁, i, hl, -, -, h₁, hi, rfl, rfl⟩ := h.call
  obtain ⟨b₁, hpiece⟩ := hB.arguments hp h₁
  obtain ⟨-, signature, doms, hat⟩ := hpiece.continues
  obtain rfl : i = ⟨index, routine.signature⟩ := Option.some.inj
    (hi.symm.trans (hat.built.imports.imported_fst (Program.signatureAt?_of_lookup hl)))
  obtain ⟨k, rfl, hr, -⟩ := Program.lookup_eq_some hl
  have hresults : routine.signature.results = [routine.returnType.machineType] :=
    hp routine (List.mem_of_getElem? hr)
  rw [hresults] at hf
  have himported := Inline.imported hat.cursor (firstRoutineIndex + k) routine.signature
  obtain ⟨added, he, -⟩ := B₁.imported_snd (firstRoutineIndex + k) routine.signature
  have hvalues : B₁.function.values.length =
      (B₁.imported (firstRoutineIndex + k) routine.signature).2.function.values.length := by rw [he]
  rw [hvalues]
  exact made_emitted himported.cursor (himported.length ▸ hat.bound) hf.mem
    (.call (hf.getElem?_imports hi) rfl (hreturns k routine hr))

/-- A conditional in a function: its parts are placed there, and its truth and its value are made if
    the values of the test and of the arms are. -/
structure Branching (p : Program) (f : Function) (form : ConditionalForm)
    (test thenArm elseArm : Node) (B : Builder) (tv : TypedValue) (parked : Option Ir.SlotId)
    (t condition u w : TypedValue) (D A : Builder) : Prop where
  decided : Decided p form test B parked condition D
  testBuilds : ∃ T, Builds (expression p test) B.opened t T
  thenBuilds : Builds (expression p thenArm)
    (D.branched condition.value B.function.blocks.length) u A
  elseBuilds : ∃ C, Builds (expression p elseArm)
    ((A.left parked u.value (B.function.blocks.length + 3)).enter (B.function.blocks.length + 2)) w C
  test : Placed p f [test] B.opened B.function.blocks.length
  thenArm : Placed p f [thenArm] (D.branched condition.value B.function.blocks.length)
    (B.function.blocks.length + 1)
  elseArm : Placed p f [elseArm] ((A.left parked u.value (B.function.blocks.length + 3)).enter
    (B.function.blocks.length + 2)) (B.function.blocks.length + 2)
  truth : ∀ returns tags, tags t → f.Made returns tags t → f.Made returns tags condition
  value : ∀ returns tags, tags u → tags w → f.Made returns tags tv

theorem conditional_branching (hp : p.Consistent) (hwf : f.WellFormed) {span : Span}
    {form : ConditionalForm} {test thenArm elseArm : Node} (hB : Continues p b B)
    (h : Builds (expression p (.conditional span form test thenArm elseArm)) B tv B')
    (hf : Ir.Encloses f B b B') : ∃ parked t condition u w D A,
      Branching p f form test thenArm elseArm B tv parked t condition u w D A := by
  obtain ⟨hn, signature, doms, hat⟩ := hB
  rw [expression] at h
  obtain ⟨t, T, parked, P, condition, D, u, A, w, C, testEnd, thenEnd, elseEnd, L, h₁, h₂, h₃, h₄,
    h₅, htype, rfl, rfl⟩ := h.layout (expression_regional p test) (expression_regional p thenArm)
      (expression_regional p elseArm) hat.cursor hat.bound hn
  obtain ⟨doms₁, doms₂, doms₃, S⟩ := conditional_stages (expression_sound test)
    (expression_sound thenArm) (expression_sound elseArm) L h₁ h₂ h₃ h₄ h₅ hat
  obtain ⟨cT, -⟩ := expression_orderly hp test _ _ _ _ t T h₁ L.opened_numbered S.opened
  obtain ⟨cA, -⟩ := expression_orderly hp thenArm _ _ _ _ u A h₄ L.branched_numbered S.branched
  obtain ⟨cC, -⟩ := expression_orderly hp elseArm _ _ _ _ w C h₅
    (fun c s hs => L.left_numbered c s hs) S.entered
  have hM := L.encloses_joined hf
  have hlen := L.lengths
  have hends := L.ends
  have hbound : B.function.blocks.length + 3 < (A.joined C parked u.type.byteSize u.value w.value
      (B.function.blocks.length + 3)).2.function.blocks.length := by
    rw [L.joined_length]
    omega
  refine ⟨parked, t, condition, u, w, D, A, ⟨t, T, P, h₁, h₂, h₃⟩, ⟨T, h₁⟩, h₄, ⟨C, h₅⟩,
    ⟨⟨L.opened_numbered, _, _, S.opened⟩, t, T, testEnd, h₁, L.encloses_test cA cC hM, trivial⟩,
    ⟨⟨L.branched_numbered, _, _, S.branched⟩, u, A, thenEnd, h₄, L.encloses_thenArm cA cC hM,
      trivial⟩,
    ⟨⟨fun c s hs => L.left_numbered c s hs, _, _, S.entered⟩, w, C, elseEnd, h₅,
      L.encloses_elseArm cA cC hM, trivial⟩, fun returns tags ht hmade => ?_,
    fun returns tags hu hw => ?_⟩
  · have hbranched := (Builder.branched_grown L.decided.cursor hends.2.1 condition.value
      B.function.blocks.length).toExtends.trans (L.grown_branched_joined u.type.byteSize).toExtends
    exact unary_made h₃ L.park.cursor (L.park.length ▸ L.test.bound)
      (fun c s hs => hM.mem c s (hbranched.mem c s hs))
      (fun hbool => absurd (boolify_type h₃) hbool) ht fun _ => hmade
  · refine made_emitted (B := (A.joined C parked u.type.byteSize u.value w.value
      (B.function.blocks.length + 3)).2.enter (B.function.blocks.length + 3)) rfl hbound hf.mem
      (.load fun d he => ?_)
    -- only the arms lead to where they meet
    have hfed {c : Nat} {X : Ir.Block} {m n v slot : Nat} (hc : B.function.blocks.length ≤ c)
        (hblock : (A.joined C parked u.type.byteSize u.value w.value
          (B.function.blocks.length + 3)).2.function.block c =
          X ++ [⟨m, [], .store v slot⟩, ⟨n, [], .jump (B.function.blocks.length + 3)⟩]) :
        f.block c =
          X ++ [⟨m, [], .store v slot⟩, ⟨n, [], .jump (B.function.blocks.length + 3)⟩] := by
      have hprefix := hM.block c (Or.inr hc)
      rw [hblock, List.append_cons] at hprefix
      rw [hwf.block_eq rfl hprefix, ← List.append_cons]
    rcases L.edge_cases cT cA cC (hM.edges d _ (by omega) hbound he) with
      he | ⟨-, he⟩ | ⟨-, he⟩ | ⟨rfl | rfl, -⟩ | he
    · have := edge_lt hat.built he
      omega
    · omega
    · omega
    · obtain ⟨m, n, hblock⟩ := L.block_thenEnd u.type.byteSize
      exact ⟨_, m, n, u.value, hfed (by omega) hblock, hu⟩
    · obtain ⟨m, n, hblock⟩ := L.block_elseEnd u.type.byteSize
      exact ⟨_, m, n, w.value, hfed (by omega) hblock, htype ▸ hw⟩
    · omega

section Routine

variable (hp : p.Consistent) (hwf : f.WellFormed) (hreturns : p.Returns returns)
include hp hwf hreturns

/-- The value of an expression is made out of the values of its parts. -/
theorem value_made {node : Node} (hround : node.Rounded) (hB : Continues p b B)
    (h : Builds (expression p node) B tv B') (hf : Ir.Encloses f B b B')
    (htags : ∀ tv, Arises p [node] B tv → tags tv) : f.Made returns tags tv := by
  obtain ⟨b', -, doms', hreach⟩ := hB.expression hp h
  have hany : tv.type ≠ .boolean → tv.type ≠ .float16 → f.Made returns tags tv :=
    made_any hreach hf.mem
  cases node with
  | literal span l =>
      obtain ⟨-, signature, doms, hat⟩ := hB
      rw [expression] at h
      obtain ⟨rfl, rfl⟩ := h.literal
      exact made_emitted hat.cursor hat.bound hf.mem
        (.const l.constant_word? (Literal.Rounded.canonical hround))
  | name span text =>
      rw [expression] at h
      exact absurd h not_builds_bareName
  | binary span op lhs rhs =>
      rw [expression] at h
      obtain ⟨x, B₁, h₁, h⟩ := h.bind
      obtain ⟨y, B₂, h₂, h⟩ := h.bind
      obtain ⟨b₁, hpiece₁, -⟩ := hB.expression hp h₁
      obtain ⟨b₂, hpiece₂, -⟩ := hpiece₁.continues.expression hp h₂
      exact binary_made h hpiece₂.continues hf hany (htags x (.operands (.value h₁)))
        (htags y (.operands (.later h₁ (.value h₂))))
  | negate span operand =>
      rw [expression] at h
      obtain ⟨x, B₁, h₁, h⟩ := h.bind
      obtain ⟨b₁, hpiece₁, -⟩ := hB.expression hp h₁
      exact unary_made h hpiece₁.region.cursor hpiece₁.region.bound hf.mem hany
        (htags x (.operand (.value h₁))) nofun
  | conditional span form test thenArm elseArm =>
      obtain ⟨parked, t, condition, u, w, D, A, hparts⟩ := conditional_branching hp hwf hB h hf
      obtain ⟨C, helse⟩ := hparts.elseBuilds
      exact hparts.value returns tags (htags u (.thenArm hparts.decided (.value hparts.thenBuilds)))
        (htags w (.elseArm hparts.decided hparts.thenBuilds (.value helse)))
  | function span name params body =>
      rw [expression] at h
      exact absurd h not_builds_fail
  | call span callee args =>
      rw [expression] at h
      exact call_made hp hreturns hB h hf

/-- And so is everything that arises. -/
theorem Arises.made {nodes : List Node} (h : Arises p nodes B tv) (hround : Node.AllRounded nodes)
    (hplaced : Placed p f nodes B b) (htags : ∀ tv, Arises p nodes B tv → tags tv) :
    f.Made returns tags tv := by
  induction h generalizing b with
  | value h =>
      obtain ⟨hB, x, B₁, b₁, h₁, hf, -⟩ := hplaced
      obtain ⟨rfl, rfl⟩ := h.unique (blind_expression p _) h₁
      exact value_made hp hwf hreturns hround.1 hB h hf fun _ h => htags _ h.append
  | later h _ ih =>
      obtain ⟨hB, x, B₁, b₁, h₁, hf, hrest⟩ := hplaced
      obtain ⟨rfl, rfl⟩ := h.unique (blind_expression p _) h₁
      exact ih hround.2 hrest fun _ h' => htags _ (.later h h')
  | operands _ ih =>
      obtain ⟨hB, x, B₁, b₁, h₁, hf, -⟩ := hplaced
      obtain ⟨hlhs, hrhs⟩ := hround.1
      exact ih ⟨hlhs, hrhs, trivial⟩ (operands_placed hp hB h₁ hf) fun _ h => htags _ (.operands h)
  | operand _ ih =>
      obtain ⟨hB, x, B₁, b₁, h₁, hf, -⟩ := hplaced
      exact ih ⟨hround.1, trivial⟩ (operand_placed hp hB h₁ hf) fun _ h => htags _ (.operand h)
  | arguments _ ih =>
      obtain ⟨hB, x, B₁, b₁, h₁, hf, -⟩ := hplaced
      exact ih hround.1 (call_placed hp hB h₁ hf) fun _ h => htags _ (.arguments h)
  | test _ ih =>
      obtain ⟨hB, x, B₁, b₁, h₁, hf, -⟩ := hplaced
      obtain ⟨parked, t, condition, u, w, D, A, hparts⟩ := conditional_branching hp hwf hB h₁ hf
      obtain ⟨htest, -, -⟩ := hround.1
      exact ih ⟨htest, trivial⟩ hparts.test fun _ h => htags _ (.test h)
  | truth hdecided =>
      obtain ⟨hB, x, B₁, b₁, h₁, hf, -⟩ := hplaced
      obtain ⟨parked, t, condition, u, w, D, A, hparts⟩ := conditional_branching hp hwf hB h₁ hf
      obtain ⟨-, rfl, -⟩ := hdecided.unique hparts.decided
      obtain ⟨T, htest⟩ := hparts.testBuilds
      obtain ⟨hB', x', T', b', h', hf', -⟩ := hparts.test
      obtain ⟨rfl, rfl⟩ := htest.unique (blind_expression p _) h'
      exact hparts.truth returns tags (htags _ (.test (.value htest)))
        (value_made hp hwf hreturns hround.1.1 hB' htest hf' fun _ h => htags _ (.test h))
  | thenArm hdecided _ ih =>
      obtain ⟨hB, x, B₁, b₁, h₁, hf, -⟩ := hplaced
      obtain ⟨parked, t, condition, u, w, D, A, hparts⟩ := conditional_branching hp hwf hB h₁ hf
      obtain ⟨rfl, rfl, rfl⟩ := hdecided.unique hparts.decided
      obtain ⟨-, hthen, -⟩ := hround.1
      exact ih ⟨hthen, trivial⟩ hparts.thenArm fun _ h => htags _ (.thenArm hdecided h)
  | elseArm hdecided hthen _ ih =>
      obtain ⟨hB, x, B₁, b₁, h₁, hf, -⟩ := hplaced
      obtain ⟨parked, t, condition, u, w, D, A, hparts⟩ := conditional_branching hp hwf hB h₁ hf
      obtain ⟨rfl, rfl, rfl⟩ := hdecided.unique hparts.decided
      obtain ⟨rfl, rfl⟩ := hthen.unique (blind_expression p _) hparts.thenBuilds
      obtain ⟨-, -, helse⟩ := hround.1
      exact ih ⟨helse, trivial⟩ hparts.elseArm fun _ h => htags _ (.elseArm hdecided hthen h)

end Routine

/-- The value of statements is that of the last one. -/
theorem statements_arises : ∀ {nodes : List Node} {B : Builder},
    Builds (statements p nodes) B tv B' → tv.type = .i64 ∨ Arises p nodes B tv
  | [], _, h => by
      obtain ⟨v, B₁, -, h⟩ := Builds.bind h
      obtain ⟨rfl, -⟩ := h.pure
      exact Or.inl rfl
  | [node], _, h => Or.inr (.value h)
  | node :: next :: rest, _, h => by
      obtain ⟨x, B₁, h₁, h⟩ := Builds.bind h
      exact (statements_arises h).imp_right (.later h₁)

/-- A body returns nothing, since it is well typed whatever the function is to return. -/
theorem statements_ne_ret {nodes : List Node} (hB : B.Numbered)
    (hat : ∀ signature, ∃ doms, At p signature doms b B) (h : Builds (statements p nodes) B tv B')
    {c : Nat} {s : Ir.Stmt} (hs : s ∈ B'.function.block c) (vs : List Ir.ValueId) :
    s.inst ≠ .ret vs := by
  intro hret
  have htypes (signature : Signature) :
      (B'.code signature).typesOf? vs = some signature.results := by
    obtain ⟨doms, hat⟩ := hat signature
    obtain ⟨doms', b', l, -⟩ := statements_sound nodes signature doms B b tv B' h hB hat
    exact (l.state.built.shaped c s hs).typesOf?_ret hret
  have hnone : (B'.code ⟨[], []⟩).typesOf? vs = some [] := htypes ⟨[], []⟩
  have hone : (B'.code ⟨[], [.i8]⟩).typesOf? vs = some [.i8] := htypes ⟨[], [.i8]⟩
  exact absurd (hnone.symm.trans hone) (by simp)

end Lower

/-! ## Routines -/

section Finished

variable {name : String} {E : Builder} {e : Nat} (hE : Region (.prepared name) 1 E e)
  {v : Ir.ValueId} {ty : MachineType} {size : Nat}
include hE

/-- The blocks around a body lead to its start and from its end. -/
theorem finished_edge {d c : Nat} (he : (E.finished v ty size).function.Edge d c) :
    E.function.Edge d c ∨ (d = 0 ∧ c = 1) ∨ (d = e ∧ c = 2) := by
  obtain ⟨s, hs, hc⟩ := he
  rw [finished_block hE] at hs
  split at hs
  · rename_i hd
    rw [List.mem_singleton.mp hs] at hc
    exact Or.inr (Or.inl ⟨hd, List.mem_singleton.mp hc⟩)
  · split at hs
    · rename_i hd
      simp only [List.mem_append, List.mem_cons, List.not_mem_nil, or_false] at hs
      rcases hs with hs | rfl | rfl
      · exact Or.inl ⟨s, hd ▸ hs, hc⟩
      · cases hc
      · exact Or.inr (Or.inr ⟨hd, List.mem_singleton.mp hc⟩)
    · split at hs
      · simp only [List.mem_cons, List.not_mem_nil, or_false] at hs
        rcases hs with rfl | rfl <;> cases hc
      · exact Or.inl ⟨s, hs, hc⟩

/-- They return what was loaded before. -/
theorem finished_ret (hbody : ∀ c : Nat, ∀ s ∈ E.function.block c, ∀ vs, s.inst ≠ .ret vs) {c : Nat}
    {s : Ir.Stmt} (hs : s ∈ (E.finished v ty size).function.block c) {vs : List Ir.ValueId}
    (hret : s.inst = .ret vs) : vs = [E.function.values.length] := by
  rw [finished_block hE] at hs
  split at hs
  · rw [List.mem_singleton.mp hs] at hret
    cases hret
  · split at hs
    · simp only [List.mem_append, List.mem_cons, List.not_mem_nil, or_false] at hs
      rcases hs with hs | rfl | rfl
      · exact absurd hret (hbody _ s hs vs)
      · cases hret
      · cases hret
    · split at hs
      · simp only [List.mem_cons, List.not_mem_nil, or_false] at hs
        rcases hs with rfl | rfl
        · cases hret
        · exact (Ir.Inst.ret.inj hret).symm
      · exact absurd hret (hbody _ s hs vs)

variable (v ty size) in
theorem finished_encloses : Ir.Encloses (E.finished v ty size).function (.prepared name) 1 E where
  toCovers := finished_covers hE v ty size
  mem := by
    intro c s hs
    rw [finished_block hE]
    split
    · rename_i hc
      rw [hc, outer_block hE (Or.inl rfl)] at hs
      cases hs
    · split
      · rename_i hc
        exact List.mem_append_left _ (hc ▸ hs)
      · split
        · rename_i hc
          rw [hc, outer_block hE (Or.inr rfl)] at hs
          cases hs
        · exact hs
  edges := by
    intro d c hlo _ he
    rw [Builder.prepared_length] at hlo
    rcases finished_edge hE he with he | ⟨-, rfl⟩ | ⟨-, rfl⟩
    · exact he
    · omega
    · omega

end Finished

/-- The typed values of a routine that was lowered from the nodes: those that arise there, and the
    result that it returns. -/
def Routine.Tags (p : Program) (nodes : List Node) (r : Routine) (tv : TypedValue) : Prop :=
  Lower.Arises p nodes (.prepared r.name) tv ∨
    (tv.type = r.returnType ∧ ∃ b, ∃ s ∈ r.code.block b, s.inst = .ret [tv.value])

/-- The code of a routine makes its typed values in ways that keep to their types. -/
theorem Routine.lower_tagged {p : Program} (hp : p.Consistent) {returns : List ScalarType}
    (hreturns : p.Returns returns) {types : TypeTable} {name : String} {anonymous : Bool}
    {nodes : List Node} (hround : Node.AllRounded nodes) {r : Routine}
    (h : (Routine.lower p types name anonymous nodes).1 = .ok r) :
    r.code.Tagged returns r.returnType (r.Tags p nodes) := by
  obtain ⟨hwf, -, -⟩ := Routine.lower_wellFormed hp h
  have hdisciplined := Routine.lower_disciplined hp h
  obtain ⟨tv, E, hb, rfl⟩ := Routine.lower_ok h
  obtain ⟨e, hE⟩ := statements_region hb
  obtain ⟨hc, -⟩ := Lower.statements_orderly hp nodes _ _ _ _ tv E hb (prepared_numbered name)
    (prepared_at p ⟨[], []⟩ name)
  have hplaced := Lower.statements_placed hp
    ⟨prepared_numbered name, _, _, prepared_at p ⟨[], []⟩ name⟩ hb
    (finished_encloses hE tv.value tv.type.machineType tv.type.byteSize)
  have hbody : ∀ c : Nat, ∀ s ∈ E.function.block c, ∀ vs, s.inst ≠ .ret vs := fun c s hs =>
    Lower.statements_ne_ret (prepared_numbered name)
      (fun signature => ⟨_, prepared_at p signature name⟩) hb hs
  refine ⟨hwf, hdisciplined, ?_, ?_⟩
  · rintro ⟨u, ty⟩ (h | ⟨rfl, b, s, hs, hret⟩)
    · exact h.made hp hwf hreturns hround hplaced fun _ => Or.inl
    · -- the result is what the body's end has stored
      obtain rfl : u = E.function.values.length :=
        List.singleton_inj.mp (finished_ret hE hbody hs hret)
      have hb₂ := bodyEnd_bounds hE
      refine ⟨2, ⟨E.count + 3, [E.function.values.length],
        .load tv.type.machineType E.function.slots.length⟩, ?_, List.mem_singleton_self _, ?_⟩
      · rw [finished_block hE, if_neg (by omega), if_neg (by omega), if_pos rfl]
        exact List.mem_cons_self
      · rcases Lower.statements_arises hb with hi64 | harises
        · exact .any (by rw [hi64]; simp) (by rw [hi64]; simp)
        · refine .load fun d he => ?_
          rcases finished_edge hE he with he | ⟨-, he⟩ | ⟨rfl, -⟩
          · rcases hc.edges d 2 he with ⟨s, hs, -⟩ | hlt
            · rw [prepared_block] at hs
              cases hs
            · simp at hlt
          · cases he
          · refine ⟨E.function.block d, E.count + 1, E.count + 2, tv.value, ?_, Or.inl harises⟩
            rw [finished_block hE, if_neg (by omega), if_pos rfl]
  · intro b s hs vs hret
    exact ⟨E.function.values.length, finished_ret hE hbody hs hret, Or.inr ⟨rfl, b, s, hs,
      finished_ret hE hbody hs hret ▸ hret⟩⟩

end ScalarLang
