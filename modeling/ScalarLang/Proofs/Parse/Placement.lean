import Mathlib
import ScalarLang.Proofs.Parse.Contents
import ScalarLang.Proofs.Parse.Recovery
import ScalarLang.Proofs.Token.Patterns

/-
  The places of nodes.
  A derivation cuts its tokens into parts, one after the other, and the nodes of the parts stand
  over their own tokens. So the span of each node runs from the start of a token to the end of one,
  and the parts of a node stand in it in their order, though not next to each other: parentheses
  belong to no node. `Seated` says this of a node, and the induction is over derivations. Under a
  literal for the least integer there are two tokens; nothing but blanks stands between them, since
  a comment goes on to the end of its line.
-/

namespace ScalarLang

/-! ## Nodes of a tree -/

namespace Node

/-- The nodes directly below, in order. -/
def children : Node → List Node
  | .literal _ _ | .name _ _ => []
  | .binary _ _ lhs rhs => [lhs, rhs]
  | .negate _ operand => [operand]
  | .conditional _ _ test thenArm elseArm => [test, thenArm, elseArm]
  | .function _ _ _ body => body
  | .call _ _ args => args

/-- The identifiers of the node itself: the name of a definition with its parameters, or the name
    of what is called. -/
def idents : Node → List Ident
  | .function _ ident params _ => ident :: params
  | .call _ callee _ => [callee]
  | _ => []

/-- The spans of the direct parts, in order. -/
def parts (n : Node) : List Span := n.idents.map Ident.span ++ n.children.map span

/-- The node is one of the trees or stands somewhere below one. -/
inductive Occurs (nodes : List Node) : Node → Prop
  | root {n : Node} (h : n ∈ nodes) : Occurs nodes n
  | child {n m : Node} (h : Occurs nodes n) (hm : m ∈ n.children) : Occurs nodes m

theorem Occurs.mono {nodes others : List Node} {n : Node} (h : Occurs nodes n)
    (hsub : nodes ⊆ others) : Occurs others n := by
  induction h with
  | root h => exact .root (hsub h)
  | child _ hm ih => exact .child ih hm

theorem not_occurs_nil {n : Node} : ¬ Occurs [] n := by
  intro h
  induction h with
  | root h => cases h
  | child _ _ ih => exact ih

theorem occurs_append {nodes others : List Node} {n : Node} :
    Occurs (nodes ++ others) n ↔ Occurs nodes n ∨ Occurs others n := by
  constructor
  · intro h
    induction h with
    | root h => exact (List.mem_append.mp h).imp .root .root
    | child _ hm ih => exact ih.imp (.child · hm) (.child · hm)
  · rintro (h | h)
    · exact h.mono (List.subset_append_left _ _)
    · exact h.mono (List.subset_append_right _ _)

theorem occurs_singleton {n m : Node} : Occurs [n] m ↔ m = n ∨ Occurs n.children m := by
  constructor
  · intro h
    induction h with
    | root h => exact .inl (List.mem_singleton.mp h)
    | child _ hm ih =>
        rcases ih with rfl | h
        · exact .inr (.root hm)
        · exact .inr (.child h hm)
  · rintro (rfl | h)
    · exact .root (List.mem_singleton_self _)
    · induction h with
      | root h => exact .child (.root (List.mem_singleton_self _)) h
      | child _ hm ih => exact .child ih hm

end Node

open Node (Occurs)

/-! ## Spans over tokens -/

/-- The tokens are not empty and stand one after the other. -/
structure Token.InOrder (ts : List Token) : Prop where
  solid : ∀ t ∈ ts, t.span.start < t.span.stop
  ordered : ts.Pairwise fun t u => t.span.stop ≤ u.span.start

open Token (InOrder)

theorem Token.InOrder.sublist {ts us : List Token} (h : InOrder us) (hs : ts.Sublist us) :
    InOrder ts :=
  ⟨fun t ht => h.solid t (hs.subset ht), h.ordered.sublist hs⟩

theorem Token.inOrder_append {ts us : List Token} :
    InOrder (ts ++ us) ↔ InOrder ts ∧ InOrder us ∧
      ∀ t ∈ ts, ∀ u ∈ us, t.span.stop ≤ u.span.start := by
  constructor
  · intro h
    exact ⟨h.sublist (List.sublist_append_left _ _), h.sublist (List.sublist_append_right _ _),
      (List.pairwise_append.mp h.ordered).2.2⟩
  · rintro ⟨hts, hus, hbefore⟩
    exact ⟨List.forall_mem_append.mpr ⟨hts.solid, hus.solid⟩,
      List.pairwise_append.mpr ⟨hts.ordered, hus.ordered, hbefore⟩⟩

/-- The span is not empty and runs from the start of one of the tokens to the end of one. -/
structure Span.Aligned (a : Span) (ts : List Token) : Prop where
  solid : a.start < a.stop
  starts : ∃ t ∈ ts, t.span.start = a.start
  stops : ∃ t ∈ ts, t.span.stop = a.stop

namespace Span.Aligned

variable {a b : Span} {ts us : List Token}

theorem token {t : Token} (hts : InOrder ts) (ht : t ∈ ts) : t.span.Aligned ts :=
  ⟨hts.solid t ht, ⟨t, ht, rfl⟩, t, ht, rfl⟩

theorem mono (h : a.Aligned ts) (hsub : ts ⊆ us) : a.Aligned us := by
  obtain ⟨hsolid, ⟨t, ht, hstart⟩, u, hu, hstop⟩ := h
  exact ⟨hsolid, ⟨t, hsub ht, hstart⟩, u, hsub hu, hstop⟩

theorem le_of_before (ha : a.Aligned ts) (hb : b.Aligned us)
    (h : ∀ t ∈ ts, ∀ u ∈ us, t.span.stop ≤ u.span.start) : a.stop ≤ b.start := by
  obtain ⟨-, -, t, ht, hstop⟩ := ha
  obtain ⟨-, ⟨u, hu, hstart⟩, -⟩ := hb
  rw [← hstop, ← hstart]
  exact h t ht u hu

theorem hull_eq (ha : a.Aligned ts) (hb : b.Aligned us) (h : a.stop ≤ b.start) :
    a.hull b = ⟨a.start, b.stop⟩ := by
  have hsolid := ha.solid
  have hsolid' := hb.solid
  rw [Span.hull, Nat.min_eq_left (by omega), Nat.max_eq_right (by omega)]

theorem hull (ha : a.Aligned ts) (hb : b.Aligned ts) (h : a.stop ≤ b.start) :
    (a.hull b).Aligned ts := by
  rw [ha.hull_eq hb h]
  exact ⟨ha.solid.trans_le (h.trans hb.solid.le), ha.starts, hb.stops⟩

/-- What stands between the first and the last of a hull lies in it. -/
theorem within_hull {c : Span} (ha : a.Aligned ts) (hb : b.Aligned us) (hfirst : a.stop ≤ c.start)
    (hlast : c.stop ≤ b.start) : c.Within (a.hull b) :=
  Span.within_hull (ha.solid.le.trans hfirst) (hlast.trans hb.solid.le)

theorem left_within_hull (hb : b.Aligned ts) (h : a.stop ≤ b.start) : a.Within (a.hull b) :=
  Span.within_hull (Nat.le_refl _) (h.trans hb.solid.le)

theorem right_within_hull (ha : a.Aligned ts) (h : a.stop ≤ b.start) : b.Within (a.hull b) :=
  Span.within_hull (ha.solid.le.trans h) (Nat.le_refl _)

end Span.Aligned

/-! ## Nodes over tokens -/

namespace Node

/-- A name is the text of an identifier, and a literal the value of a token, where the node
    stands. For the least integer there is a minus and then a token for `2 ^ 63`. -/
def ReadOff (ts : List Token) : Node → Prop
  | .literal span value =>
    (∃ t ∈ ts, t.literal? = some (.ok value) ∧ span = t.span) ∨
      value = .least ∧ ∃ sign number, [sign, number] <:+: ts ∧ sign.kind = .minus ∧
        number.kind = .int ∧ NumberToken.isMinMagnitude number.lexeme = true ∧
        span = sign.span.hull number.span
  | .name span text => ∃ t ∈ ts, t.kind = .ident ∧ span = t.span ∧ text = t.lexeme
  | _ => True

/-- The node stands over some of the tokens, and its parts stand in it, one after the other. -/
structure Seated (ts : List Token) (n : Node) : Prop where
  aligned : n.span.Aligned ts
  partsAligned : ∀ a ∈ n.parts, a.Aligned ts
  inside : ∀ a ∈ n.parts, a.Within n.span
  ordered : n.parts.Pairwise fun a b => a.stop ≤ b.start
  idents : ∀ i ∈ n.idents, ∃ t ∈ ts, t.kind = .ident ∧ i = ⟨t.lexeme, t.span⟩
  readOff : n.ReadOff ts

theorem ReadOff.mono {ts us : List Token} {n : Node} (h : n.ReadOff ts) (hsub : ts <:+: us) :
    n.ReadOff us := by
  cases n with
  | literal span value =>
      refine h.imp ?_ ?_
      · rintro ⟨t, ht, hread⟩
        exact ⟨t, hsub.subset ht, hread⟩
      · rintro ⟨hleast, sign, number, hadjacent, hread⟩
        exact ⟨hleast, sign, number, hadjacent.trans hsub, hread⟩
  | name span text =>
      obtain ⟨t, ht, hread⟩ := h
      exact ⟨t, hsub.subset ht, hread⟩
  | _ => trivial

theorem Seated.mono {ts us : List Token} {n : Node} (h : n.Seated ts) (hsub : ts <:+: us) :
    n.Seated us where
  aligned := h.aligned.mono hsub.subset
  partsAligned := fun a ha => (h.partsAligned a ha).mono hsub.subset
  inside := h.inside
  ordered := h.ordered
  idents := fun i hi => by
    obtain ⟨t, ht, hident⟩ := h.idents i hi
    exact ⟨t, hsub.subset ht, hident⟩
  readOff := h.readOff.mono hsub

/-- The trees stand over the tokens, one after the other, with all nodes in them. -/
structure AllSeated (ts : List Token) (nodes : List Node) : Prop where
  ordered : nodes.Pairwise fun n m => n.span.stop ≤ m.span.start
  seated : ∀ n, Occurs nodes n → n.Seated ts

namespace AllSeated

variable {ts us mid : List Token} {nodes others : List Node} {n : Node}

theorem nil (ts : List Token) : AllSeated ts [] :=
  ⟨.nil, fun _ h => absurd h not_occurs_nil⟩

theorem aligned (h : AllSeated ts nodes) : ∀ n ∈ nodes, n.span.Aligned ts :=
  fun n hn => (h.seated n (.root hn)).aligned

theorem mono (h : AllSeated ts nodes) (hsub : ts <:+: us) : AllSeated us nodes :=
  ⟨h.ordered, fun n hn => (h.seated n hn).mono hsub⟩

/-- The trees of tokens that follow are put after the others. -/
theorem append (hts : InOrder (ts ++ mid ++ us)) (h : AllSeated ts nodes)
    (h' : AllSeated us others) : AllSeated (ts ++ mid ++ us) (nodes ++ others) where
  ordered := by
    obtain ⟨-, -, hbefore⟩ := Token.inOrder_append.mp hts
    refine List.pairwise_append.mpr ⟨h.ordered, h'.ordered, fun n hn m hm => ?_⟩
    have hstands := (h.aligned n hn).mono (List.subset_append_left ts mid)
    exact hstands.le_of_before (h'.aligned m hm) hbefore
  seated := fun n hn => by
    rcases occurs_append.mp hn with hn | hn
    · have hfront := (List.prefix_append ts mid).trans (List.prefix_append _ us)
      exact (h.seated n hn).mono hfront.isInfix
    · exact (h'.seated n hn).mono (List.suffix_append _ us).isInfix

/-- A new root over trees, whose identifiers stand before them. -/
theorem node (hts : InOrder ts) (hchildren : AllSeated ts n.children)
    (hidents : ∀ i ∈ n.idents, ∃ t ∈ ts, t.kind = .ident ∧ i = ⟨t.lexeme, t.span⟩)
    (hfirst : (n.idents.map Ident.span).Pairwise fun a b => a.stop ≤ b.start)
    (hbefore : ∀ i ∈ n.idents, ∀ m ∈ n.children, i.span.stop ≤ m.span.start)
    (haligned : n.span.Aligned ts) (hinside : ∀ a ∈ n.parts, a.Within n.span)
    (hread : n.ReadOff ts) : AllSeated ts [n] where
  ordered := List.pairwise_singleton _ _
  seated := fun m hm => by
    rcases occurs_singleton.mp hm with rfl | hm
    · refine ⟨haligned, fun a ha => ?_, hinside, ?_, hidents, hread⟩
      · rcases List.mem_append.mp ha with ha | ha
        · obtain ⟨i, hi, rfl⟩ := List.mem_map.mp ha
          obtain ⟨t, ht, -, rfl⟩ := hidents i hi
          exact .token hts ht
        · obtain ⟨c, hc, rfl⟩ := List.mem_map.mp ha
          exact hchildren.aligned c hc
      · refine List.pairwise_append.mpr ⟨hfirst, List.pairwise_map.mpr hchildren.ordered, ?_⟩
        intro a ha b hb
        obtain ⟨i, hi, rfl⟩ := List.mem_map.mp ha
        obtain ⟨c, hc, rfl⟩ := List.mem_map.mp hb
        exact hbefore i hi c hc
    · exact hchildren.seated m hm

/-- A node without identifiers. -/
theorem plain (hts : InOrder ts) (hnone : n.idents = []) (hchildren : AllSeated ts n.children)
    (haligned : n.span.Aligned ts) (hinside : ∀ m ∈ n.children, m.span.Within n.span)
    (hread : n.ReadOff ts) : AllSeated ts [n] := by
  refine node hts hchildren ?_ ?_ ?_ haligned ?_ hread
  · simp [hnone]
  · simp [hnone]
  · simp [hnone]
  · intro a ha
    rw [parts, hnone, List.map_nil, List.nil_append] at ha
    obtain ⟨m, hm, rfl⟩ := List.mem_map.mp ha
    exact hinside m hm

/-- A node with one identifier. -/
theorem named {t : Token} (hts : InOrder ts) (hone : n.idents = [⟨t.lexeme, t.span⟩]) (ht : t ∈ ts)
    (hkind : t.kind = .ident) (hchildren : AllSeated ts n.children)
    (hbefore : ∀ m ∈ n.children, t.span.stop ≤ m.span.start) (haligned : n.span.Aligned ts)
    (hname : t.span.Within n.span) (hinside : ∀ m ∈ n.children, m.span.Within n.span)
    (hread : n.ReadOff ts) : AllSeated ts [n] := by
  refine node hts hchildren ?_ ?_ ?_ haligned ?_ hread
  · rw [hone, List.forall_mem_singleton]
    exact ⟨t, ht, hkind, rfl⟩
  · rw [hone]
    exact List.pairwise_singleton _ _
  · rw [hone, List.forall_mem_singleton]
    exact hbefore
  · intro a ha
    rw [parts, hone] at ha
    rcases List.mem_append.mp ha with ha | ha
    · rw [List.mem_singleton.mp ha]
      exact hname
    · obtain ⟨m, hm, rfl⟩ := List.mem_map.mp ha
      exact hinside m hm

/-! ## One rule of the grammar -/

theorem literal {span : Span} {value : Literal} (hts : InOrder ts) (haligned : span.Aligned ts)
    (hread : (Node.literal span value).ReadOff ts) : AllSeated ts [.literal span value] :=
  plain hts rfl (.nil ts) haligned (fun _ hm => nomatch hm) hread

theorem name {t : Token} (hts : InOrder [t]) (hkind : t.kind = .ident) :
    AllSeated [t] [.name t.span t.lexeme] := by
  have hmem := List.mem_singleton_self t
  exact plain hts rfl (.nil _) (.token hts hmem) (fun _ hm => nomatch hm) ⟨t, hmem, hkind, rfl, rfl⟩

theorem negate {sign : Token} {operand : Node} (hts : InOrder ([sign] ++ ts))
    (h : AllSeated ts [operand]) :
    AllSeated ([sign] ++ ts) [.negate (sign.span.hull operand.span) operand] := by
  obtain ⟨hsign, -, hbefore⟩ := Token.inOrder_append.mp hts
  have hchild := h.mono (List.suffix_append [sign] ts).isInfix
  have hmem := List.mem_singleton_self operand
  have hle := (Span.Aligned.token hsign (List.mem_singleton_self sign)).le_of_before
    (h.aligned operand hmem) hbefore
  have hstart : sign.span.Aligned ([sign] ++ ts) := .token hts List.mem_cons_self
  refine plain hts rfl hchild (hstart.hull (hchild.aligned operand hmem) hle) ?_ trivial
  exact List.forall_mem_singleton.mpr (hstart.right_within_hull hle)

theorem binary {op : BinaryOp} {lhs rhs : Node} (hts : InOrder (ts ++ mid ++ us))
    (hl : AllSeated ts [lhs]) (hr : AllSeated us [rhs]) :
    AllSeated (ts ++ mid ++ us) [.binary (lhs.span.hull rhs.span) op lhs rhs] := by
  have hboth := append hts hl hr
  have hlhs := hboth.aligned lhs (by simp)
  have hrhs := hboth.aligned rhs (by simp)
  have hle : lhs.span.stop ≤ rhs.span.start := by simpa using hboth.ordered
  refine plain hts rfl hboth (hlhs.hull hrhs hle) ?_ trivial
  have hinside := And.intro (hrhs.left_within_hull hle) (hlhs.right_within_hull hle)
  simpa [children, Node.span] using hinside

theorem conditional {word : Token} {form : ConditionalForm} {vs : List Token}
    {test thenArm elseArm : Node} (hts : InOrder ([word] ++ ts ++ us ++ mid ++ vs))
    (htest : AllSeated ts [test]) (hthen : AllSeated us [thenArm])
    (helse : AllSeated vs [elseArm]) :
    AllSeated ([word] ++ ts ++ us ++ mid ++ vs)
      [.conditional (word.span.hull elseArm.span) form test thenArm elseArm] := by
  have hwhole : [word] ++ ts ++ us ++ mid ++ vs = [word] ++ (ts ++ [] ++ us ++ mid ++ vs) := by
    simp
  rw [hwhole] at hts ⊢
  obtain ⟨hword, harms, hbefore⟩ := Token.inOrder_append.mp hts
  obtain ⟨hfirst, -, -⟩ := Token.inOrder_append.mp (Token.inOrder_append.mp harms).1
  have hall := append harms (append hfirst htest hthen) helse
  have hchildren := hall.mono (List.suffix_append [word] _).isInfix
  have hstart : word.span.Aligned ([word] ++ (ts ++ [] ++ us ++ mid ++ vs)) :=
    .token hts List.mem_cons_self
  have hafter : ∀ m ∈ [test] ++ [thenArm] ++ [elseArm], word.span.stop ≤ m.span.start :=
    fun m hm => (Span.Aligned.token hword (List.mem_singleton_self word)).le_of_before
      (hall.aligned m hm) hbefore
  have hlast := hchildren.aligned elseArm (by simp)
  have hordered := hall.ordered
  simp only [List.nil_append, List.cons_append, List.pairwise_cons, List.mem_cons,
    List.not_mem_nil, or_false, forall_eq_or_imp, forall_eq] at hordered hafter
  obtain ⟨⟨-, htest'⟩, hthen', -⟩ := hordered
  obtain ⟨hafter, hafter', hafter''⟩ := hafter
  refine plain hts rfl hchildren (hstart.hull hlast hafter'') ?_ trivial
  have hinside := And.intro (hstart.within_hull hlast hafter htest')
    (And.intro (hstart.within_hull hlast hafter' hthen') (hstart.right_within_hull hafter''))
  simpa [children, Node.span] using hinside

/-- What stands between a first and a last token. -/
theorem between {first last : Token} (hts : InOrder ([first] ++ ts ++ [last]))
    (h : AllSeated ts nodes) :
    (first.span.hull last.span).Aligned ([first] ++ ts ++ [last]) ∧
      ∀ m ∈ nodes, first.span.stop ≤ m.span.start ∧ m.span.Within (first.span.hull last.span) := by
  obtain ⟨hleft, hright, hbefore'⟩ := Token.inOrder_append.mp hts
  obtain ⟨hfirst, -, hbefore⟩ := Token.inOrder_append.mp hleft
  have hopen := Span.Aligned.token hfirst (List.mem_singleton_self first)
  have hclose := Span.Aligned.token hright (List.mem_singleton_self last)
  refine ⟨?_, fun m hm => ?_⟩
  · refine Span.Aligned.hull (.token hts (by simp)) (.token hts (by simp)) ?_
    exact hbefore' first (by simp) last (by simp)
  · have hstands := h.aligned m hm
    have hle := hopen.le_of_before hstands hbefore
    have hle' := (hstands.mono (List.subset_append_right [first] ts)).le_of_before hclose hbefore'
    exact ⟨hle, hopen.within_hull hclose hle hle'⟩

theorem call {callee closing : Token} {args : List Node}
    (hts : InOrder ([callee] ++ ts ++ [closing])) (hkind : callee.kind = .ident)
    (h : AllSeated ts args) :
    AllSeated ([callee] ++ ts ++ [closing])
      [.call (callee.span.hull closing.span) ⟨callee.lexeme, callee.span⟩ args] := by
  obtain ⟨haligned, hargs⟩ := between hts h
  obtain ⟨-, hright, hbefore⟩ := Token.inOrder_append.mp hts
  have hclose := Span.Aligned.token hright (List.mem_singleton_self closing)
  refine named hts rfl (by simp) hkind (h.mono (List.infix_append _ _ _))
    (fun m hm => (hargs m hm).1) haligned ?_ (fun m hm => (hargs m hm).2) trivial
  exact hclose.left_within_hull (hbefore callee (by simp) closing (by simp))

theorem function {word ident closing : Token} {body : List Node}
    (hts : InOrder ([word] ++ ([ident] ++ ts) ++ [closing])) (hkind : ident.kind = .ident)
    (h : AllSeated ts body) :
    AllSeated ([word] ++ ([ident] ++ ts) ++ [closing])
      [.function (word.span.hull closing.span) ⟨ident.lexeme, ident.span⟩ [] body] := by
  have hinner := h.mono (List.suffix_append [ident] ts).isInfix
  obtain ⟨haligned, hbody⟩ := between hts hinner
  obtain ⟨hleft, hright, hlast⟩ := Token.inOrder_append.mp hts
  obtain ⟨hword, hrest, hfirst⟩ := Token.inOrder_append.mp hleft
  obtain ⟨hident, -, hbefore⟩ := Token.inOrder_append.mp hrest
  have hopen := Span.Aligned.token hword (List.mem_singleton_self word)
  have hclose := Span.Aligned.token hright (List.mem_singleton_self closing)
  have hname := Span.Aligned.token hident (List.mem_singleton_self ident)
  refine named hts rfl (by simp) hkind (hinner.mono (List.infix_append _ _ _))
    (fun m hm => hname.le_of_before (h.aligned m hm) hbefore) haligned ?_
    (fun m hm => (hbody m hm).2) trivial
  exact hopen.within_hull hclose (hfirst word (by simp) ident (by simp))
    (hlast ident (by simp) closing (by simp))

end AllSeated

end Node

open Node (AllSeated)

/-- All that derives from tokens in order stands over them, but for the end marker. -/
theorem Derives.seated {loose : Bool} {N : Nonterminal} {ts : List Token} {nodes : List Node}
    (h : Derives loose N ts nodes) (hN : N ≠ .fragment) (hts : InOrder ts) :
    AllSeated ts nodes := by
  induction h with
  | blank | fragment => exact absurd rfl hN
  | single _ ih | definition _ ih | evaluation _ ih | choice _ ih | operators _ ih | tighter _ ih
  | tightest _ ih | primary _ ih | selection _ ih | argument _ ih => exact ih (by simp) hts
  | sequence _ _ _ _ ih ih' | arguments _ _ _ ih ih' =>
      obtain ⟨hleft, hright, -⟩ := Token.inOrder_append.mp hts
      obtain ⟨hfirst, -, -⟩ := Token.inOrder_append.mp hleft
      exact .append hts (ih (by simp) hfirst) (ih' (by simp) hright)
  | operation _ _ _ ih ih' =>
      obtain ⟨hleft, hright, -⟩ := Token.inOrder_append.mp hts
      obtain ⟨hfirst, -, -⟩ := Token.inOrder_append.mp hleft
      exact .binary hts (ih (by simp) hfirst) (ih' (by simp) hright)
  | conditional _ _ _ _ _ ih ih' ih'' =>
      obtain ⟨hupto, helse, -⟩ := Token.inOrder_append.mp hts
      obtain ⟨harms, -, -⟩ := Token.inOrder_append.mp hupto
      obtain ⟨hfirst, hthen, -⟩ := Token.inOrder_append.mp harms
      obtain ⟨-, htest, -⟩ := Token.inOrder_append.mp hfirst
      exact .conditional hts (ih (by simp) htest) (ih' (by simp) hthen) (ih'' (by simp) helse)
  | negation _ _ ih => exact .negate hts (ih (by simp) (Token.inOrder_append.mp hts).2.1)
  | @least sign number hsign hnumber hleast =>
      have hle : sign.span.stop ≤ number.span.start := by simpa using hts.ordered
      have haligned := (Span.Aligned.token hts (by simp)).hull (.token hts (by simp)) hle
      exact .literal hts haligned
        (.inr ⟨rfl, sign, number, List.infix_rfl, hsign, hnumber, hleast, rfl⟩)
  | @literal t value h =>
      have hmem := List.mem_singleton_self t
      exact .literal hts (.token hts hmem) (.inl ⟨t, hmem, h, rfl⟩)
  | name h => exact .name hts h
  | @function word name opening closing left right before ts after body _ hname _ _ _ _ _ _ _ ih =>
      have hwhole : [word, name, opening, closing, left] ++ (before ++ ts ++ after ++ [right]) =
          [word] ++ ([name] ++ ([opening, closing, left] ++ before ++ ts ++ after)) ++ [right] := by
        simp
      rw [hwhole] at hts ⊢
      have hinfix : ts <:+: [opening, closing, left] ++ before ++ ts ++ after :=
        List.infix_append _ _ _
      have hnamed := hinfix.trans (List.suffix_append [name] _).isInfix
      have hinner : InOrder ts := hts.sublist (hnamed.trans (List.infix_append _ _ _)).sublist
      exact .function hts hname ((ih (by simp) hinner).mono hinfix)
  | callEmpty hcallee hopening hclosing => exact .call hts hcallee (.nil [_])
  | @call callee opening closing ts args hcallee _ _ _ ih =>
      have hinner : InOrder ts := hts.sublist (List.infix_append _ _ _).sublist
      exact .call hts hcallee ((ih (by simp) hinner).mono (List.suffix_append [opening] ts).isInfix)
  | @callTrailing callee opening comma closing ts args _ hcallee _ _ _ _ ih =>
      have hinner : InOrder ts := hts.sublist (List.infix_append _ _ _).sublist
      have hwhole : [callee, opening] ++ ts ++ [comma, closing] =
          [callee] ++ ([opening] ++ ts ++ [comma]) ++ [closing] := by simp
      rw [hwhole] at hts ⊢
      exact .call hts hcallee ((ih (by simp) hinner).mono (List.infix_append _ _ _))
  | parentheses _ _ _ ih =>
      obtain ⟨hleft, -, -⟩ := Token.inOrder_append.mp hts
      obtain ⟨-, hinner, -⟩ := Token.inOrder_append.mp hleft
      exact (ih (by simp) hinner).mono (List.infix_append _ _ _)

/-! ## Neighbours in a source -/

namespace Token

variable {pos : Nat} {cs : List Char} {ts : List Token} {t u : Token}

/-- A comment goes on to the end of its line. -/
theorem munch_comment {c : Char} (h : (munch c cs).1 = .comment) :
    (munch c cs).2 = (cs.takeWhile (· != '\n')).length := by
  have hreserved : ∀ entry ∈ reserved, entry.2 ≠ .comment := by decide
  unfold munch at h ⊢
  split_ifs at h ⊢ with hdigit hword
  · rcases numberTail_kind (cs.drop (digitRun cs)) with hkind | hkind | hkind <;>
      simp [munchNumber, hkind] at h
  · have hkind : wordKind (c :: cs.takeWhile isWordChar) = .comment := h
    have hmem := mem_reserved_of_wordKind (by rw [hkind]; exact TokenKind.noConfusion)
    exact absurd hkind (hreserved _ hmem)
  · rcases munchSymbol_kind c cs with (hfixed | hunknown) | ⟨-, hnewline⟩ | ⟨-, -, hcomment⟩
    · rw [h] at hfixed
      cases hfixed
    · rw [h] at hunknown
      cases hunknown
    · rw [hnewline] at h
      cases h
    · rw [hcomment]

/-- After a comment a line ends. -/
theorem scanFrom_comments (pos : Nat) (cs : List Char) :
    (scanFrom pos cs).IsChain fun t u => t.kind = .comment → u.kind = .newline := by
  fun_induction scanFrom pos cs with
  | case1 => exact .nil
  | case2 pos c cs _ ih => exact ih
  | case3 pos c cs _ kind more hm lexeme stop ih =>
      refine List.isChain_cons.mpr ⟨fun u hu hkind => ?_, ih⟩
      have hcomment : (munch c cs).1 = .comment := by rw [hm]; exact hkind
      have hmore : more = (cs.takeWhile (· != '\n')).length := by
        have hlength := munch_comment hcomment
        rwa [hm] at hlength
      have hdrop := congrArg (List.drop more)
        (List.takeWhile_append_dropWhile (p := (· != '\n')) (l := cs))
      rw [hmore, List.drop_left, ← hmore] at hdrop
      rw [← hdrop] at hu
      have hhead := List.head?_dropWhile_not (· != '\n') cs
      cases hrest : cs.dropWhile (· != '\n') with
      | nil =>
          rw [hrest, scanFrom] at hu
          cases hu
      | cons d rest =>
          rw [hrest] at hu hhead
          obtain rfl : d = '\n' := by simpa using hhead
          have hnil : scanFrom stop [] = [] := by rw [scanFrom]
          have hscan := scanFrom_newline stop [] rest
          rw [hnil] at hscan
          rw [show scanFrom stop ('\n' :: rest) = _ from hscan] at hu
          obtain rfl := Option.some.inj hu
          rfl

/-- Tokens that are neighbours but for comments are neighbours, unless the second is a newline. -/
theorem neighbours_of_filter
    (h : ts.IsChain fun t u => t.kind = .comment → u.kind = .newline)
    (hfilter : [t, u] <:+: ts.filter (!·.kind.isTrivia)) (hu : u.kind ≠ .newline) :
    [t, u] <:+: ts := by
  induction ts with
  | nil => exact absurd (List.infix_nil.mp hfilter) (List.cons_ne_nil _ _)
  | cons first rest ih =>
      obtain ⟨hnext, hrest⟩ := List.isChain_cons.mp h
      by_cases htrivia : first.kind.isTrivia = true
      · rw [List.filter_cons_of_neg (by simp [htrivia])] at hfilter
        exact List.infix_cons (ih hrest hfilter)
      · rw [List.filter_cons_of_pos (by simp [htrivia]), List.infix_cons_iff] at hfilter
        rcases hfilter with hfirst | hlater
        · obtain ⟨rfl, hsecond⟩ := List.cons_prefix_cons.mp hfirst
          cases rest with
          | nil => exact absurd (List.prefix_nil.mp hsecond) (List.cons_ne_nil _ _)
          | cons second rest =>
              by_cases htrivia' : second.kind.isTrivia = true
              · -- A comment is followed by a newline, and that is not the token in question.
                rw [List.filter_cons_of_neg (by simp [htrivia'])] at hsecond
                cases rest with
                | nil => exact absurd (List.prefix_nil.mp hsecond) (List.cons_ne_nil _ _)
                | cons third rest =>
                    have hcomment : second.kind = .comment := by
                      revert htrivia'
                      cases second.kind <;> simp [TokenKind.isTrivia]
                    have hthird := (List.isChain_cons.mp hrest).1 third rfl hcomment
                    rw [List.filter_cons_of_pos (by rw [hthird]; rfl)] at hsecond
                    obtain ⟨rfl, -⟩ := List.cons_prefix_cons.mp hsecond
                    exact absurd hthird hu
              · rw [List.filter_cons_of_pos (by simp [htrivia'])] at hsecond
                obtain ⟨rfl, -⟩ := List.cons_prefix_cons.mp hsecond
                exact ⟨[], rest, rfl⟩
        · exact List.infix_cons (ih hrest hlater)

/-- The first token and the blanks before it. -/
theorem Tiles.first (h : Tiles pos cs (t :: ts)) :
    ∃ blanks rest, cs = blanks ++ t.lexeme.toList ++ rest ∧ (∀ c ∈ blanks, isBlank c = true) ∧
      t.span = ⟨pos + byteLength blanks, pos + byteLength (blanks ++ t.lexeme.toList)⟩ ∧
      Tiles t.span.stop rest ts := by
  generalize hts : t :: ts = tokens at h
  induction h with
  | done => cases hts
  | @blank pos c cs _ hc _ ih =>
      obtain ⟨blanks, rest, rfl, hblanks, hspan, hrest⟩ := ih hts
      refine ⟨c :: blanks, rest, by simp, ?_, ?_, hrest⟩
      · exact List.forall_mem_cons.mpr ⟨hc, hblanks⟩
      · rw [hspan, List.cons_append, byteLength_cons, byteLength_cons, Nat.add_assoc, Nat.add_assoc]
  | @token pos kind c more cs _ _ hrest _ =>
      obtain ⟨rfl, rfl⟩ := List.cons.inj hts
      exact ⟨[], cs, by simp, by simp, by simp, hrest⟩

/-- Neighbours have nothing but blanks between them. -/
theorem Tiles.neighbours (h : Tiles pos cs ts) (hts : [t, u] <:+: ts) :
    ∃ before blanks after, (∀ c ∈ blanks, isBlank c = true) ∧
      cs = before ++ (t.lexeme.toList ++ blanks ++ u.lexeme.toList) ++ after ∧
      t.span.start = pos + byteLength before ∧
      u.span.stop =
        pos + byteLength (before ++ (t.lexeme.toList ++ blanks ++ u.lexeme.toList)) := by
  induction ts generalizing pos cs with
  | nil => exact absurd (List.infix_nil.mp hts) (List.cons_ne_nil _ _)
  | cons first rest ih =>
      obtain ⟨blanks, left, rfl, hblanks, hspan, hleft⟩ := h.first
      rcases List.infix_cons_iff.mp hts with hfirst | hlater
      · obtain ⟨rfl, hsecond⟩ := List.cons_prefix_cons.mp hfirst
        obtain ⟨others, rfl⟩ := hsecond
        obtain ⟨blanks', after, rfl, hblanks', hspan', -⟩ := hleft.first
        refine ⟨blanks, blanks', after, hblanks', by simp, by rw [hspan], ?_⟩
        rw [hspan', hspan]
        simp only [byteLength_append]
        omega
      · obtain ⟨before, blanks', after, hblanks', rfl, hstart, hstop⟩ := ih hleft hlater
        refine ⟨blanks ++ first.lexeme.toList ++ before, blanks', after, hblanks', by simp, ?_, ?_⟩
        · rw [hstart, hspan]
          simp only [byteLength_append]
          omega
        · rw [hstop, hspan]
          simp only [byteLength_append]
          omega

end Token

/-! ## Nodes in their source -/

/-- The token stands where the span is, and its lexeme is the text there. -/
structure Token.Fills (source : String) (span : Span) (t : Token) : Prop where
  mem : t ∈ scan source
  place : t.span = span
  text : span.slice source = t.lexeme

theorem Token.fills_of_mem {source : String} {t : Token} (h : t ∈ scan source) :
    t.Fills source t.span := by
  have hplaced := (scanFrom_tiles 0 source.toList).placed [] rfl t h
  rw [List.nil_append, String.ofList_toList] at hplaced
  exact ⟨h, rfl, hplaced.slice⟩

/-- The text is a minus, blanks and the lexeme of a token for `2 ^ 63`, and the span runs from the
    minus to the end of that token. -/
structure Span.CoversLeast (source : String) (span : Span) (sign number : Token)
    (blanks : List Char) : Prop where
  minus : sign ∈ Token.scan source ∧ sign.kind = .minus
  magnitude : number ∈ Token.scan source ∧ number.kind = .int ∧
    NumberToken.isMinMagnitude number.lexeme = true
  place : span = ⟨sign.span.start, number.span.stop⟩
  blank : ∀ c ∈ blanks, isBlank c = true
  text : span.slice source = "-" ++ String.ofList blanks ++ number.lexeme

namespace Node

/-- What the source has where a name or a literal stands. -/
def TextIn (source : String) : Node → Prop
  | .literal span value =>
    (∃ t : Token, t.Fills source span ∧ t.literal? = some (.ok value)) ∨
      value = .least ∧ ∃ sign number blanks, span.CoversLeast source sign number blanks
  | .name span text => ∃ t : Token, t.Fills source span ∧ t.kind = .ident ∧ t.lexeme = text
  | _ => True

/-- Where a node stands in its source, and where its parts stand. -/
structure Located (source : String) (n : Node) : Prop where
  nonempty : n.span.start < n.span.stop
  inSource : n.span.stop ≤ source.utf8ByteSize
  starts : ∃ t ∈ Token.scan source, t.span.start = n.span.start
  stops : ∃ t ∈ Token.scan source, t.span.stop = n.span.stop
  inside : ∀ a ∈ n.parts, a.start < a.stop ∧ a.Within n.span
  ordered : n.parts.Pairwise fun a b => a.stop ≤ b.start
  idents : ∀ i ∈ n.idents, ∃ t : Token, t.Fills source i.span ∧ t.kind = .ident ∧ t.lexeme = i.text
  text : n.TextIn source

end Node

theorem Stream.ofSource_inOrder (source : String) : InOrder (ofSource source).tokens where
  solid := ofSource_solid source
  ordered := (List.pairwise_append.mp (ofSource_laid source).tokens.pairwise).1

theorem Fragment.parse_seated {source : String} {f : Fragment} (h : parse source = .ok f) :
    AllSeated (Stream.ofSource source).tokens f.nodes := by
  have hts := Stream.ofSource_inOrder source
  have hderives := parse_derives h
  obtain ⟨nodes⟩ := f
  generalize hsig : Token.significant source = tokens at hderives
  rw [Token.significant_eq] at hsig
  cases hderives with
  | blank => exact .nil _
  | @fragment before ts after last _ _ hnodes =>
      have htokens := List.append_inj_left' hsig rfl
      rw [htokens] at hts ⊢
      have hinfix : ts <:+: before ++ ts ++ after := List.infix_append _ _ _
      exact (hnodes.seated (by simp) (hts.sublist hinfix.sublist)).mono hinfix

namespace Node

variable {source : String} {n : Node}

/-- A minus and a number that are neighbours but for comments have only blanks between them. -/
theorem coversLeast {sign number : Token}
    (hadjacent : [sign, number] <:+: (Stream.ofSource source).tokens) (hsign : sign.kind = .minus)
    (hnumber : number.kind = .int) (hmagnitude : NumberToken.isMinMagnitude number.lexeme = true) :
    ∃ blanks, (sign.span.hull number.span).CoversLeast source sign number blanks := by
  have hpair := (Stream.ofSource_inOrder source).sublist hadjacent.sublist
  have hle : sign.span.stop ≤ number.span.start := by simpa using hpair.ordered
  have hhull := (Span.Aligned.token hpair (by simp)).hull_eq (.token hpair (by simp)) hle
  have hneighbours : [sign, number] <:+: Token.scan source :=
    Token.neighbours_of_filter (Token.scanFrom_comments 0 _) hadjacent
      (by rw [hnumber]; exact TokenKind.noConfusion)
  have hmem : sign ∈ Token.scan source := hneighbours.subset (by simp)
  have hmem' : number ∈ Token.scan source := hneighbours.subset (by simp)
  have hminus : sign.lexeme = "-" := by
    rw [Token.scanFrom_spells _ _ sign hmem (by rw [hsign]; rfl), hsign]
    rfl
  obtain ⟨before, blanks, after, hblanks, hsource, hstart, hstop⟩ :=
    (Token.scanFrom_tiles 0 source.toList).neighbours hneighbours
  refine ⟨blanks, ⟨hmem, hsign⟩, ⟨hmem', hnumber, hmagnitude⟩, hhull, hblanks, ?_⟩
  have hslice := Span.slice_between before (sign.lexeme.toList ++ blanks ++ number.lexeme.toList)
    after
  rw [← hsource, String.ofList_toList] at hslice
  rw [hhull, hstart, hstop, Nat.zero_add, Nat.zero_add, hslice, String.ofList_append,
    String.ofList_append, String.ofList_toList, String.ofList_toList, hminus]

theorem ReadOff.textIn (h : n.ReadOff (Stream.ofSource source).tokens) : n.TextIn source := by
  cases n with
  | literal span value =>
      refine h.imp ?_ ?_
      · rintro ⟨t, ht, hvalue, rfl⟩
        exact ⟨t, Token.fills_of_mem (List.mem_of_mem_filter ht), hvalue⟩
      · rintro ⟨hleast, sign, number, hadjacent, hsign, hnumber, hmagnitude, rfl⟩
        exact ⟨hleast, sign, number, coversLeast hadjacent hsign hnumber hmagnitude⟩
  | name span text =>
      obtain ⟨t, ht, hkind, rfl, rfl⟩ := h
      exact ⟨t, Token.fills_of_mem (List.mem_of_mem_filter ht), hkind, rfl⟩
  | _ => trivial

theorem Seated.located (h : n.Seated (Stream.ofSource source).tokens) : n.Located source where
  nonempty := h.aligned.solid
  inSource := by
    obtain ⟨t, ht, hstop⟩ := h.aligned.stops
    have hlaid := (Stream.ofSource_laid source).tokens.pairwise
    rw [← hstop, ← byteLength_toList]
    exact (List.pairwise_append.mp hlaid).2.2 t ht _ (List.mem_singleton_self _)
  starts := by
    obtain ⟨t, ht, hstart⟩ := h.aligned.starts
    exact ⟨t, List.mem_of_mem_filter ht, hstart⟩
  stops := by
    obtain ⟨t, ht, hstop⟩ := h.aligned.stops
    exact ⟨t, List.mem_of_mem_filter ht, hstop⟩
  inside := fun a ha => ⟨(h.partsAligned a ha).solid, h.inside a ha⟩
  ordered := h.ordered
  idents := fun i hi => by
    obtain ⟨t, ht, hkind, rfl⟩ := h.idents i hi
    exact ⟨t, Token.fills_of_mem (List.mem_of_mem_filter ht), hkind, rfl⟩
  text := h.readOff.textIn

end Node

/-- The nodes of a fragment stand one after the other. Each node of the trees runs from the start of
    a token to the end of one, with its parts in their order in it, and the text under a name, an
    identifier or a literal is the lexeme of the token that it was read from. -/
theorem spans_nest {source : String} {f : Fragment} (h : Fragment.parse source = .ok f) :
    f.nodes.Pairwise (fun n m => n.span.stop ≤ m.span.start) ∧
      ∀ n, Occurs f.nodes n → n.Located source := by
  have hall := Fragment.parse_seated h
  exact ⟨hall.ordered, fun n hn => (hall.seated n hn).located⟩

/-- A definition with the least integer in its body, and calls and conditionals on the next line. -/
theorem nestedSource_spans_nest : ∃ f n, Fragment.parse nestedSource = .ok f ∧ n ∈ f.nodes ∧
    n.Located nestedSource ∧ f.nodes.Pairwise (fun n m => n.span.stop ≤ m.span.start) := by
  have hok : ((Fragment.parse nestedSource).toOption.bind (·.nodes.head?)).isSome = true := by
    decide +kernel
  rcases hf : Fragment.parse nestedSource with errors | f
  · rw [hf] at hok
    cases hok
  · obtain ⟨hordered, hlocated⟩ := spans_nest hf
    rw [hf] at hok
    obtain ⟨n, hn⟩ := Option.isSome_iff_exists.mp hok
    have hmem : n ∈ f.nodes := List.mem_of_mem_head? hn
    exact ⟨f, n, rfl, hmem, hlocated n (.root hmem), hordered⟩

end ScalarLang
