import Mathlib
import ScalarLang.Proofs.Session.Residue

/-
  Splitting a fragment.
  A fragment adds its definitions one by one and then makes an entry point of its statements. So
  definitions at its start can be added as a fragment of their own first, and it does not matter
  where among the statements a definition stands. What is between two fragments is that the second
  one retires the entry point that the first one left; after definitions alone there is none.
-/

namespace ScalarLang

/-- The sessions that can be reached: a new one over any table of types, and what fragments, runs
    and resets leave of one that was reached. -/
inductive Session.Reachable : Session → Prop where
  | new (types : TypeTable) : Reachable (.new types)
  | lowerFragment {s : Session} (f : Fragment) : Reachable s → Reachable (s.lowerFragment f).2
  | execute {s : Session} (engine : Engine) (entry : String) :
      Reachable s → Reachable (s.execute engine entry).2.1
  | reset {s : Session} : Reachable s → Reachable s.reset

namespace Session

variable {s : Session}

theorem Reachable.compile (h : s.Reachable) (source : String) :
    (s.compile source).2.Reachable := by
  rcases hparse : Fragment.parse source with errors | f
  · simp only [Session.compile, hparse]
    exact h
  · rw [Session.compile_eq hparse]
    exact h.lowerFragment f

/-! ## Where entry points stand -/

/-- Without the entry point that stands last, all routines are definitions. -/
def EntryLast (s : Session) : Prop := ∀ r ∈ s.program.retireEntry.routines, r.anonymous = false

end Session

theorem Program.retireEntry_of_named {p : Program} (h : ∀ r ∈ p.routines, r.anonymous = false) :
    p.retireEntry = p := by
  obtain ⟨pending, hsplit, -, hpending⟩ := p.retireEntry_append
  have hnil : pending = [] := by
    refine List.eq_nil_iff_forall_not_mem.mpr fun r hr => ?_
    have hnamed := h r (by rw [hsplit]; exact List.mem_append_right _ hr)
    rw [hpending r hr] at hnamed
    cases hnamed
  have hroutines : p.retireEntry.routines = p.routines := by
    rw [hnil, List.append_nil] at hsplit
    exact hsplit.symm
  have hcount := p.retireEntry_entryCount
  rcases hq : p.retireEntry with ⟨routines, entryCount⟩
  rw [hq] at hroutines hcount
  subst hroutines hcount
  rfl

theorem Program.Defines.named {p q : Program} {ds : List Definition} (h : p.Defines ds q)
    (hp : ∀ r ∈ p.routines, r.anonymous = false) : ∀ r ∈ q.routines, r.anonymous = false := by
  obtain ⟨-, added, hroutines, -, hadded⟩ := h.added
  intro r hr
  rw [hroutines] at hr
  exact (List.mem_append.mp hr).elim (hp r) (hadded r)

namespace Session

variable {s : Session}

theorem EntryLast.lowerFragment (h : s.EntryLast) (f : Fragment) :
    (s.lowerFragment f).2.EntryLast := by
  have hleaves := lowerFragment_leaves s f
  rcases hl : s.lowerFragment f with ⟨e | _ | entry, s'⟩ <;> rw [hl] at hleaves
  · obtain ⟨before, hbefore, -⟩ := hleaves
    have hnamed := hbefore.named h
    rwa [EntryLast, Program.retireEntry_of_named hnamed]
  · have hnamed := hleaves.named h
    rwa [EntryLast, Program.retireEntry_of_named hnamed]
  · obtain ⟨q, e, hq, hroutines, hanonymous⟩ := hleaves
    rw [EntryLast, Program.retireEntry_concat hroutines hanonymous]
    exact hq.named h

theorem Reachable.entryLast (h : s.Reachable) : s.EntryLast := by
  induction h with
  | new types => simp [EntryLast, Session.new, Program.empty, Program.retireEntry,
      Program.pendingEntry?]
  | lowerFragment f _ ih => exact ih.lowerFragment f
  | @execute s engine entry _ ih =>
      rw [EntryLast, Session.execute_program, Program.retireEntry_of_named ih]
      exact ih
  | reset _ _ => simp [EntryLast, Session.reset, Session.new, Program.empty, Program.retireEntry,
      Program.pendingEntry?]

/-! ## Adding a fragment in parts -/

/-- The session without the entry point that stands last. -/
def retired (s : Session) : Session := { s with program := s.program.retireEntry }

/-- Makes an entry point of statements, if there are any. -/
def enter (s : Session) (nodes : List Node) : Except LowerError (Option String) × Session :=
  if nodes.isEmpty then (.ok none, s)
  else match s.addEntry nodes with
    | (.ok name, s) => (.ok (some name), s)
    | (.error e, s) => (.error e, s)

theorem lowerFragment_eq (s : Session) (f : Fragment) :
    s.lowerFragment f = match s.retired.define f.definitions with
      | (.ok (), s') => s'.enter f.statements
      | (.error e, s') => (.error e, s') := by
  unfold Session.lowerFragment retired enter
  rcases hd : Session.define { s with program := s.program.retireEntry } f.definitions
    with ⟨e | _, s'⟩
  · simp only [hd]
  · dsimp only
    rewrite [hd]
    rfl

theorem define_append (s : Session) (ds ds' : List Definition) :
    s.define (ds ++ ds') = match s.define ds with
      | (.ok (), s') => s'.define ds'
      | (.error e, s') => (.error e, s') := by
  induction ds generalizing s with
  | nil => rfl
  | cons d rest ih =>
      rcases hd : Routine.ofDefinition s.program s.types d with ⟨e | r, types⟩
      · simp only [List.cons_append, Session.define, hd]
      · simp only [List.cons_append, Session.define, hd]
        exact ih _

/-- After definitions alone nothing is retired. -/
theorem EntryLast.define (h : s.EntryLast) {ds : List Definition} {s₁ : Session}
    (hd : s.retired.define ds = (.ok (), s₁)) : s₁.retired = s₁ := by
  have hdefines := define_defines s.retired ds
  rw [hd] at hdefines
  rw [retired, Program.retireEntry_of_named (hdefines.named h)]

/-- Takes nodes in the order in which they stand. A definition is added where it stands; a statement
    is held until all nodes were taken, when those that are held become the entry point. -/
def takeInOrder (s : Session) (held : List Node) :
    List Node → Except LowerError (Option String) × Session
  | [] => s.enter held
  | node :: rest =>
    match node.definition? with
    | none => takeInOrder s (held ++ [node]) rest
    | some d =>
      match Routine.ofDefinition s.program s.types d with
      | (.ok r, types) => takeInOrder ⟨types, s.program.commit r⟩ held rest
      | (.error e, types) => (.error e, { s with types })

/-- What is taken in order comes to the definitions first and then all statements. -/
theorem takeInOrder_eq (s : Session) (held nodes : List Node) :
    s.takeInOrder held nodes = match s.define (Fragment.mk nodes).definitions with
      | (.ok (), s') => s'.enter (held ++ (Fragment.mk nodes).statements)
      | (.error e, s') => (.error e, s') := by
  induction nodes generalizing s held with
  | nil =>
      rw [takeInOrder, Fragment.statements, List.filter_nil, List.append_nil]
      rfl
  | cons node rest ih =>
      unfold Fragment.definitions Fragment.statements at ih ⊢
      rcases hnode : node.definition? with _ | d
      · simp only [takeInOrder, hnode, ih, List.filterMap_cons, List.filter_cons,
          Option.isNone_none, if_true, List.append_assoc, List.singleton_append]
      · simp only [takeInOrder, hnode, List.filterMap_cons, List.filter_cons, Option.isNone_some,
          Bool.false_eq_true, if_false, Session.define]
        rcases Routine.ofDefinition s.program s.types d with ⟨e | r, types⟩
        · rfl
        · exact ih _ _

end Session

/-- The definitions of a fragment as nodes. -/
def Fragment.definitionNodes (f : Fragment) : List Node := f.nodes.filter (·.definition?.isSome)

theorem Fragment.definitions_split (f : Fragment) :
    (Fragment.mk (f.definitionNodes ++ f.statements)).definitions = f.definitions := by
  have hnone : f.statements.filterMap Node.definition? = [] :=
    List.filterMap_eq_nil_iff.mpr fun n hn => by simpa using (List.mem_filter.mp hn).2
  have hsome : f.definitionNodes.filterMap Node.definition? =
      f.nodes.filterMap Node.definition? := by
    rw [definitionNodes, List.filterMap_filter]
    refine List.filterMap_congr fun n _ => ?_
    cases n.definition? <;> rfl
  rw [definitions, definitions, List.filterMap_append, hnone, List.append_nil, hsome]

theorem Fragment.statements_split (f : Fragment) :
    (Fragment.mk (f.definitionNodes ++ f.statements)).statements = f.statements := by
  have hnone : f.definitionNodes.filter (·.definition?.isNone) = [] :=
    List.filter_eq_nil_iff.mpr fun n hn => by
      have := (List.mem_filter.mp hn).2
      cases h : n.definition? <;> simp_all
  rw [statements, List.filter_append, hnone, List.nil_append, statements, List.filter_filter]
  simp only [Bool.and_self]

/-- Splitting a fragment does not matter. In every session that can be reached, if definitions are
    added as a fragment of their own, then the rest of a fragment gives after them what the whole
    fragment gives, be it an entry point or an error, and leaves the same session, code included.
    And taking the nodes of a fragment in the order in which they stand comes to adding the
    fragment, as does moving its definitions before its statements. -/
theorem splitting_does_not_matter {s : Session} (hs : s.Reachable) :
    (∀ (ds rest : List Node) (result : Option String) (s₁ : Session),
      (∀ n ∈ ds, n.definition?.isSome = true) → s.lowerFragment ⟨ds⟩ = (.ok result, s₁) →
      s.lowerFragment ⟨ds ++ rest⟩ = s₁.lowerFragment ⟨rest⟩) ∧
    ∀ f : Fragment, s.retired.takeInOrder [] f.nodes = s.lowerFragment f ∧
      s.lowerFragment ⟨f.definitionNodes ++ f.statements⟩ = s.lowerFragment f := by
  refine ⟨fun ds rest result s₁ hds h => ?_, fun f => ⟨?_, ?_⟩⟩
  · have hnone : (Fragment.mk ds).statements = [] := List.filter_eq_nil_iff.mpr fun n hn => by
      have := hds n hn
      cases hn' : n.definition? <;> simp_all
    have hstatements : (Fragment.mk (ds ++ rest)).statements = (Fragment.mk rest).statements := by
      unfold Fragment.statements at hnone ⊢
      rw [List.filter_append, hnone, List.nil_append]
    have hdefinitions : (Fragment.mk (ds ++ rest)).definitions =
        (Fragment.mk ds).definitions ++ (Fragment.mk rest).definitions := List.filterMap_append
    rw [Session.lowerFragment_eq, hnone] at h
    rw [Session.lowerFragment_eq s, hstatements, hdefinitions, Session.define_append]
    rcases hd : s.retired.define (Fragment.mk ds).definitions with ⟨e | _, s'⟩
    · rw [hd] at h
      cases h
    · rw [hd] at h
      obtain rfl : s' = s₁ := congrArg Prod.snd h
      rw [Session.lowerFragment_eq s', hs.entryLast.define hd]
  · rw [Session.takeInOrder_eq, List.nil_append, Session.lowerFragment_eq]
  · rw [Session.lowerFragment_eq, f.definitions_split, f.statements_split, Session.lowerFragment_eq]

/-- A definition, and an entry point that is never executed. -/
def splitSession : Session := ((Session.new .empty).compile "def f() \x7b 7 \x7d; f()").2

/-- A fragment that defines two functions and calls them, and one that fails to. -/
def splitSources : List (String × String) :=
  [("def g() \x7b f() * 2 \x7d; def h() \x7b g() \x7d\n", "h() + f(); def k() \x7b h() \x7d; k()"),
    ("def g() \x7b f() * 2 \x7d\n", "def k() \x7b g() \x7d; k() + True")]

/-- Both come to the same in one piece and in two. -/
theorem splitSources_split :
    splitSession.program.routines.map (·.name) = ["f", "anon$1"] ∧
    ∀ x ∈ splitSources, ∃ ds rest s₁, Fragment.parse x.1 = .ok ⟨ds⟩ ∧
      Fragment.parse x.2 = .ok ⟨rest⟩ ∧ splitSession.lowerFragment ⟨ds⟩ = (.ok none, s₁) ∧
      splitSession.lowerFragment ⟨ds ++ rest⟩ = s₁.lowerFragment ⟨rest⟩ ∧
      splitSession.retired.takeInOrder [] (ds ++ rest) = s₁.lowerFragment ⟨rest⟩ := by
  refine ⟨by decide +kernel, fun x hx => ?_⟩
  have hreached : splitSession.Reachable := (Session.Reachable.new .empty).compile _
  have hread : (splitSources.all fun x => (Fragment.parse x.1).isOk && (Fragment.parse x.2).isOk &&
      match Fragment.parse x.1 with
      | .ok f => f.nodes.all (·.definition?.isSome) &&
          (splitSession.lowerFragment f).1.toOption == some none
      | .error _ => false) = true := by
    decide +kernel
  have h := List.all_eq_true.mp hread x hx
  rcases hds : Fragment.parse x.1 with errors | f <;> rw [hds] at h
  · simp [Except.isOk, Except.toBool] at h
  rcases hrest : Fragment.parse x.2 with errors | g <;> rw [hrest] at h
  · simp [Except.isOk, Except.toBool] at h
  obtain ⟨ds⟩ := f
  obtain ⟨rest⟩ := g
  simp only [Except.isOk, Except.toBool, Bool.and_self, Bool.true_and, Bool.and_eq_true,
    List.all_eq_true, beq_iff_eq] at h
  have hlower : splitSession.lowerFragment ⟨ds⟩ = (.ok none, (splitSession.lowerFragment ⟨ds⟩).2) :=
    Prod.ext (eq_ok_of_toOption h.2) rfl
  obtain ⟨hsplit, hordered⟩ := splitting_does_not_matter hreached
  have hwhole := hsplit ds rest none _ h.1 hlower
  exact ⟨ds, rest, _, rfl, rfl, hlower, hwhole, (hordered ⟨ds ++ rest⟩).1.trans hwhole⟩

end ScalarLang
