import Mathlib
import ScalarLang.Proofs.Engine.Likeness
import ScalarLang.Proofs.Session.Bookkeeping

/-
  The forms of a fragment's conditionals have no part in what comes of it.
  Fragments that differ in the forms of any of their conditionals are added to a program side by
  side, definition by definition and then the statements, each to a program that is like the other
  one. So both fail with one error or both succeed, and then what is executed comes to the same. The
  program may have functions from outside; what these do is left open.
-/

namespace ScalarLang

/-- The fragments are the same but for the forms of conditionals, wherever these are. -/
def Fragment.Switched (f f' : Fragment) : Prop := Node.SwitchedAll f.nodes f'.nodes

/-- The definitions are the same but for the forms of conditionals in their bodies. -/
structure Definition.Switched (d d' : Definition) : Prop where
  name : d'.name = d.name
  params : d'.params = d.params
  body : Node.SwitchedAll d.body d'.body

theorem Node.Switched.definition?_isNone {node node' : Node} (h : node.Switched node') :
    node'.definition?.isNone = node.definition?.isNone := by
  cases h <;> rfl

theorem Node.SwitchedAll.definitions {nodes nodes' : List Node}
    (h : Node.SwitchedAll nodes nodes') : List.Forall₂ Definition.Switched
      (nodes.filterMap Node.definition?) (nodes'.filterMap Node.definition?) := by
  induction nodes generalizing nodes' with
  | nil =>
      cases h
      exact .nil
  | cons node rest ih =>
      obtain _ | ⟨hnode, hrest⟩ := h
      have hdefinitions := ih hrest
      cases hnode with
      | function hbody => exact .cons ⟨rfl, rfl, hbody⟩ hdefinitions
      | _ => exact hdefinitions

theorem Node.SwitchedAll.statements {nodes nodes' : List Node}
    (h : Node.SwitchedAll nodes nodes') : Node.SwitchedAll (nodes.filter (·.definition?.isNone))
      (nodes'.filter (·.definition?.isNone)) := by
  induction nodes generalizing nodes' with
  | nil =>
      cases h
      exact .nil
  | cons node rest ih =>
      obtain _ | ⟨hnode, hrest⟩ := h
      have hsame := hnode.definition?_isNone
      rw [List.filter_cons, List.filter_cons, hsame]
      split
      · exact .cons hnode (ih hrest)
      · exact ih hrest

/-! ## Steps -/

variable {p q : Program} {s s' : Session}

/-- Definitions are refused for the same reason or become routines that are alike. -/
theorem ofDefinition_switched (h : p.Alike q) {d d' : Definition} (hd : d.Switched d')
    (types types' : TypeTable) :
    Lower.Alongside (fun r r' => r'.name = r.name ∧ r.Alike r')
      (Routine.ofDefinition p types d).1 (Routine.ofDefinition q types' d').1 := by
  unfold Routine.ofDefinition
  rw [hd.name, hd.params, h.resembles.contains]
  split
  · rfl
  · cases d.params with
    | cons param rest => rfl
    | nil =>
        have hparallel := Routine.lower_parallel h.resembles hd.body types types' d.name.text
          d.name.text false
        dsimp only
        revert hparallel
        rcases hr : (Routine.lower p types d.name.text false d.body).1 with e | r <;>
          rcases hr' : (Routine.lower q types' d.name.text false d'.body).1 with e' | r'
        · exact id
        · exact id
        · exact id
        · intro _
          refine ⟨?_, Routine.lower_alike h.resembles hd.body hr hr'⟩
          rw [(Routine.lower_name hr).1, (Routine.lower_name hr').1]

theorem define_switched (h : s.program.Alike s'.program) {ds ds' : List Definition}
    (hds : List.Forall₂ Definition.Switched ds ds') :
    (s'.define ds').1 = (s.define ds).1 ∧
      (s.define ds).2.program.Alike (s'.define ds').2.program := by
  induction hds generalizing s s' with
  | nil => exact ⟨rfl, h⟩
  | @cons d d' rest rest' hd _ ih =>
      have hlowered := ofDefinition_switched h hd s.types s'.types
      rcases hr : Routine.ofDefinition s.program s.types d with ⟨e | r, types⟩ <;>
        rcases hr' : Routine.ofDefinition s'.program s'.types d' with ⟨e' | r', types'⟩ <;>
        rw [hr, hr'] at hlowered
      · simp only [Session.define, hr, hr']
        exact ⟨congrArg _ hlowered, h⟩
      · exact hlowered.elim
      · exact hlowered.elim
      · obtain ⟨hname, halike⟩ := hlowered
        simp only [Session.define, hr, hr']
        exact ih (h.commit hname halike)

/-- Programs that are alike, with an entry point after each; the entry points are alike, but each
    has a name of its own. -/
def EntryAlike (p q : Program) (entry entry' : String) : Prop :=
  ∃ rs rs' e e', Routine.AllAlike rs rs' ∧ e.Alike e' ∧ p.routines = rs ++ [e] ∧
    q.routines = rs' ++ [e'] ∧ e.name = entry ∧ e'.name = entry' ∧ e.anonymous = true

theorem EntryAlike.alike {entry : String} (h : EntryAlike p q entry entry) : p.Alike q := by
  obtain ⟨rs, rs', e, e', hrs, he, hp, hq, hname, hname', -⟩ := h
  refine ⟨?_⟩
  rw [hp, hq]
  exact List.rel_append hrs (.cons ⟨hname'.trans hname.symm, he⟩ .nil)

/-- What comes of two fragments: both fail with one error, or both succeed, and what is left is
    alike. -/
inductive LeftAlike : Except LowerError (Option String) × Session →
    Except LowerError (Option String) × Session → Prop where
  | failed {e : LowerError} {t t' : Session} :
      t.program.Alike t'.program → LeftAlike (.error e, t) (.error e, t')
  | defined {t t' : Session} :
      t.program.Alike t'.program → LeftAlike (.ok none, t) (.ok none, t')
  | entered {entry entry' : String} {t t' : Session} :
      EntryAlike t.program t'.program entry entry' →
      LeftAlike (.ok (some entry), t) (.ok (some entry'), t')

theorem addEntry_switched (h : s.program.Alike s'.program) {nodes nodes' : List Node}
    (hnodes : Node.SwitchedAll nodes nodes') :
    LeftAlike ((s.addEntry nodes).1.map some, (s.addEntry nodes).2)
      ((s'.addEntry nodes').1.map some, (s'.addEntry nodes').2) := by
  have hnext : s.program.nextEntryName.2.Alike s'.program.nextEntryName.2 := ⟨h.routines⟩
  have hlowered := Routine.lower_parallel hnext.resembles hnodes s.types s'.types
    s.program.nextEntryName.1 s'.program.nextEntryName.1 true
  rcases hr : Routine.lower s.program.nextEntryName.2 s.types s.program.nextEntryName.1 true nodes
    with ⟨e | r, types⟩ <;>
    rcases hr' : Routine.lower s'.program.nextEntryName.2 s'.types s'.program.nextEntryName.1 true
      nodes' with ⟨e' | r', types'⟩ <;> rw [hr, hr'] at hlowered <;>
    simp only [Session.addEntry, hr, hr']
  · obtain rfl : e' = e := hlowered
    have hkept (p : Program) :
        (p.nextEntryName.2.rollback p.checkpoint).routines = p.routines := by
      simp [Program.rollback, Program.checkpoint, Program.nextEntryName, Program.size]
    refine .failed ⟨?_⟩
    rw [hkept, hkept]
    exact h.routines
  · exact hlowered.elim
  · exact hlowered.elim
  · have hok : (Routine.lower s.program.nextEntryName.2 s.types s.program.nextEntryName.1 true
        nodes).1 = .ok r := by rw [hr]
    have hok' : (Routine.lower s'.program.nextEntryName.2 s'.types s'.program.nextEntryName.1 true
        nodes').1 = .ok r' := by rw [hr']
    obtain ⟨hname, hanonymous⟩ := Routine.lower_name hok
    exact .entered ⟨s.program.routines, s'.program.routines, r, r', h.routines,
      Routine.lower_alike hnext.resembles hnodes hok hok', rfl, rfl, hname,
      (Routine.lower_name hok').1, hanonymous⟩

/-- Switched fragments are added to sessions with programs that are alike. -/
theorem lowerFragment_switched (h : s.program.retireEntry.Alike s'.program.retireEntry)
    {f f' : Fragment} (hf : f.Switched f') :
    LeftAlike (s.lowerFragment f) (s'.lowerFragment f') := by
  have hdefinitions : List.Forall₂ Definition.Switched f.definitions f'.definitions :=
    Node.SwitchedAll.definitions hf
  have hstatements : Node.SwitchedAll f.statements f'.statements := Node.SwitchedAll.statements hf
  have hempty : f'.statements.isEmpty = f.statements.isEmpty := by
    have hlength := hstatements.length_eq
    rw [Bool.eq_iff_iff, List.isEmpty_iff_length_eq_zero, List.isEmpty_iff_length_eq_zero]
    exact ⟨fun h₀ => hlength ▸ h₀, fun h₀ => hlength.trans h₀⟩
  have hretired : Program.Alike (Session.mk s.types s.program.retireEntry).program
      (Session.mk s'.types s'.program.retireEntry).program := h
  obtain ⟨hresult, halike⟩ := define_switched hretired hdefinitions
  unfold Session.lowerFragment
  rcases hd : Session.define { s with program := s.program.retireEntry } f.definitions
    with ⟨e | _, t⟩ <;>
    rcases hd' : Session.define { s' with program := s'.program.retireEntry } f'.definitions
      with ⟨e' | _, t'⟩ <;> rw [hd, hd'] at hresult halike <;>
    simp only [hd, hd']
  · obtain rfl : e' = e := Except.error.inj hresult
    exact .failed halike
  · cases hresult
  · cases hresult
  · simp only [hempty]
    by_cases hnone : f.statements.isEmpty = true
    · simp only [if_pos hnone]
      exact .defined halike
    · simp only [if_neg hnone]
      have hprograms : t.program.Alike t'.program := halike
      have hadded := addEntry_switched hprograms hstatements
      rcases ha : t.addEntry f.statements with ⟨e | name, u⟩ <;>
        rcases ha' : t'.addEntry f'.statements with ⟨e' | name', u'⟩ <;>
        rw [ha, ha'] at hadded <;> exact hadded

/-- An entry point gets the next name. -/
theorem lowerFragment_entry {f : Fragment} {entry : String}
    (h : (s.lowerFragment f).1 = .ok (some entry)) : entry = s.program.nextEntryName.1 := by
  have hcount : ∀ (ds : List Definition) (s : Session),
      (s.define ds).2.program.entryCount = s.program.entryCount := by
    intro ds
    induction ds with
    | nil => exact fun _ => rfl
    | cons d rest ih =>
        intro s
        rcases hd : Routine.ofDefinition s.program s.types d with ⟨e | r, types⟩
        · simp only [Session.define, hd]
        · simp only [Session.define, hd]
          exact ih ⟨types, s.program.commit r⟩
  have hname := hcount f.definitions { s with program := s.program.retireEntry }
  rw [Program.retireEntry_entryCount] at hname
  unfold Session.lowerFragment at h
  rcases hd : Session.define { s with program := s.program.retireEntry } f.definitions
    with ⟨e | _, t⟩ <;> simp only [hd] at h hname
  · cases h
  · split at h
    · cases h
    · rcases hl : Routine.lower t.program.nextEntryName.2 t.types t.program.nextEntryName.1 true
        f.statements with ⟨e | r, types⟩ <;> simp only [Session.addEntry, hl] at h
      · cases h
      · simp only [Except.ok.injEq, Option.some.injEq] at h
        rw [← h, Program.nextEntryName, Program.nextEntryName, hname]

/-! ## Forms -/

/-- A definition with a conditional in an arm, and a quotient of a conditional whose test is a
    conditional; the arm that is not chosen would fault. -/
def switchable (form : ConditionalForm) (divisor : BitVec 64) : Fragment :=
  let at0 : Span := ⟨0, 0⟩
  let number := fun n => Node.literal at0 (.signed n)
  let truth := fun b => Node.literal at0 (.boolean b)
  let call := fun name => Node.call at0 ⟨name, at0⟩ []
  ⟨[.function at0 ⟨"g", at0⟩ []
      [.conditional at0 form (.binary at0 .lt (call "f") (number 5))
        (.conditional at0 form (truth true) (number 10) (number 20)) (number 30)],
    .binary at0 .div
      (.conditional at0 form
        (.conditional at0 form (.binary at0 .eq (call "g") (number 10)) (truth true) (truth false))
        (call "g") (.binary at0 .div (number 1) (number 0)))
      (number divisor)]⟩

/-- A session with a function from outside that takes an integer and gives one. -/
def outsideSession : Session :=
  ⟨.empty, { routines := [⟨"f", .i64, false, .empty "f" ⟨[.i64], [.i64]⟩⟩] }⟩

/-- The function adds one, and faults at zero. -/
def outsideLink : Ir.Linkage
  | 2, [.i64 x] => some ⟨[.i64 (x + 1)], x == 0⟩
  | _, _ => none

/-- A definition that calls the function in all parts of a conditional, and a call of what it
    defines as an argument. -/
def switchableOutside (form : ConditionalForm) (test : BitVec 64) : Fragment :=
  let at0 : Span := ⟨0, 0⟩
  let number := fun n => Node.literal at0 (.signed n)
  let call := fun arg => Node.call at0 ⟨"f", at0⟩ [arg]
  ⟨[.function at0 ⟨"g", at0⟩ []
      [.conditional at0 form (call (number test)) (call (number 10)) (call (number 20))],
    call (.call at0 ⟨"g", at0⟩ [])]⟩

theorem switchable_switched (divisor : BitVec 64) :
    (switchable .ifForm divisor).Switched (switchable .whenForm divisor) := by
  unfold Fragment.Switched switchable
  repeat' constructor

theorem switchableOutside_switched (test : BitVec 64) :
    (switchableOutside .ifForm test).Switched (switchableOutside .whenForm test) := by
  unfold Fragment.Switched switchableOutside
  repeat' constructor

end ScalarLang
