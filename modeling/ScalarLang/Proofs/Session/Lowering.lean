import Mathlib
import ScalarLang.Proofs.Lower.Checking
import ScalarLang.Proofs.Lower.SlotOrder
import ScalarLang.Proofs.Session.Linking

/-
  Lowering over whole sessions.
  What is asked of a program, that its functions return what they are said to return, holds of every
  program that a session can have, since all its routines were lowered. So the routines use their
  slots in order, and lowering is never abandoned: it ends with a routine or with an error that is
  reported.
-/

namespace ScalarLang

theorem Program.Consistent.returnsValues {p : Program} (h : p.Consistent) : p.ReturnsValues := by
  intro r hr
  rw [h r hr]
  exact List.cons_ne_nil _ _

/-- Slots are used in order over whole sessions. After any commands, each routine has a slot for
    each conditional of its body and one for its result, and loads what was stored there last. -/
theorem session_slots_in_order (types : TypeTable) (engine : Engine)
    (commands : List Session.Command) :
    let l := (Ledger.new types engine).run commands
    ∀ (position : Nat) (r : Routine), l.session.program.routines[position]? = some r →
      ∃ o, l.origins[position]? = some o ∧ r.code.SlotsInOrder (Node.formsOf o.body) := by
  intro l position r hr
  have h : Traced l.session.program l.origins := run_traced types engine commands
  obtain ⟨o, ho, -, types, hlower⟩ := h.made position r hr
  exact ⟨o, ho, Routine.lower_slotsInOrder (h.consistent_scope hr ho) hlower⟩

/-! ## Errors -/

theorem Program.ReturnsValues.commit {p : Program} (h : p.ReturnsValues) {q : Program}
    {types : TypeTable} {name : String} {anonymous : Bool} {nodes : List Node} {r : Routine}
    (hr : (Routine.lower q types name anonymous nodes).1 = .ok r) :
    (p.commit r).ReturnsValues := by
  intro r' hr'
  rcases List.mem_append.mp hr' with hr' | hr'
  · exact h r' hr'
  · rw [List.mem_singleton.mp hr', Routine.lower_signature hr]
    exact List.cons_ne_nil _ _

theorem Routine.ofDefinition_reported {p : Program} (hp : p.ReturnsValues) {types : TypeTable}
    {d : Definition} {e : LowerError} (h : (ofDefinition p types d).1 = .error e) :
    e.Reported := by
  unfold ofDefinition at h
  split at h
  · obtain rfl := Except.error.inj h
    simp [LowerError.Reported]
  · split at h
    · obtain rfl := Except.error.inj h
      simp [LowerError.Reported]
    · exact lower_reported hp h

namespace Session

variable {s : Session} {e : LowerError}

/-- Definitions are added with results; the error that stops them is reported. -/
theorem define_reported (h : s.program.ReturnsValues) (ds : List Definition) :
    (s.define ds).2.program.ReturnsValues ∧ ∀ e, (s.define ds).1 = .error e → e.Reported := by
  induction ds generalizing s with
  | nil => exact ⟨h, fun e he => by cases he⟩
  | cons d rest ih =>
      rcases hd : Routine.ofDefinition s.program s.types d with ⟨e | r, types⟩ <;>
        simp only [define, hd]
      · refine ⟨h, fun e' he => ?_⟩
        obtain rfl := Except.error.inj he
        exact Routine.ofDefinition_reported h (congrArg Prod.fst hd)
      · exact ih (h.commit (Routine.ofDefinition_ok (congrArg Prod.fst hd)).2)

theorem addEntry_reported (h : s.program.ReturnsValues) {nodes : List Node}
    (he : (s.addEntry nodes).1 = .error e) : e.Reported := by
  rcases hr : Routine.lower s.program.nextEntryName.2 s.types s.program.nextEntryName.1 true nodes
    with ⟨e' | r, types⟩ <;> simp only [addEntry, hr] at he
  · obtain rfl := Except.error.inj he
    exact Routine.lower_reported (p := s.program.nextEntryName.2) h (congrArg Prod.fst hr)
  · cases he

theorem lowerFragment_reported (h : s.program.ReturnsValues) {f : Fragment}
    (he : (s.lowerFragment f).1 = .error e) : e.Reported := by
  have hretired : s.program.retireEntry.ReturnsValues := by
    intro r hr
    rw [s.program.retireEntry_routines] at hr
    exact h r (List.mem_of_mem_take hr)
  obtain ⟨hdefined, hreported⟩ :=
    define_reported (s := { s with program := s.program.retireEntry }) hretired f.definitions
  unfold lowerFragment at he
  rcases hd : define { s with program := s.program.retireEntry } f.definitions with ⟨e' | _, t⟩ <;>
    rw [hd] at hdefined hreported <;> simp only [hd] at he
  · obtain rfl := Except.error.inj he
    exact hreported e' rfl
  · split at he
    · cases he
    · rcases ha : t.addEntry f.statements with ⟨e' | entry, u⟩ <;> simp only [ha] at he
      · obtain rfl := Except.error.inj he
        exact addEntry_reported hdefined (congrArg Prod.fst ha)
      · cases he

end Session

/-- Lowering is never abandoned in a session. After any commands, a source that cannot be lowered
    has an error that is reported. -/
theorem session_errors_reported (types : TypeTable) (engine : Engine)
    (commands : List Session.Command) {source : String} {e : LowerError}
    (h : (((Ledger.new types engine).run commands).session.compile source).1 =
      .error (.lowering e)) : e.kind ≠ .missingResult := by
  have hvalues := (run_traced types engine commands).consistent.returnsValues
  generalize ((Ledger.new types engine).run commands).session = s at h hvalues
  unfold Session.compile at h
  split at h
  · cases h
  · split at h
    · cases h
    · rename_i e' t hlower
      obtain rfl := Diagnostic.lowering.inj (Except.error.inj h)
      exact Session.lowerFragment_reported hvalues (congrArg Prod.fst hlower)

end ScalarLang
