import Mathlib
import ScalarLang.Proofs.Parse.Words
import ScalarLang.Proofs.Program
import ScalarLang.Proofs.Session.History

/-
  The names in a session.
  A definition is refused if its name is taken, and the name of an entry point is no word, so it
  cannot be that of a definition. At most one entry point is there at a time and it stands last,
  because a new fragment first retires what the one before it left. So no name is used twice,
  whatever commands a session has run.
-/

namespace ScalarLang

/-- Definitions only, named by words that differ. -/
structure Settled (rs : List Routine) : Prop where
  names : (rs.map (·.name)).Nodup
  named : ∀ r ∈ rs, r.anonymous = false ∧ IsWord r.name

/-- Definitions and, after them, an entry point of the name. -/
def Pending (p : Program) (entry : String) : Prop :=
  ∃ rs e, Settled rs ∧ p.routines = rs ++ [e] ∧ e.anonymous = true ∧ e.name = entry ∧
    ¬ IsWord entry

/-- Definitions and, after them, at most one entry point. -/
def Tidy (p : Program) : Prop := Settled p.routines ∨ ∃ entry, Pending p entry

variable {p q : Program} {entry : String}

theorem Settled.empty : Settled [] := ⟨List.nodup_nil, by simp⟩

theorem Routine.lower_name {types : TypeTable} {name : String} {anonymous : Bool}
    {nodes : List Node} {r : Routine} (h : (Routine.lower p types name anonymous nodes).1 = .ok r) :
    r.name = name ∧ r.anonymous = anonymous := by
  obtain ⟨tv, E, -, rfl⟩ := Routine.lower_ok h
  exact ⟨rfl, rfl⟩

/-- The name of an entry point has a character that no word has. -/
theorem not_isWord_nextEntryName (p : Program) : ¬ IsWord p.nextEntryName.1 := by
  intro h
  have hchar : isWordChar '$' = true := h '$' (by simp [Program.nextEntryName])
  exact absurd hchar (by decide)

/-! ## What tidy programs are like -/

theorem names_concat {rs : List Routine} {r : Routine} (h : (rs.map (·.name)).Nodup)
    (hnew : ∀ r' ∈ rs, r'.name ≠ r.name) : ((rs ++ [r]).map (·.name)).Nodup := by
  rw [List.map_append, List.map_singleton, ← List.concat_eq_append]
  exact h.concat (by simpa using hnew)

theorem Settled.concat {rs : List Routine} {r : Routine} (h : Settled rs)
    (hnew : ∀ r' ∈ rs, r'.name ≠ r.name) (hr : r.anonymous = false) (hword : IsWord r.name) :
    Settled (rs ++ [r]) where
  names := names_concat h.names hnew
  named := by
    intro r' hr'
    rcases List.mem_append.mp hr' with hr' | hr'
    · exact h.named r' hr'
    · rw [List.mem_singleton.mp hr']
      exact ⟨hr, hword⟩

theorem Settled.retireEntry (h : Settled p.routines) : p.retireEntry = p := by
  have hnone : p.pendingEntry? = none := by
    unfold Program.pendingEntry?
    rcases hl : p.routines.getLast? with _ | r
    · rfl
    · simp [Option.filter, (h.named r (List.mem_of_getLast? hl)).1]
  rw [Program.retireEntry, hnone]
  rfl

/-- What is left when the entry point has been retired. -/
theorem Tidy.retireEntry (h : Tidy p) : Settled p.retireEntry.routines := by
  rcases h with h | ⟨entry, rs, e, h, hp, he, -, -⟩
  · rw [h.retireEntry]
    exact h
  · have hsome : p.pendingEntry? = some e := by
      simp [Program.pendingEntry?, hp, Option.filter, he]
    rw [Program.retireEntry, hsome]
    simpa [hp] using h

/-- No name is used twice. -/
theorem Tidy.names (h : Tidy p) : (p.routines.map (·.name)).Nodup := by
  rcases h with h | ⟨entry, rs, e, h, hp, -, rfl, hentry⟩
  · exact h.names
  · rw [hp]
    refine names_concat h.names fun r hr hname => hentry ?_
    rw [← hname]
    exact (h.named r hr).2

theorem Pending.contains (h : Pending p entry) : p.contains entry = true := by
  obtain ⟨rs, e, -, hp, -, rfl, -⟩ := h
  rw [← p.any_name, hp]
  simp

/-! ## Commands keep programs tidy -/

variable {s : Session}

theorem define_settled (h : Settled s.program.routines) {ds : List Definition}
    (hds : ∀ d ∈ ds, IsWord d.name.text) : Settled (s.define ds).2.program.routines := by
  induction ds generalizing s with
  | nil => exact h
  | cons d rest ih =>
      rcases hd : Routine.ofDefinition s.program s.types d with ⟨e | r, types⟩
      · simp only [Session.define, hd]
        exact h
      · simp only [Session.define, hd]
        obtain ⟨hfree, hr⟩ := Routine.ofDefinition_ok (r := r) (by rw [hd])
        obtain ⟨hname, hanonymous⟩ := Routine.lower_name hr
        have hnew : ∀ r' ∈ s.program.routines, r'.name ≠ r.name := by
          rw [hname]
          exact Program.lookup_eq_none_iff.mp (by simpa [Program.contains] using hfree)
        have hword : IsWord r.name := hname ▸ hds d List.mem_cons_self
        exact ih (s := ⟨types, s.program.commit r⟩) (h.concat hnew hanonymous hword)
          fun d' hd' => hds d' (List.mem_cons_of_mem _ hd')

/-- An entry point that is made stands last; otherwise nothing is added. -/
theorem addEntry_names (h : Settled s.program.routines) (nodes : List Node) :
    match s.addEntry nodes with
    | (.ok entry, s') => Pending s'.program entry
    | (.error _, s') => Settled s'.program.routines := by
  rcases hl : Routine.lower s.program.nextEntryName.2 s.types s.program.nextEntryName.1 true nodes
    with ⟨e | r, types⟩
  · have he : s.addEntry nodes = (.error e,
        ⟨types, s.program.nextEntryName.2.rollback s.program.checkpoint⟩) := by
      simp only [Session.addEntry, hl]
    rw [he]
    simpa [Program.rollback, Program.checkpoint, Program.nextEntryName, Program.size] using h
  · have he : s.addEntry nodes = (.ok s.program.nextEntryName.1,
        ⟨types, s.program.nextEntryName.2.commit r⟩) := by
      simp only [Session.addEntry, hl]
    rw [he]
    obtain ⟨hname, hanonymous⟩ := Routine.lower_name (r := r) (by rw [hl])
    exact ⟨s.program.routines, r, h, rfl, hanonymous, hname, not_isWord_nextEntryName _⟩

theorem lowerFragment_names (h : Tidy s.program) {f : Fragment}
    (hf : ∀ d ∈ f.definitions, IsWord d.name.text) :
    match s.lowerFragment f with
    | (.ok (some entry), s') => Pending s'.program entry
    | (_, s') => Settled s'.program.routines := by
  have h₁ := define_settled (s := { s with program := s.program.retireEntry }) h.retireEntry hf
  unfold Session.lowerFragment
  rcases hd : Session.define { s with program := s.program.retireEntry } f.definitions
    with ⟨e | _, s'⟩
  · simp only [hd]
    rwa [hd] at h₁
  · rw [hd] at h₁
    simp only [hd]
    by_cases hempty : f.statements.isEmpty = true
    · simp only [if_pos hempty]
      exact h₁
    · simp only [if_neg hempty]
      have h₂ := addEntry_names h₁ f.statements
      rcases ha : s'.addEntry f.statements with ⟨e | entry, s''⟩ <;> rwa [ha] at h₂

/-- A source that is compiled leaves a tidy program, with the entry point that it gives. -/
theorem compile_names (h : Tidy s.program) (source : String) :
    match s.compile source with
    | (.ok (some entry), s') => Pending s'.program entry
    | (_, s') => Tidy s'.program := by
  unfold Session.compile
  rcases hp : Fragment.parse source with errors | f
  · exact h
  · have hf := lowerFragment_names h (Fragment.parse_named hp)
    rcases hl : s.lowerFragment f with ⟨e | _ | entry, s'⟩ <;> rw [hl] at hf <;> simp only [hl]
    · exact Or.inl hf
    · exact Or.inl hf
    · exact hf

theorem compile_tidy (h : Tidy s.program) (source : String) :
    Tidy (s.compile source).2.program := by
  have hc := compile_names h source
  rcases hr : s.compile source with ⟨d | _ | entry, s'⟩ <;> rw [hr] at hc
  · exact hc
  · exact hc
  · exact Or.inr ⟨entry, hc⟩

theorem eval_tidy (h : Tidy s.program) (engine : Engine) (source : String) :
    Tidy (s.eval engine source).2.1.program := by
  have hc := compile_tidy h source
  rcases s.eval_effect engine source with ⟨hs, -⟩ | ⟨entry, hs, -⟩
  · rwa [hs]
  · rw [hs]
    exact Or.inl hc.retireEntry

theorem step_tidy {l : Ledger} (h : Tidy l.session.program) (c : Session.Command) :
    Tidy (l.step c).session.program := by
  cases c with
  | compile source => exact compile_tidy h source
  | execute entry => exact Or.inl h.retireEntry
  | eval source => exact eval_tidy h l.engine source
  | reset => exact Or.inl .empty

theorem run_tidy (types : TypeTable) (engine : Engine) (commands : List Session.Command) :
    Tidy ((Ledger.new types engine).run commands).session.program := by
  have hnew : Tidy (Ledger.new types engine).session.program := Or.inl .empty
  exact List.foldlRecOn (motive := fun l => Tidy l.session.program) commands Ledger.step hnew
    fun _ h c _ => step_tidy h c

end ScalarLang
