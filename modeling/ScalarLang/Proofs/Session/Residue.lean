import Mathlib
import ScalarLang.Proofs.Engine.Loading
import ScalarLang.Proofs.Lower.Tables
import ScalarLang.Proofs.Session.Bookkeeping

/-
  What failed commands leave behind.
  A source that cannot be read changes nothing. If it can be read, the entry point that still stands
  goes first, and then the definitions are added until one fails; what follows a failure is not
  tried, and an entry point that fails or has run is gone with its name. So after every failure the
  program is the old one without its entry point and with the definitions before the failure.
-/

namespace ScalarLang

/-- Adding the definitions one by one takes the first program to the second. Each is lowered in the
    program of those before it, over any table of types. -/
inductive Program.Defines : Program → List Definition → Program → Prop where
  | nil (p : Program) : Defines p [] p
  | cons {p q : Program} {d : Definition} {r : Routine} {ds : List Definition} :
      (∀ types, (Routine.ofDefinition p types d).1 = .ok r) → Defines (p.commit r) ds q →
      Defines p (d :: ds) q

variable {p q : Program} {s s' : Session} {ds : List Definition}

theorem Program.Defines.eq_of_nil (h : p.Defines [] q) : q = p := by
  cases h
  rfl

/-- Definitions go to the end, in their order and under their names, and none is an entry point. -/
theorem Program.Defines.added (h : p.Defines ds q) :
    q.entryCount = p.entryCount ∧ ∃ added, q.routines = p.routines ++ added ∧
      added.map (·.name) = ds.map (·.name.text) ∧ ∀ r ∈ added, r.anonymous = false := by
  induction h with
  | nil p => exact ⟨rfl, [], by simp, rfl, by simp⟩
  | @cons p q d r ds hd _ ih =>
      obtain ⟨hcount, added, hroutines, hnames, hnamed⟩ := ih
      obtain ⟨hname, hanonymous⟩ := Routine.lower_name (Routine.ofDefinition_ok (hd .empty)).2
      refine ⟨hcount, r :: added, ?_, by simp [hnames, hname], ?_⟩
      · rw [hroutines]
        simp [Program.commit]
      · exact List.forall_mem_cons.mpr ⟨hanonymous, hnamed⟩

/-- A program is what is left without its entry point, and at most that entry point. -/
theorem Program.retireEntry_append (p : Program) : ∃ pending,
    p.routines = p.retireEntry.routines ++ pending ∧ pending.length ≤ 1 ∧
      ∀ r ∈ pending, r.anonymous = true := by
  unfold Program.retireEntry
  split
  · rename_i hpending
    obtain ⟨e, he⟩ := Option.isSome_iff_exists.mp hpending
    obtain ⟨hlast, hanonymous⟩ := Option.filter_eq_some_iff.mp he
    obtain ⟨rs, hrs⟩ := List.getLast?_eq_some_iff.mp hlast
    exact ⟨[e], by simp [hrs], Nat.le_refl 1, by simpa using hanonymous⟩
  · exact ⟨[], by simp, Nat.zero_le 1, by simp⟩

theorem Program.retireEntry_concat {rs : List Routine} {e : Routine}
    (h : p.routines = rs ++ [e]) (he : e.anonymous = true) : p.retireEntry.routines = rs := by
  have hpending : p.pendingEntry? = some e := by
    simp [Program.pendingEntry?, h, Option.filter, he]
  simp [Program.retireEntry, hpending, h]

/-! ## Steps -/

/-- Definitions are added up to the first that cannot be lowered. -/
theorem define_defines (s : Session) (ds : List Definition) :
    match s.define ds with
    | (.ok (), s') => s.program.Defines ds s'.program
    | (.error e, s') => ∃ before d after, ds = before ++ d :: after ∧
        s.program.Defines before s'.program ∧
        ∀ types, (Routine.ofDefinition s'.program types d).1 = .error e := by
  induction ds generalizing s with
  | nil => exact .nil _
  | cons d rest ih =>
      rcases hd : Routine.ofDefinition s.program s.types d with ⟨e | r, types⟩
      · simp only [Session.define, hd]
        refine ⟨[], d, rest, rfl, .nil _, fun types' => ?_⟩
        rw [Routine.ofDefinition_types s.program s.types types', hd]
      · have hr : ∀ types', (Routine.ofDefinition s.program types' d).1 = .ok r := fun types' => by
          rw [Routine.ofDefinition_types s.program s.types types', hd]
        have hrest := ih ⟨types, s.program.commit r⟩
        simp only [Session.define, hd]
        rcases hdef : Session.define ⟨types, s.program.commit r⟩ rest with ⟨e | _, s'⟩
        · rw [hdef] at hrest
          obtain ⟨before, d', after, rfl, hbefore, hfails⟩ := hrest
          exact ⟨d :: before, d', after, rfl, .cons hr hbefore, hfails⟩
        · rw [hdef] at hrest
          exact .cons hr hrest

/-- An entry point that fails leaves the program as it was, its count included. -/
theorem addEntry_leaves (s : Session) (nodes : List Node) :
    match s.addEntry nodes with
    | (.ok _, s') => ∃ e, s'.program.routines = s.program.routines ++ [e] ∧ e.anonymous = true
    | (.error err, s') => s'.program = s.program ∧ ∀ types,
        (Routine.lower s.program.nextEntryName.2 types s.program.nextEntryName.1 true nodes).1 =
          .error err := by
  rcases hl : Routine.lower s.program.nextEntryName.2 s.types s.program.nextEntryName.1 true nodes
    with ⟨err | r, types⟩
  · have he : s.addEntry nodes = (.error err,
        ⟨types, s.program.nextEntryName.2.rollback s.program.checkpoint⟩) := by
      simp only [Session.addEntry, hl]
    rw [he]
    refine ⟨?_, fun types' => ?_⟩
    · simp [Program.rollback, Program.checkpoint, Program.nextEntryName, Program.size]
    · rw [Routine.lower_types _ s.types types', hl]
  · have he : s.addEntry nodes = (.ok s.program.nextEntryName.1,
        ⟨types, s.program.nextEntryName.2.commit r⟩) := by
      simp only [Session.addEntry, hl]
    rw [he]
    exact ⟨r, rfl, (Routine.lower_name (by rw [hl])).2⟩

/-- The first part of a fragment that fails: a definition after those that were added, or else the
    statements. -/
def FailsAfter (f : Fragment) (before : List Definition) (p : Program) (e : LowerError) : Prop :=
  (∃ d after, f.definitions = before ++ d :: after ∧
    ∀ types, (Routine.ofDefinition p types d).1 = .error e) ∨
  f.definitions = before ∧ f.statements ≠ [] ∧
    ∀ types, (Routine.lower p.nextEntryName.2 types p.nextEntryName.1 true f.statements).1 = .error e

/-- A fragment that fails leaves the definitions before the failure; one that does not leaves them
    all, and after them the entry point that it gives. -/
theorem lowerFragment_leaves (s : Session) (f : Fragment) :
    match s.lowerFragment f with
    | (.ok none, s') => s.program.retireEntry.Defines f.definitions s'.program
    | (.ok (some _), s') => ∃ q e, s.program.retireEntry.Defines f.definitions q ∧
        s'.program.routines = q.routines ++ [e] ∧ e.anonymous = true
    | (.error e, s') => ∃ before, s.program.retireEntry.Defines before s'.program ∧
        FailsAfter f before s'.program e := by
  have hdefine := define_defines { s with program := s.program.retireEntry } f.definitions
  unfold Session.lowerFragment
  rcases hd : Session.define { s with program := s.program.retireEntry } f.definitions
    with ⟨e | _, s₁⟩
  · rw [hd] at hdefine
    simp only [hd]
    obtain ⟨before, d, after, hsplit, hbefore, hfails⟩ := hdefine
    exact ⟨before, hbefore, Or.inl ⟨d, after, hsplit, hfails⟩⟩
  · rw [hd] at hdefine
    simp only [hd]
    by_cases hempty : f.statements.isEmpty = true
    · simp only [if_pos hempty]
      exact hdefine
    · simp only [if_neg hempty]
      have hentry := addEntry_leaves s₁ f.statements
      rcases ha : s₁.addEntry f.statements with ⟨e | name, s₂⟩ <;> rw [ha] at hentry
      · obtain ⟨hsame, hfails⟩ := hentry
        refine ⟨f.definitions, hsame ▸ hdefine, Or.inr ⟨rfl, ?_, hsame ▸ hfails⟩⟩
        simpa using hempty
      · obtain ⟨e, hroutines, hanonymous⟩ := hentry
        exact ⟨s₁.program, e, hdefine, hroutines, hanonymous⟩

/-! ## Commands -/

/-- A source that can be read is a fragment that is added. -/
theorem Session.compile_eq {source : String} {f : Fragment} (h : Fragment.parse source = .ok f) :
    s.compile source =
      ((s.lowerFragment f).1.mapError Diagnostic.lowering, (s.lowerFragment f).2) := by
  simp only [Session.compile, h]
  rcases s.lowerFragment f with ⟨e | entry, s'⟩ <;> rfl

theorem Session.execute_program (s : Session) (engine : Engine) (entry : String) :
    (s.execute engine entry).2.1.program = s.program.retireEntry := rfl

theorem Settled.defines (h : Settled p.routines) (hq : p.Defines ds q) :
    ∀ r ∈ q.routines, r.anonymous = false := by
  obtain ⟨-, added, hroutines, -, hadded⟩ := hq.added
  intro r hr
  rw [hroutines] at hr
  exact (List.mem_append.mp hr).elim (fun hr => (h.named r hr).1) (hadded r)

/-- Failed commands leave no residue. After any commands the program is some definitions, which are
    kept, and at most one entry point. A source that cannot be read changes nothing. If lowering it
    fails, what is left is what was kept and exactly the definitions before the first part that
    fails, with the count of entry points as it was and no entry point. And if it is lowered to an
    entry point, then after any attempt to execute that on any engine, what is left is what was kept
    and all definitions of the source. -/
theorem failed_commands_leave_no_residue (types : TypeTable) (engine : Engine)
    (commands : List Session.Command) (source : String) :
    let s := ((Ledger.new types engine).run commands).session
    ∃ kept pending, s.program.routines = kept ++ pending ∧ pending.length ≤ 1 ∧
      (∀ r ∈ pending, r.anonymous = true) ∧ (∀ r ∈ kept, r.anonymous = false) ∧
      (∀ errors, Fragment.parse source = .error errors →
        s.compile source = (.error (.malformed errors), s)) ∧
      ∀ f, Fragment.parse source = .ok f →
        (∀ d s', s.compile source = (.error d, s') → ∃ e before, d = .lowering e ∧
          Program.Defines ⟨kept, s.program.entryCount⟩ before s'.program ∧
          FailsAfter f before s'.program e ∧ s'.program.entryCount = s.program.entryCount ∧
          ∀ r ∈ s'.program.routines, r.anonymous = false) ∧
        ∀ entry s', s.compile source = (.ok (some entry), s') → ∀ engine',
          ∃ q, Program.Defines ⟨kept, s.program.entryCount⟩ f.definitions q ∧
            (s'.execute engine' entry).2.1.program.routines = q.routines ∧
            ∀ r ∈ q.routines, r.anonymous = false := by
  intro s
  have htidy : Tidy s.program := run_tidy types engine commands
  clear_value s
  obtain ⟨pending, hsplit, hlength, hpending⟩ := s.program.retireEntry_append
  have hsettled := htidy.retireEntry
  have hbase : (⟨s.program.retireEntry.routines, s.program.entryCount⟩ : Program) =
      s.program.retireEntry := by
    rw [← s.program.retireEntry_entryCount]
  refine ⟨s.program.retireEntry.routines, pending, hsplit, hlength, hpending,
    fun r hr => (hsettled.named r hr).1, fun errors hparse => ?_, fun f hparse => ?_⟩
  · simp only [Session.compile, hparse]
  rw [hbase]
  have hleaves := lowerFragment_leaves s f
  rw [Session.compile_eq hparse]
  rcases hl : s.lowerFragment f with ⟨e | _ | entry, s'⟩ <;> rw [hl] at hleaves
  · obtain ⟨before, hbefore, hfails⟩ := hleaves
    refine ⟨fun d s'' h => ?_, fun entry s'' h => (by cases h)⟩
    cases h
    exact ⟨e, before, rfl, hbefore, hfails, hbefore.added.1.trans s.program.retireEntry_entryCount,
      hsettled.defines hbefore⟩
  · exact ⟨fun d s'' h => (by cases h), fun entry s'' h => (by cases h)⟩
  · obtain ⟨q, e, hq, hroutines, hanonymous⟩ := hleaves
    refine ⟨fun d s'' h => (by cases h), fun entry s'' h engine' => ?_⟩
    cases h
    refine ⟨q, hq, ?_, hsettled.defines hq⟩
    rw [Session.execute_program]
    exact Program.retireEntry_concat hroutines hanonymous

/-- A definition, and an entry point that is never executed. -/
def pendingCommands : List Session.Command := [.compile "def f() \x7b 7 \x7d", .compile "f()"]

/-- Of three definitions the second fails, so that the third is not tried. -/
def failingSource : String :=
  "def g() \x7b f() \x7d; def h() \x7b 1 + 1.0 \x7d; def k() \x7b 1 \x7d"

/-- The definition stays after the fault. -/
def faultingSource : String := "def g() \x7b f() / 0 \x7d; g()"

theorem pendingCommands_leave_no_residue :
    let s := ((Ledger.new .empty .new).run pendingCommands).session
    s.program.routines.map (fun r => (r.name, r.anonymous)) = [("f", false), ("anon$1", true)] ∧
    (∃ errors, Fragment.parse "1 +" = .error errors ∧
      s.compile "1 +" = (.error (.malformed errors), s)) ∧
    (∃ f d s', Fragment.parse failingSource = .ok f ∧ s.compile failingSource = (.error d, s') ∧
      s'.program.routines.map (·.name) = ["f", "g"] ∧ s'.program.entryCount = 1 ∧
      ∃ e before, FailsAfter f before s'.program e) ∧
    ∃ f entry s', Fragment.parse faultingSource = .ok f ∧
      s.compile faultingSource = (.ok (some entry), s') ∧
      (s'.execute .new entry).1 = .error .divisionByZero ∧
      ∃ q : Program, (s'.execute .new entry).2.1.program.routines = q.routines ∧
        q.routines.map (fun r => (r.name, r.anonymous)) = [("f", false), ("g", false)] := by
  intro s
  refine ⟨by decide +kernel, ?_, ?_, ?_⟩
  · obtain ⟨kept, pending, -, -, -, -, hsame, -⟩ :=
      failed_commands_leave_no_residue .empty .new pendingCommands "1 +"
    have hparse : (Fragment.parse "1 +").isOk = false := by decide +kernel
    rcases hf : Fragment.parse "1 +" with errors | f
    · exact ⟨errors, rfl, hsame errors hf⟩
    · rw [hf] at hparse
      cases hparse
  · obtain ⟨kept, pending, -, -, -, -, -, hleaves⟩ :=
      failed_commands_leave_no_residue .empty .new pendingCommands failingSource
    have hparse : (Fragment.parse failingSource).isOk = true := by decide +kernel
    have hfails : (s.compile failingSource).1.isOk = false := by decide +kernel
    have hnames : (s.compile failingSource).2.program.routines.map (·.name) = ["f", "g"] := by
      decide +kernel
    have hcount : s.program.entryCount = 1 := by decide +kernel
    rcases hf : Fragment.parse failingSource with errors | f
    · rw [hf] at hparse
      cases hparse
    · rcases hc : s.compile failingSource with ⟨d | entry, s'⟩ <;> rw [hc] at hfails hnames
      · obtain ⟨e, before, -, -, hafter, hsame, -⟩ := (hleaves f hf).1 d s' hc
        exact ⟨f, d, s', rfl, rfl, hnames, hsame.trans hcount, e, before, hafter⟩
      · cases hfails
  · obtain ⟨kept, pending, -, -, -, -, -, hleaves⟩ :=
      failed_commands_leave_no_residue .empty .new pendingCommands faultingSource
    have hparse : (Fragment.parse faultingSource).isOk = true := by decide +kernel
    have hentry : (s.compile faultingSource).1.toOption = some (some "anon$2") := by decide +kernel
    have hfault : ((s.compile faultingSource).2.execute .new "anon$2").1 =
        .error .divisionByZero := by decide +kernel
    have hnames : ((s.compile faultingSource).2.execute .new "anon$2").2.1.program.routines.map
        (fun r => (r.name, r.anonymous)) = [("f", false), ("g", false)] := by decide +kernel
    rcases hf : Fragment.parse faultingSource with errors | f
    · rw [hf] at hparse
      cases hparse
    · have hc : s.compile faultingSource = (.ok (some "anon$2"), (s.compile faultingSource).2) :=
        Prod.ext (eq_ok_of_toOption hentry) rfl
      obtain ⟨q, -, hq, -⟩ := (hleaves f hf).2 _ _ hc .new
      exact ⟨f, "anon$2", _, rfl, hc, hfault, q, hq, hq ▸ hnames⟩

end ScalarLang
