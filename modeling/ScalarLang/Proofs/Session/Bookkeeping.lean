import Mathlib
import ScalarLang.Proofs.Session.Names

/-
  The books of a session.
  A journal keeps what the commands came to since the last reset: each definition that was tried,
  with what lowering it gave, and what each source was compiled to. The invariant is that the named
  routines of the program are the definitions that could be lowered, in that order, and that the
  program has counted as many entry points as were compiled. Failures leave both sides alone: a
  definition that fails adds nothing, and an entry point that fails gives its number back.
-/

namespace ScalarLang

namespace Session

/-- The definitions that `define` tries, each with what lowering it gives. -/
def tried (s : Session) : List Definition → List (Definition × Except LowerError Routine)
  | [] => []
  | d :: rest =>
    match Routine.ofDefinition s.program s.types d with
    | (.ok r, types) => (d, .ok r) :: tried ⟨types, s.program.commit r⟩ rest
    | (.error e, _) => [(d, .error e)]

/-- The definitions that compiling a source tries. -/
def triedIn (s : Session) (source : String) : List (Definition × Except LowerError Routine) :=
  match Fragment.parse source with
  | .error _ => []
  | .ok f => tried { s with program := s.program.retireEntry } f.definitions

end Session

/-- What commands came to: the definitions that were tried and the sources that were compiled. -/
structure Journal where
  definitions : List (Definition × Except LowerError Routine) := []
  sources : List (Except Diagnostic (Option String)) := []

namespace Journal

/-- The definitions that could be lowered, with their routines. -/
def lowered (j : Journal) : List (Definition × Routine) :=
  j.definitions.filterMap fun (d, result) => result.toOption.map (d, ·)

/-- The names of the entry points that sources were compiled to. -/
def entries (j : Journal) : List String := j.sources.filterMap fun result => result.toOption.join

/-- Enters a source that is compiled. -/
def compiled (j : Journal) (s : Session) (source : String) : Journal :=
  ⟨j.definitions ++ s.triedIn source, j.sources ++ [(s.compile source).1]⟩

/-- Enters a command. A reset starts a new journal. -/
def enter (j : Journal) (s : Session) : Session.Command → Journal
  | .compile source | .eval source => j.compiled s source
  | .execute _ => j
  | .reset => {}

end Journal

/-- The journal after commands, given what was in it before. -/
def Ledger.journal (l : Ledger) (j : Journal) : List Session.Command → Journal
  | [] => j
  | c :: rest => (l.step c).journal (j.enter l.session c) rest

/-- The routines that are no entry points. -/
def Program.named (p : Program) : List Routine := p.routines.filter (!·.anonymous)

/-! ## The invariant -/

/-- The program has what the journal says: the definitions that could be lowered, each of which
    was lowered in the program of those before it, and the count of the entry points, which are
    numbered from 1. -/
structure Recorded (p : Program) (j : Journal) : Prop where
  named : p.named = j.lowered.map (·.2)
  entryCount : p.entryCount = j.entries.length
  numbered : ∀ k name, j.entries[k]? = some name → name = "anon$" ++ toString (k + 1)
  made : ∀ k d r, j.lowered[k]? = some (d, r) → ∃ scope types,
    scope.routines = (j.lowered.take k).map (·.2) ∧ (Routine.ofDefinition scope types d).1 = .ok r

variable {p q : Program} {j : Journal} {s : Session}

theorem Settled.named_eq (h : Settled p.routines) : p.named = p.routines :=
  List.filter_eq_self.mpr fun r hr => by simp [(h.named r hr).1]

theorem Program.retireEntry_named (p : Program) : p.retireEntry.named = p.named := by
  unfold Program.retireEntry
  split
  · rename_i hpending
    obtain ⟨e, he⟩ := Option.isSome_iff_exists.mp hpending
    obtain ⟨hlast, hanonymous⟩ := Option.filter_eq_some_iff.mp he
    obtain ⟨rs, hrs⟩ := List.getLast?_eq_some_iff.mp hlast
    simp [Program.named, hrs, hanonymous]
  · rfl

theorem Program.retireEntry_entryCount (p : Program) : p.retireEntry.entryCount = p.entryCount := by
  unfold Program.retireEntry
  split <;> rfl

namespace Recorded

theorem empty : Recorded .empty {} :=
  ⟨rfl, rfl, fun _ _ h => (by simp [Journal.entries] at h),
    fun _ _ _ h => (by simp [Journal.lowered] at h)⟩

theorem congr (h : Recorded p j) (hnamed : q.named = p.named)
    (hcount : q.entryCount = p.entryCount) : Recorded q j :=
  ⟨hnamed.trans h.named, hcount.trans h.entryCount, h.numbered, h.made⟩

theorem retireEntry (h : Recorded p j) : Recorded p.retireEntry j :=
  h.congr p.retireEntry_named p.retireEntry_entryCount

/-- Only what the journal's lists come to counts. -/
theorem of_same {j' : Journal} (h : Recorded p j) (hlowered : j'.lowered = j.lowered)
    (hentries : j'.entries = j.entries) : Recorded p j' :=
  ⟨hlowered ▸ h.named, hentries ▸ h.entryCount, hentries ▸ h.numbered, hlowered ▸ h.made⟩

/-- A definition that could be lowered. -/
theorem commit (h : Recorded p j) (hs : Settled p.routines) {types : TypeTable} {d : Definition}
    {r : Routine} (hr : (Routine.ofDefinition p types d).1 = .ok r) :
    Recorded (p.commit r) ⟨j.definitions ++ [(d, .ok r)], j.sources⟩ := by
  have hlowered : (Journal.mk (j.definitions ++ [(d, .ok r)]) j.sources).lowered =
      j.lowered ++ [(d, r)] := by
    simp [Journal.lowered, Except.toOption]
  have hroutines : p.routines = j.lowered.map (·.2) := hs.named_eq.symm.trans h.named
  have hanonymous : r.anonymous = false :=
    (Routine.lower_name (Routine.ofDefinition_ok hr).2).2
  refine ⟨?_, h.entryCount, h.numbered, ?_⟩
  · rw [hlowered, List.map_append, ← h.named]
    simp [Program.named, Program.commit, hanonymous]
  · intro k d' r' hk
    rw [hlowered] at hk ⊢
    by_cases hlt : k < j.lowered.length
    · rw [List.getElem?_append_left hlt] at hk
      obtain ⟨scope, types', hscope, hmade⟩ := h.made k d' r' hk
      refine ⟨scope, types', ?_, hmade⟩
      rw [hscope, List.take_append_of_le_length (Nat.le_of_lt hlt)]
    · have hk' := (List.getElem?_eq_some_iff.mp hk).1
      obtain rfl : k = j.lowered.length := by
        rw [List.length_append, List.length_singleton] at hk'
        omega
      rw [List.getElem?_concat_length, Option.some.injEq, Prod.mk.injEq] at hk
      obtain ⟨rfl, rfl⟩ := hk
      exact ⟨p, types, by rw [List.take_left, hroutines], hr⟩

end Recorded

/-! ## Commands keep the books -/

theorem define_recorded (h : Recorded s.program j) (hs : Settled s.program.routines)
    {ds : List Definition} (hds : ∀ d ∈ ds, IsWord d.name.text) :
    Recorded (s.define ds).2.program ⟨j.definitions ++ s.tried ds, j.sources⟩ := by
  induction ds generalizing s j with
  | nil => simpa [Session.define, Session.tried] using h
  | cons d rest ih =>
      rcases hd : Routine.ofDefinition s.program s.types d with ⟨e | r, types⟩
      · simp only [Session.define, Session.tried, hd]
        exact h.of_same (by simp [Journal.lowered, Except.toOption]) rfl
      · have hr : (Routine.ofDefinition s.program s.types d).1 = .ok r := by rw [hd]
        have hone : s.define [d] = (.ok (), ⟨types, s.program.commit r⟩) := by
          simp only [Session.define, hd]
        have hsettled : Settled (s.define [d]).2.program.routines :=
          define_settled hs (by simpa using hds d List.mem_cons_self)
        rw [hone] at hsettled
        have hrest := ih (s := ⟨types, s.program.commit r⟩) (h.commit hs hr) hsettled
          fun d' hd' => hds d' (List.mem_cons_of_mem _ hd')
        simp only [Session.define, Session.tried, hd]
        simpa using hrest

/-- An entry point is counted if it is made, and then it has the number that it is counted as. -/
theorem addEntry_recorded (h : Recorded s.program j) (nodes : List Node) :
    match s.addEntry nodes with
    | (.ok name, s') => Recorded s'.program ⟨j.definitions, j.sources ++ [.ok (some name)]⟩
    | (.error _, s') => Recorded s'.program j := by
  rcases hl : Routine.lower s.program.nextEntryName.2 s.types s.program.nextEntryName.1 true nodes
    with ⟨e | r, types⟩
  · have he : s.addEntry nodes = (.error e,
        ⟨types, s.program.nextEntryName.2.rollback s.program.checkpoint⟩) := by
      simp only [Session.addEntry, hl]
    rw [he]
    refine h.congr ?_ rfl
    simp [Program.named, Program.rollback, Program.checkpoint, Program.nextEntryName, Program.size]
  · have he : s.addEntry nodes = (.ok s.program.nextEntryName.1,
        ⟨types, s.program.nextEntryName.2.commit r⟩) := by
      simp only [Session.addEntry, hl]
    rw [he]
    have hanonymous : r.anonymous = true := (Routine.lower_name (by rw [hl])).2
    have hentries : (Journal.mk j.definitions
        (j.sources ++ [.ok (some s.program.nextEntryName.1)])).entries =
          j.entries ++ [s.program.nextEntryName.1] := by
      simp [Journal.entries, Except.toOption]
    refine ⟨?_, ?_, ?_, h.made⟩
    · refine Eq.trans ?_ h.named
      simp [Program.named, Program.commit, Program.nextEntryName, hanonymous]
    · rw [hentries, List.length_append, List.length_singleton, ← h.entryCount]
      rfl
    · intro k name hk
      rw [hentries] at hk
      by_cases hlt : k < j.entries.length
      · rw [List.getElem?_append_left hlt] at hk
        exact h.numbered k name hk
      · have hk' := (List.getElem?_eq_some_iff.mp hk).1
        obtain rfl : k = j.entries.length := by
          rw [List.length_append, List.length_singleton] at hk'
          omega
        rw [List.getElem?_concat_length, Option.some.injEq] at hk
        rw [← hk, ← h.entryCount]
        rfl

theorem compile_recorded (h : Recorded s.program j) (ht : Tidy s.program) (source : String) :
    Recorded (s.compile source).2.program (j.compiled s source) := by
  unfold Journal.compiled Session.compile Session.triedIn
  rcases hp : Fragment.parse source with errors | f
  · exact h.of_same (by simp [Journal.lowered]) (by simp [Journal.entries, Except.toOption])
  · have hd := define_recorded (s := { s with program := s.program.retireEntry }) h.retireEntry
      ht.retireEntry (Fragment.parse_named hp)
    simp only [Session.lowerFragment]
    rcases hdef : Session.define { s with program := s.program.retireEntry } f.definitions
      with ⟨e | _, s'⟩
    · rw [hdef] at hd
      exact hd.of_same rfl (by simp [Journal.entries, Except.toOption])
    · rw [hdef] at hd
      by_cases hempty : f.statements.isEmpty = true
      · simp only [if_pos hempty]
        exact hd.of_same rfl (by simp [Journal.entries, Except.toOption])
      · simp only [if_neg hempty]
        have ha := addEntry_recorded hd f.statements
        rcases hadd : s'.addEntry f.statements with ⟨e | name, s''⟩ <;> rw [hadd] at ha
        · exact ha.of_same rfl (by simp [Journal.entries, Except.toOption])
        · exact ha

theorem step_recorded {l : Ledger} (h : Recorded l.session.program j)
    (ht : Tidy l.session.program) (c : Session.Command) :
    Recorded (l.step c).session.program (j.enter l.session c) := by
  cases c with
  | compile source => exact compile_recorded h ht source
  | execute entry => exact h.retireEntry
  | eval source =>
      have hc := compile_recorded h ht source
      have heval : (l.step (.eval source)).session = (l.session.eval l.engine source).2.1 := rfl
      rw [heval]
      rcases l.session.eval_effect l.engine source with ⟨hs, -⟩ | ⟨entry, hs, -⟩
      · rw [hs]
        exact hc
      · rw [hs]
        exact hc.retireEntry
  | reset => exact .empty

theorem run_recorded {l : Ledger} (h : Recorded l.session.program j) (ht : Tidy l.session.program)
    (commands : List Session.Command) :
    Recorded (l.run commands).session.program (l.journal j commands) := by
  induction commands generalizing l j with
  | nil => exact h
  | cons c rest ih => exact ih (step_recorded h ht c) (step_tidy ht c)

/-! ## What the books say -/

/-- Without a reset a journal only gets longer. -/
theorem Ledger.lowered_isPrefix (l : Ledger) (j : Journal) {commands : List Session.Command}
    (h : .reset ∉ commands) : j.lowered <+: (l.journal j commands).lowered := by
  induction commands generalizing l j with
  | nil => exact List.prefix_rfl
  | cons c rest ih =>
      rw [List.mem_cons, not_or] at h
      have hstep : j.lowered <+: (j.enter l.session c).lowered := by
        have happend (source : String) : j.lowered <+: (j.compiled l.session source).lowered := by
          simp only [Journal.lowered, Journal.compiled, List.filterMap_append]
          exact List.prefix_append _ _
        cases c with
        | compile source => exact happend source
        | execute entry => exact List.prefix_rfl
        | eval source => exact happend source
        | reset => exact absurd rfl h.1
      exact hstep.trans (ih (l.step c) _ h.2)

/-- What stands last is all that can be an entry point. -/
theorem Tidy.anonymous_last (h : Tidy p) {k : Nat} {r : Routine} (hr : p.routines[k]? = some r)
    (hanonymous : r.anonymous = true) : k + 1 = p.size := by
  have hnot {rs : List Routine} (hrs : Settled rs) : rs[k]? ≠ some r := fun hk =>
    absurd (hrs.named r (List.mem_of_getElem? hk)).1 (by simp [hanonymous])
  rcases h with h | ⟨entry, rs, e, h, hp, -⟩
  · exact absurd hr (hnot h)
  · rw [Program.size, hp, List.length_append, List.length_singleton]
    by_contra hne
    have hlt := (List.getElem?_eq_some_iff.mp hr).1
    rw [hp, List.length_append, List.length_singleton] at hlt
    rw [hp, List.getElem?_append_left (by omega)] at hr
    exact hnot h hr

/-- An evaluation of a source that can be read leaves no entry point. -/
theorem eval_settled (h : Tidy s.program) (engine : Engine) {source : String} {f : Fragment}
    (hp : Fragment.parse source = .ok f) :
    Settled (s.eval engine source).2.1.program.routines := by
  have hnames := lowerFragment_names h (Fragment.parse_named hp)
  unfold Session.eval Session.compile
  simp only [hp]
  rcases hl : s.lowerFragment f with ⟨e | _ | entry, s'⟩ <;> rw [hl] at hnames
  · exact hnames
  · exact hnames
  · have hretired : Settled s'.program.retireEntry.routines :=
      Tidy.retireEntry (Or.inr ⟨entry, hnames⟩)
    rcases hx : s'.execute engine entry with ⟨e | v, s'', engine'⟩
    all_goals
      have hs : s''.program = s'.program.retireEntry := (congrArg (·.2.1.program) hx).symm
      simp only [hx, hs]
      exact hretired

/-- The books of a session. After any commands no name is used twice and only the last routine can
    be an entry point. The other routines are the definitions that could be lowered since the last
    reset, in that order, each lowered in the program of those before it, so that they only get
    more at the end until the next reset. The entry points that were compiled since then are
    numbered from 1 without a gap. An evaluation of a source that can be read leaves none. -/
theorem session_keeps_books (types : TypeTable) (engine : Engine)
    (commands : List Session.Command) :
    let l := (Ledger.new types engine).run commands
    let p := l.session.program
    let j := (Ledger.new types engine).journal {} commands
    (p.routines.map (·.name)).Nodup ∧
    (∀ k r, p.routines[k]? = some r → r.anonymous = true → k + 1 = p.size) ∧
    p.named = j.lowered.map (·.2) ∧
    (∀ k d r, j.lowered[k]? = some (d, r) → r.name = d.name.text ∧ ∃ scope types,
      scope.routines = (j.lowered.take k).map (·.2) ∧
        (Routine.ofDefinition scope types d).1 = .ok r) ∧
    (∀ more, .reset ∉ more → p.named <+: (l.run more).session.program.named) ∧
    (∀ k name, j.entries[k]? = some name → name = "anon$" ++ toString (k + 1)) ∧
    ∀ source f, Fragment.parse source = .ok f →
      ∀ r ∈ (l.session.eval l.engine source).2.1.program.routines, r.anonymous = false := by
  intro l p j
  have htidy : Tidy p := run_tidy types engine commands
  have hnew : Recorded (Ledger.new types engine).session.program {} := .empty
  have hnewTidy : Tidy (Ledger.new types engine).session.program := Or.inl .empty
  have h : Recorded p j := run_recorded hnew hnewTidy commands
  refine ⟨htidy.names, fun k r hr => htidy.anonymous_last hr, h.named, fun k d r hk => ?_,
    fun more hmore => ?_, h.numbered, fun source f hp r hr => ?_⟩
  · obtain ⟨scope, types', hscope, hmade⟩ := h.made k d r hk
    exact ⟨(Routine.lower_name (Routine.ofDefinition_ok hmade).2).1, scope, types', hscope, hmade⟩
  · have hmoreRecorded := run_recorded h htidy more
    rw [h.named, hmoreRecorded.named]
    exact (l.lowered_isPrefix j hmore).map _
  · exact ((eval_settled htidy l.engine hp).named r hr).1

/-- Two definitions that stay, a definition, an entry point and a source that fail, and two entry
    points, the first of which is never executed. -/
def mixedCommands : List Session.Command :=
  [.compile "0", .reset, .compile "def f() \x7b 7 \x7d", .eval "f() + True", .compile "f()",
    .eval "def g() \x7b f() / 0 \x7d; g()", .compile "def h() \x7b 1 + 1.0 \x7d", .eval "1 +"]

theorem mixedCommands_recorded :
    let l := (Ledger.new .empty .new).run mixedCommands
    let j := (Ledger.new .empty .new).journal {} mixedCommands
    j.definitions.length = 3 ∧ l.session.program.named.map (·.name) = ["f", "g"] ∧
      j.lowered.map (·.2.name) = ["f", "g"] ∧ j.entries = ["anon$1", "anon$2"] ∧
      (∀ name, j.entries[1]? = some name → name = "anon$" ++ toString 2) ∧
      ["f", "g"] <+: (l.run [.eval "def h() \x7b 1 \x7d"]).session.program.named.map (·.name) ∧
      ∀ r ∈ (l.session.eval l.engine "f() + g()").2.1.program.routines, r.anonymous = false := by
  intro l j
  obtain ⟨-, -, hnamed, -, hgrows, hnumbered, heval⟩ :=
    session_keeps_books .empty .new mixedCommands
  have hnames : l.session.program.named.map (·.name) = ["f", "g"] := by decide +kernel
  have hparse : (Fragment.parse "f() + g()").isOk = true := by decide +kernel
  refine ⟨by decide +kernel, hnames, ?_, by decide +kernel, fun name => hnumbered 1 name, ?_, ?_⟩
  · rw [← hnames, hnamed, List.map_map]
    rfl
  · rw [← hnames]
    exact (hgrows _ (by simp)).map _
  · rcases hf : Fragment.parse "f() + g()" with errors | f
    · rw [hf] at hparse
      cases hparse
    · exact heval _ f hf

end ScalarLang
