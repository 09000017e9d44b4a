import Mathlib
import ScalarLang.Proofs.Engine.Loading
import ScalarLang.Proofs.Lower.Linking
import ScalarLang.Proofs.Lower.WellFormed
import ScalarLang.Proofs.Session.History

/-
  Linking over whole sessions.
  Calls are bound to positions. Whatever commands a session has run, a routine's imports point to
  routines before it, and these are still what the called names stood for when it was lowered;
  and the table of names of a loaded program agrees with looking names up in the program.
-/

namespace ScalarLang

namespace Traced

variable {p : Program} {origins : List Origin}

theorem signature (h : Traced p origins) {r : Routine} (hr : r ∈ p.routines) :
    r.signature = ⟨[], [r.returnType.machineType]⟩ := by
  obtain ⟨k, hk⟩ := List.mem_iff_getElem?.mp hr
  obtain ⟨o, -, -, types, hlower⟩ := h.made k r hk
  exact Routine.lower_signature hlower

theorem consistent (h : Traced p origins) : p.Consistent := fun r hr => by rw [h.signature hr]

/-- And so was the program that a routine was lowered in. -/
theorem consistent_scope (h : Traced p origins) {position : Nat} {r : Routine} {o : Origin}
    (hr : p.routines[position]? = some r) (ho : origins[position]? = some o) :
    o.scope.Consistent := by
  obtain ⟨o', ho', hscope, -⟩ := h.made position r hr
  obtain rfl : o' = o := Option.some.inj (ho'.symm.trans ho)
  intro r' hr'
  rw [hscope] at hr'
  exact h.consistent r' (List.mem_of_mem_take hr')

theorem signature_ne_intrinsic (h : Traced p origins) {r : Routine} (hr : r ∈ p.routines)
    (i : Intrinsic) : i.signature ≠ r.signature := by
  rw [h.signature hr]
  cases i <;> simp [Intrinsic.signature]

/-- What a name stood for when the routine at a position was lowered stands before it. -/
theorem lookup_scope (h : Traced p origins) {position : Nat} {g : Routine} {o : Origin}
    (hg : p.routines[position]? = some g) (ho : origins[position]? = some o) {name : String}
    {index : Nat} {f : Routine} (hl : o.scope.lookup name = some (index, f)) :
    ∃ k, index = Program.indexAt k ∧ k < position ∧ p.routines[k]? = some f := by
  obtain ⟨o', ho', hscope, -⟩ := h.made position g hg
  obtain rfl : o' = o := Option.some.inj (ho'.symm.trans ho)
  obtain ⟨k, rfl, hf, -⟩ := Program.lookup_eq_some hl
  rw [hscope] at hf
  have hk : k < position := by
    by_contra hge
    rw [List.getElem?_eq_none (by rw [List.length_take]; omega)] at hf
    cases hf
  rw [List.getElem?_take_of_lt hk] at hf
  exact ⟨k, rfl, hk, hf⟩

/-- An import of a routine that is not built in comes from a call, and what the called name stood
    for is still where the import points. -/
theorem import_sound (h : Traced p origins) {position : Nat} {g : Routine} {o : Origin}
    (hg : p.routines[position]? = some g) (ho : origins[position]? = some o) {i : Ir.Import}
    (hi : i ∈ g.code.imports) (hindex : firstRoutineIndex ≤ i.index) :
    ∃ k f, i.index = Program.indexAt k ∧ k < position ∧ p.routines[k]? = some f ∧
      (∃ name ∈ Node.calleesOf o.body, o.scope.lookup name = some (i.index, f)) ∧
      i.signature = f.signature := by
  obtain ⟨o', ho', -, types, hlower⟩ := h.made position g hg
  obtain rfl : o' = o := Option.some.inj (ho'.symm.trans ho)
  rcases Routine.lower_imports hlower i hi with ⟨r, rfl⟩ | ⟨name, hname, f, hl, hs⟩
  · cases r <;> simp [Intrinsic.index, firstRoutineIndex] at hindex
  · obtain ⟨k, hk, hlt, hf⟩ := h.lookup_scope hg ho hl
    exact ⟨k, f, hk, hlt, hf, ⟨name, hname, hl⟩, hs⟩

/-- The table of names of a loaded program. -/
theorem lookup_entries (h : Traced p origins) {image : Image} (hload : Engine.image p = .ok image)
    (name : String) : image.entries.lookup name =
      (p.lookup name).map fun (index, r) => ⟨index, r.returnType.representation⟩ := by
  obtain ⟨-, -, hload⟩ := except_bind_ok hload
  obtain ⟨entries, hdef, hload⟩ := except_bind_ok hload
  obtain rfl : ⟨p.routines, entries⟩ = image := Except.ok.inj hload
  obtain ⟨hs, rfl⟩ := (Engine.defineAll_eq_ok_iff fun r hr => h.signature_ne_intrinsic hr).mp hdef
  exact Program.lookup_table hs name

end Traced

/-- Linking stays sound over whole sessions. After any commands, each routine was lowered from its
    body in the program of that time, and each of its imports that is not built in points to an
    earlier position, where there is now the very routine that a called name stood for then, under
    the signature that the routine has. If the program loads then the table of its names gives for
    each name what looking it up in the program gives. -/
theorem links_stay_sound (types : TypeTable) (engine : Engine) (commands : List Session.Command) :
    let l := (Ledger.new types engine).run commands
    (∀ position g, l.session.program.routines[position]? = some g →
      ∃ o, l.origins[position]? = some o ∧
        (∃ types, (Routine.lower o.scope types g.name g.anonymous o.body).1 = .ok g) ∧
        ∀ i ∈ g.code.imports, firstRoutineIndex ≤ i.index →
          ∃ k f, i.index = Program.indexAt k ∧ k < position ∧
            l.session.program.routines[k]? = some f ∧
            (∃ name ∈ Node.calleesOf o.body, o.scope.lookup name = some (i.index, f)) ∧
            i.signature = f.signature) ∧
    ∀ image, Engine.image l.session.program = .ok image → ∀ name,
      image.entries.lookup name = (l.session.program.lookup name).map fun (index, r) =>
        ⟨index, r.returnType.representation⟩ := by
  intro l
  have h : Traced l.session.program l.origins := run_traced types engine commands
  refine ⟨fun position g hg => ?_, fun image hload => h.lookup_entries hload⟩
  obtain ⟨o, ho, -, hlower⟩ := h.made position g hg
  exact ⟨o, ho, hlower, fun i hi hindex => h.import_sound hg ho hi hindex⟩

/-- Two definitions, the second of which calls the first, with an entry point in between. -/
def linkedSession : Ledger :=
  (Ledger.new .empty .new).run
    [.compile "def f() \x7b 7 \x7d", .eval "f() + 1", .compile "def g() \x7b f() / 2 \x7d"]

/-- The second definition is bound to the first, and the program loads with both names. -/
theorem linkedSession_links :
    (∃ g i f, linkedSession.session.program.routines[1]? = some g ∧ i ∈ g.code.imports ∧
      i.index = Program.indexAt 0 ∧ linkedSession.session.program.routines[0]? = some f ∧
      i.signature = f.signature) ∧
    ∃ image, Engine.image linkedSession.session.program = .ok image ∧
      image.entries.lookup "g" = (linkedSession.session.program.lookup "g").map fun (index, r) =>
        ⟨index, r.returnType.representation⟩ := by
  obtain ⟨hlinks, htable⟩ := links_stay_sound .empty .new
    [.compile "def f() \x7b 7 \x7d", .eval "f() + 1", .compile "def g() \x7b f() / 2 \x7d"]
  constructor
  · have hany : linkedSession.session.program.routines[1]?.any (fun g =>
        g.code.imports.any (·.index == Program.indexAt 0)) = true := by decide +kernel
    obtain ⟨g, hg, hi⟩ := (Option.any_eq_true _ _).mp hany
    obtain ⟨i, hi, hindex⟩ := List.any_eq_true.mp hi
    have hindex : i.index = Program.indexAt 0 := by simpa using hindex
    obtain ⟨o, -, -, himports⟩ := hlinks 1 g hg
    obtain ⟨k, f, hk, -, hf, -, hs⟩ := himports i hi (by rw [hindex]; decide)
    obtain rfl : k = 0 := by
      rw [hindex] at hk
      simpa [Program.indexAt] using hk.symm
    exact ⟨g, i, f, hg, hi, hindex, hf, hs⟩
  · have hload : (Engine.image linkedSession.session.program).toOption.isSome = true := by
      decide +kernel
    rcases hi : Engine.image linkedSession.session.program with e | image
    · rw [hi] at hload
      cases hload
    · exact ⟨image, rfl, htable image hi "g"⟩

end ScalarLang
