import Mathlib
import ScalarLang.Program

/-
  Looking up names and external indices in a program.
  A name stands for the first routine that has it, so a routine that is added at the end changes
  what a name stands for only if no routine had it.
  A program is consistent if its routines return what they are said to return. Routines that were
  lowered do, so every program of a session is consistent. A function from outside does if the one
  result of its signature is the machine type of the type that it is said to have. Of a program that
  is not consistent less is known: operands in code that calls the function may have other types
  than the instructions ask for.
-/

namespace ScalarLang.Program

variable {p q : Program} {name : String} {index : Nat} {r : Routine}

theorem lookup_eq_some (h : p.lookup name = some (index, r)) :
    ∃ k, index = firstRoutineIndex + k ∧ p.routines[k]? = some r ∧
      p.routines.findIdx? (·.name == name) = some k := by
  simp only [Program.lookup, Option.bind_eq_bind, Option.bind_eq_some_iff, Option.pure_def,
    Option.some.injEq, Prod.mk.injEq] at h
  obtain ⟨k, hk, r', hr, hi, rfl⟩ := h
  exact ⟨k, hi.symm, hr, hk⟩

theorem index_le_of_lookup (h : p.lookup name = some (index, r)) : firstRoutineIndex ≤ index := by
  obtain ⟨k, rfl, -⟩ := lookup_eq_some h
  exact Nat.le_add_right _ _

theorem mem_of_lookup (h : p.lookup name = some (index, r)) : r ∈ p.routines := by
  obtain ⟨k, -, hr, -⟩ := lookup_eq_some h
  exact List.mem_of_getElem? hr

theorem name_of_lookup (h : p.lookup name = some (index, r)) : r.name = name := by
  obtain ⟨k, -, hr, hk⟩ := lookup_eq_some h
  obtain ⟨hlt, hname, -⟩ := List.findIdx?_eq_some_iff_getElem.mp hk
  rw [List.getElem?_eq_getElem hlt, Option.some.injEq] at hr
  rw [hr] at hname
  simpa using hname

theorem lookup_eq_none_iff : p.lookup name = none ↔ ∀ r ∈ p.routines, r.name ≠ name := by
  constructor
  · intro h r hr hname
    rcases hk : p.routines.findIdx? (·.name == name) with _ | k
    · simpa [hname] using List.findIdx?_eq_none_iff.mp hk r hr
    · obtain ⟨hlt, -⟩ := List.findIdx?_eq_some_iff_getElem.mp hk
      simp [Program.lookup, hk, hlt] at h
  · intro h
    have hnone : p.routines.findIdx? (·.name == name) = none :=
      List.findIdx?_eq_none_iff.mpr fun r hr => by simpa using h r hr
    simp [Program.lookup, hnone]

theorem find?_name (p : Program) (name : String) :
    p.routines.find? (·.name == name) = (p.lookup name).map (·.2) := by
  rcases hk : p.routines.findIdx? (·.name == name) with _ | k
  · have hnone : p.routines.find? (·.name == name) = none :=
      List.find?_eq_none.mpr fun r hr => by simpa using List.findIdx?_eq_none_iff.mp hk r hr
    simp [Program.lookup, hk, hnone]
  · obtain ⟨hlt, hname, hfirst⟩ := List.findIdx?_eq_some_iff_getElem.mp hk
    have hsome : p.routines.find? (·.name == name) = some p.routines[k] :=
      List.find?_eq_some_iff_getElem.mpr
        ⟨hname, k, hlt, rfl, fun j hj => by simpa using hfirst j hj⟩
    simp [Program.lookup, hk, hlt, hsome]

theorem any_name (p : Program) (name : String) :
    p.routines.any (·.name == name) = p.contains name := by
  rw [Program.contains, Bool.eq_iff_iff, Option.isSome_iff_ne_none, ne_eq, lookup_eq_none_iff]
  simp

/-- If names are used once then a name stands for the routine that has it. -/
theorem lookup_eq_some_iff (h : (p.routines.map (·.name)).Nodup) :
    p.lookup name = some (index, r) ↔
      ∃ k, p.routines[k]? = some r ∧ r.name = name ∧ index = indexAt k := by
  constructor
  · intro hl
    obtain ⟨k, rfl, hr, -⟩ := lookup_eq_some hl
    exact ⟨k, hr, name_of_lookup hl, rfl⟩
  · rintro ⟨k, hr, hname, rfl⟩
    obtain ⟨hlt, hrk⟩ := List.getElem?_eq_some_iff.mp hr
    have hfirst : p.routines.findIdx? (·.name == name) = some k := by
      refine List.findIdx?_eq_some_iff_getElem.mpr ⟨hlt, by simp [hrk, hname], fun j hj he => ?_⟩
      -- an earlier routine would have the name a second time
      have hnames : (p.routines.map (·.name))[j]? = (p.routines.map (·.name))[k]? := by
        have hj' : j < p.routines.length := Nat.lt_trans hj hlt
        simpa [hrk, hname, hj', hlt] using he
      have hlen : j < (p.routines.map (·.name)).length := by simpa using Nat.lt_trans hj hlt
      exact absurd ((List.getElem?_inj hlen h).mp hnames) (Nat.ne_of_lt hj)
    simp [Program.lookup, hfirst, hr]

/-! ## Signatures -/

/-- The signature of what has an external index, if anything has. -/
def signatureAt? (p : Program) (index : Nat) : Option Signature :=
  match Intrinsic.ofIndex? index with
  | some r => some r.signature
  | none => p.routines[index - firstRoutineIndex]?.map (·.signature)

theorem signatureAt?_of_le (h : firstRoutineIndex ≤ index) :
    p.signatureAt? index = p.routines[index - firstRoutineIndex]?.map (·.signature) := by
  have hnone : Intrinsic.ofIndex? index = none := by
    obtain ⟨k, rfl⟩ := Nat.exists_eq_add_of_le' h
    rfl
  rw [Program.signatureAt?, hnone]

theorem signatureAt?_of_lookup (h : p.lookup name = some (index, r)) :
    p.signatureAt? index = some r.signature := by
  rw [signatureAt?_of_le (index_le_of_lookup h)]
  obtain ⟨k, rfl, hr, -⟩ := lookup_eq_some h
  rw [Nat.add_sub_cancel_left, hr]
  rfl

/-- Each routine returns one word, of the type that its result has. -/
def Consistent (p : Program) : Prop :=
  ∀ r ∈ p.routines, r.signature.results = [r.returnType.machineType]

theorem signatureAt?_intrinsic (p : Program) (r : Intrinsic) :
    p.signatureAt? r.index = some r.signature := by
  cases r <;> rfl

/-! ## Two programs -/

theorem lookup_congr (h : q.routines = p.routines) (name : String) :
    q.lookup name = p.lookup name := by
  simp only [Program.lookup, h]

/-- A name in a program with one more routine. -/
theorem lookup_concat {g : Routine} (hq : q.routines = p.routines ++ [g])
    (h : q.lookup name = some (index, r)) :
    p.lookup name = some (index, r) ∨
      p.lookup name = none ∧ g.name = name ∧ index = indexAt p.size ∧ r = g := by
  obtain ⟨k, rfl, hr, hk⟩ := lookup_eq_some h
  rw [hq] at hr hk
  rw [List.findIdx?_append] at hk
  rcases hp : p.routines.findIdx? (·.name == name) with _ | j
  · rw [hp] at hk
    have hnone : p.lookup name = none := by simp [Program.lookup, hp]
    by_cases hg : g.name = name
    · obtain rfl : k = p.size := by simpa [hg, Program.size] using hk.symm
      rw [Program.size, List.getElem?_concat_length] at hr
      exact Or.inr ⟨hnone, hg, rfl, (Option.some.inj hr).symm⟩
    · simp [hg] at hk
  · rw [hp] at hk
    obtain rfl : j = k := by simpa using hk
    obtain ⟨hlt, -⟩ := List.findIdx?_eq_some_iff_getElem.mp hp
    rw [List.getElem?_append_left hlt] at hr
    exact Or.inl (by simp [Program.lookup, hp, hr, indexAt])

end ScalarLang.Program
