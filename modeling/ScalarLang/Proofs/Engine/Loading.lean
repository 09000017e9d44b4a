import Mathlib
import ScalarLang.Engine
import ScalarLang.Proofs.Program

/-
  When a program loads.
  Declaring gives a known name the id that it has, and defining refuses an id that is taken, so a
  program goes into memory exactly if its names differ from each other and from those of the
  built-in routines; no routine has a built-in routine's signature. The ids are then the external
  indices, and the table of names says what looking a name up in the program says.
-/

namespace ScalarLang

/-- A name for each of the routines, which take consecutive ids. -/
def Entry.rows (first : Nat) (rs : List Routine) : List (String × Entry) :=
  (rs.zipIdx first).map fun (r, id) => (r.name, ⟨id, r.returnType.representation⟩)

/-- The table of a program's names, the last routine first. -/
def Program.table (p : Program) : List (String × Entry) :=
  (Entry.rows firstRoutineIndex p.routines).reverse

/-- The names that a loaded program takes up: those of the built-in routines and its own. -/
def Program.symbols (p : Program) : List String :=
  Intrinsic.all.map (·.symbol) ++ p.routines.map (·.name)

theorem except_bind_ok {ε α β : Type} {x : Except ε α} {f : α → Except ε β} {b : β}
    (h : (x >>= f) = .ok b) : ∃ a, x = .ok a ∧ f a = .ok b := by
  cases x with
  | error e => cases h
  | ok a => exact ⟨a, rfl, h⟩

theorem except_bind_error {ε α β : Type} {x : Except ε α} {f : α → Except ε β} {e : ε}
    (h : (x >>= f) = .error e) : x = .error e ∨ ∃ a, x = .ok a ∧ f a = .error e := by
  cases x with
  | error _ => exact Or.inl (congrArg _ (Except.error.inj h))
  | ok a => exact Or.inr ⟨a, rfl, h⟩

theorem eq_ok_of_toOption {ε α : Type} {x : Except ε α} {a : α} (h : x.toOption = some a) :
    x = .ok a := by
  cases x with
  | error e => cases h
  | ok b => exact congrArg Except.ok (Option.some.inj h)

/-! ## Declarations -/

namespace Declaration

variable {known known' : List Declaration} {r : Routine} {rs : List Routine} {id : Nat}
  {ids : List Nat}

theorem declare_fresh (h : ∀ d ∈ known, d.name ≠ r.name) :
    declare known r = .ok (known.length, known ++ [⟨r.name, r.signature⟩]) := by
  have hnone : known.zipIdx.find? (·.1.name == r.name) = none := by
    refine List.find?_eq_none.mpr fun x hx => ?_
    simpa using h x.1 (List.mem_of_getElem? (List.mem_zipIdx_iff_getElem?.mp hx))
  simp only [declare, hnone]

/-- A declared routine is new or has the id of an earlier one of its signature. -/
theorem declare_ok (h : declare known r = .ok (id, known')) :
    ((∀ d ∈ known, d.name ≠ r.name) ∧ id = known.length ∧
      known' = known ++ [⟨r.name, r.signature⟩]) ∨
    ∃ d, known[id]? = some d ∧ d.signature = r.signature := by
  unfold declare at h
  split at h
  case h_1 hnone =>
    simp only [Except.ok.injEq, Prod.mk.injEq] at h
    refine Or.inl ⟨fun d hd => ?_, h.1.symm, h.2.symm⟩
    obtain ⟨k, hk⟩ := List.mem_iff_getElem?.mp hd
    simpa using List.find?_eq_none.mp hnone (d, k) (List.mem_zipIdx_iff_getElem?.mpr hk)
  case h_2 d id' hsome =>
    split at h
    case isTrue hs =>
      simp only [Except.ok.injEq, Prod.mk.injEq] at h
      obtain ⟨rfl, -⟩ := h
      exact Or.inr ⟨d, List.mem_zipIdx_iff_getElem?.mp (List.mem_of_find?_eq_some hsome), hs⟩
    case isFalse => cases h

theorem declareAll_fresh (h : (known.map (·.name) ++ rs.map (·.name)).Nodup) :
    declareAll known rs = .ok (List.range' known.length rs.length) := by
  induction rs generalizing known with
  | nil => rfl
  | cons r rest ih =>
      have hr : ∀ d ∈ known, d.name ≠ r.name := fun d hd he =>
        (List.nodup_append.mp h).2.2 _ (List.mem_map_of_mem hd) _ List.mem_cons_self he
      have hrest : declareAll (known ++ [⟨r.name, r.signature⟩]) rest =
          .ok (List.range' (known.length + 1) rest.length) := by
        rw [ih (by simpa using h), List.length_append, List.length_singleton]
      simp only [declareAll, declare_fresh hr, hrest, bind, Except.bind, List.length_cons,
        List.range'_succ]
      rfl

theorem declareAll_error {e : EngineError} (h : declareAll known rs = .error e) :
    ∃ reason, e = .backend reason := by
  induction rs generalizing known with
  | nil => cases h
  | cons r rest ih =>
      rcases except_bind_error h with hd | ⟨⟨id, known'⟩, -, h⟩
      · unfold declare at hd
        split at hd
        · cases hd
        · split at hd
          · cases hd
          · exact ⟨_, (Except.error.inj hd).symm⟩
      · rcases except_bind_error h with h | ⟨ids, -, h⟩
        · exact ih h
        · cases h

end Declaration

/-! ## Definitions -/

namespace Engine

open Declaration

theorem define_fresh {first : Nat} {defined : List Nat} {entries : List (String × Entry)}
    (rs : List Routine) (h : ∀ id ∈ defined, id < first) :
    define defined entries (rs.zip (List.range' first rs.length)) =
      .ok ((Entry.rows first rs).reverse ++ entries) := by
  induction rs generalizing first defined entries with
  | nil => rfl
  | cons r rest ih =>
      have hnew : defined.contains first = false := by
        simpa using fun hm => Nat.lt_irrefl _ (h first hm)
      have hlt : ∀ id ∈ first :: defined, id < first + 1 := fun id hid => by
        rcases List.mem_cons.mp hid with rfl | hid
        · exact Nat.lt_succ_self _
        · exact Nat.lt_succ_of_lt (h id hid)
      simp only [List.length_cons, List.range'_succ, List.zip_cons_cons, define, hnew]
      simpa [Entry.rows] using ih hlt

/-- Routines that went into memory have new names, if whatever was declared before them and not
    defined has another signature. -/
theorem names_of_define {known : List Declaration} {defined ids : List Nat}
    {entries entries' : List (String × Entry)} {rs : List Routine}
    (hids : declareAll known rs = .ok ids)
    (hdef : define defined entries (rs.zip ids) = .ok entries')
    (hknown : ∀ id d, known[id]? = some d → id ∈ defined ∨ ∀ r ∈ rs, d.signature ≠ r.signature) :
    (rs.map (·.name)).Nodup ∧ ∀ r ∈ rs, ∀ d ∈ known, d.name ≠ r.name := by
  induction rs generalizing known defined entries ids with
  | nil => exact ⟨List.nodup_nil, by simp⟩
  | cons r rest ih =>
      obtain ⟨⟨id, known'⟩, hd, hrest⟩ := except_bind_ok hids
      obtain ⟨ids', hids', hids''⟩ := except_bind_ok hrest
      obtain rfl : id :: ids' = ids := Except.ok.inj hids''
      rw [List.zip_cons_cons, define] at hdef
      split at hdef
      · cases hdef
      rename_i hfree
      rcases declare_ok hd with ⟨hnew, rfl, rfl⟩ | ⟨d, hk, hs⟩
      · obtain ⟨hnodup, hother⟩ := ih hids' hdef fun id d hk => by
          rcases Nat.lt_trichotomy id known.length with hlt | rfl | hgt
          · rw [List.getElem?_append_left hlt] at hk
            exact (hknown id d hk).imp (List.mem_cons_of_mem _)
              fun hr r' hr' => hr r' (List.mem_cons_of_mem _ hr')
          · exact Or.inl List.mem_cons_self
          · have := (List.getElem?_eq_some_iff.mp hk).1
            rw [List.length_append, List.length_singleton] at this
            omega
        refine ⟨?_, ?_⟩
        · rw [List.map_cons, List.nodup_cons]
          refine ⟨fun hm => ?_, hnodup⟩
          obtain ⟨r', hr', he⟩ := List.mem_map.mp hm
          exact hother r' hr' ⟨r.name, r.signature⟩ (by simp) he.symm
        · intro r' hr' d hmem
          rcases List.mem_cons.mp hr' with rfl | hr'
          · exact hnew d hmem
          · exact hother r' hr' d (List.mem_append_left _ hmem)
      · -- the id of an earlier declaration is taken or its signature is another one
        rcases hknown id d hk with hin | hsig
        · exact absurd (List.contains_iff_mem.mpr hin) hfree
        · exact absurd hs (hsig r List.mem_cons_self)

theorem define_error {defined : List Nat} {entries : List (String × Entry)}
    {rs : List (Routine × Nat)} {e : EngineError} (h : define defined entries rs = .error e) :
    ∃ reason, e = .backend reason := by
  induction rs generalizing defined entries with
  | nil => cases h
  | cons x rest ih =>
      rw [define] at h
      split at h
      · exact ⟨_, (Except.error.inj h).symm⟩
      · exact ih h

/-- A checked program that does not load is one that the backend refuses. -/
theorem defineAll_error {p : Program} {e : EngineError} (h : defineAll p = .error e) :
    ∃ reason, e = .backend reason := by
  rcases except_bind_error h with h | ⟨ids, -, h⟩
  · exact declareAll_error h
  · exact define_error h

theorem defineAll_eq_ok_iff {p : Program} {entries : List (String × Entry)}
    (h : ∀ r ∈ p.routines, ∀ i : Intrinsic, i.signature ≠ r.signature) :
    defineAll p = .ok entries ↔ p.symbols.Nodup ∧ entries = p.table := by
  have hnames : Declaration.intrinsics.map (·.name) = Intrinsic.all.map (·.symbol) := rfl
  have hfresh (hs : p.symbols.Nodup) : defineAll p = .ok p.table := by
    have hids : declareAll intrinsics p.routines =
        .ok (List.range' firstRoutineIndex p.routines.length) :=
      declareAll_fresh (by rwa [hnames])
    simp only [defineAll, hids, bind, Except.bind]
    rw [define_fresh p.routines (by simp), List.append_nil, Program.table]
  constructor
  · intro hok
    obtain ⟨ids, hids, hdef⟩ := except_bind_ok hok
    obtain ⟨hnodup, hother⟩ := names_of_define hids hdef fun id d hk => by
      obtain ⟨i, -, rfl⟩ := List.mem_map.mp (List.mem_of_getElem? hk)
      exact Or.inr fun r hr => h r hr i
    have hs : p.symbols.Nodup := by
      refine List.nodup_append.mpr ⟨by decide, hnodup, fun a ha b hb hab => ?_⟩
      rw [← hnames] at ha
      obtain ⟨d, hd, rfl⟩ := List.mem_map.mp ha
      obtain ⟨r, hr, rfl⟩ := List.mem_map.mp hb
      exact hother r hr d hd hab
    rw [hfresh hs] at hok
    exact ⟨hs, (Except.ok.inj hok).symm⟩
  · rintro ⟨hs, rfl⟩
    exact hfresh hs

end Engine

/-- If names are used once then the built-in routines are all that a name can clash with. -/
theorem Program.symbols_nodup_iff {p : Program} (h : (p.routines.map (·.name)).Nodup) :
    p.symbols.Nodup ↔ ∀ r ∈ p.routines, Intrinsic.ofSymbol? r.name = none := by
  have hall : (Intrinsic.all.map (·.symbol)).Nodup := by decide
  simp only [Program.symbols, List.nodup_append, Intrinsic.ofSymbol?, List.find?_eq_none,
    List.mem_map, beq_iff_eq]
  constructor
  · rintro ⟨-, -, hne⟩ r hr i hi
    exact hne _ ⟨i, hi, rfl⟩ _ ⟨r, hr, rfl⟩
  · intro hne
    refine ⟨hall, h, ?_⟩
    rintro _ ⟨i, hi, rfl⟩ _ ⟨r, hr, rfl⟩
    exact hne r hr i hi

/-! ## Runs -/

namespace Engine

variable {engine : Engine} {p : Program}

theorem execute_of_image (h : engine.isLoaded = false) {image : Image}
    (himage : Engine.image p = .ok image) (entry : String) :
    engine.execute p entry = (call ⟨some image⟩ entry, ⟨none⟩) := by
  have hload : engine.load p = (.ok (), ⟨some image⟩) := by
    rw [load, h, himage]
    rfl
  rw [execute, hload]
  rfl

theorem execute_of_error (h : engine.isLoaded = false) {e : EngineError}
    (himage : Engine.image p = .error e) (entry : String) :
    engine.execute p entry = (.error e, engine) := by
  have hload : engine.load p = (.error e, engine) := by
    rw [load, h, himage]
    rfl
  rw [execute, hload]

/-- An engine without a program has none after a run. -/
theorem execute_unloaded (h : engine.isLoaded = false) (p : Program) (entry : String) :
    (engine.execute p entry).2.isLoaded = false := by
  rcases himage : Engine.image p with e | image
  · rw [execute_of_error h himage]
    exact h
  · rw [execute_of_image h himage]
    rfl

/-- A run leaves an engine as it was. -/
theorem execute_engine (engine : Engine) (p : Program) (entry : String) :
    (engine.execute p entry).2 = engine := by
  rcases hloaded : engine.isLoaded with _ | _
  · rcases himage : Engine.image p with e | image
    · rw [execute_of_error hloaded himage]
    · obtain ⟨resident⟩ := engine
      obtain rfl : resident = none := by simpa [isLoaded] using hloaded
      rw [execute_of_image hloaded himage]
  · simp only [execute, load, hloaded, if_true]

end Engine

/-! ## The table of names -/

theorem lookup_eq_some_iff_mem {β : Type} {l : List (String × β)} {k : String} {v : β}
    (h : (l.map (·.1)).Nodup) : l.lookup k = some v ↔ (k, v) ∈ l := by
  induction l with
  | nil => simp
  | cons x rest ih =>
      obtain ⟨k', v'⟩ := x
      rw [List.map_cons, List.nodup_cons] at h
      rw [List.lookup_cons, List.mem_cons]
      by_cases hk : k = k'
      · subst hk
        have hrest : (k, v) ∉ rest := fun hm => h.1 (List.mem_map.mpr ⟨_, hm, rfl⟩)
        simp [hrest, eq_comm]
      · rw [beq_false_of_ne hk]
        simp [hk, ih h.2]

theorem Program.mem_table {p : Program} {name : String} {e : Entry} :
    (name, e) ∈ p.table ↔ ∃ k r, p.routines[k]? = some r ∧ r.name = name ∧
      e = ⟨indexAt k, r.returnType.representation⟩ := by
  simp only [Program.table, Entry.rows, List.mem_reverse, List.mem_map, Prod.exists, Prod.mk.injEq,
    List.mem_zipIdx_iff_le_and_getElem?_sub]
  constructor
  · rintro ⟨r, id, ⟨hle, hr⟩, hname, rfl⟩
    refine ⟨id - firstRoutineIndex, r, hr, hname, ?_⟩
    rw [indexAt, Nat.add_sub_cancel' hle]
  · rintro ⟨k, r, hr, hname, rfl⟩
    refine ⟨r, indexAt k, ⟨Nat.le_add_right _ _, ?_⟩, hname, rfl⟩
    rwa [indexAt, Nat.add_sub_cancel_left]

theorem Program.lookup_table {p : Program} (h : p.symbols.Nodup) (name : String) :
    p.table.lookup name =
      (p.lookup name).map fun (index, r) => ⟨index, r.returnType.representation⟩ := by
  have hnames : (p.routines.map (·.name)).Nodup := (List.nodup_append.mp h).2.1
  have hrows : (p.table.map (·.1)).Nodup := by
    have : (Entry.rows firstRoutineIndex p.routines).map (·.1) = p.routines.map (·.name) := by
      rw [Entry.rows, List.map_map, ← List.zipIdx_map_fst firstRoutineIndex p.routines,
        List.map_map]
      simp [Function.comp_def]
    rw [Program.table, List.map_reverse, this]
    exact List.nodup_reverse.mpr hnames
  refine Option.ext fun e => ?_
  rw [lookup_eq_some_iff_mem hrows, Program.mem_table, Option.map_eq_some_iff]
  constructor
  · rintro ⟨k, r, hr, hname, rfl⟩
    exact ⟨(indexAt k, r), (Program.lookup_eq_some_iff hnames).mpr ⟨k, hr, hname, rfl⟩, rfl⟩
  · rintro ⟨⟨index, r⟩, hl, rfl⟩
    obtain ⟨k, hr, hname, rfl⟩ := (Program.lookup_eq_some_iff hnames).mp hl
    exact ⟨k, r, hr, hname, rfl⟩

end ScalarLang
