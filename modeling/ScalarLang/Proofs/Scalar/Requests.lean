import Mathlib
import ScalarLang.Proofs.Scalar.Table

/-
  Requests for types.
  In whatever way a type is asked for, a form is meant, a class with a width, and there is one type
  of each form that a class has. The step lemma says what a request does: it fails and changes
  nothing, or it gives the number of the type. Numbers and types stay as they are from then on, and
  a new type gets the number of types before it.
-/

namespace ScalarLang

/-- The widths that a class has. -/
def TypeClass.widths : TypeClass → List Nat
  | boolean => [1]
  | signedInteger | unsignedInteger => [8, 16, 32, 64]
  | pointer => [32, 64]
  | float16 => [16]
  | float32 => [32]
  | float64 => [64]

namespace ScalarType

/-- The class and the width of a type. -/
def form (ty : ScalarType) : TypeClass × Nat := (ty.typeClass, ty.width)

theorem ofWidth?_form (ty : ScalarType) : ofWidth? ty.form.1 ty.form.2 = some ty := by
  cases ty with
  | signed w | unsigned w | pointer w => cases w <;> rfl
  | boolean | float16 | float32 | float64 => rfl

theorem form_injective : Function.Injective form := by
  intro ty ty' h
  have hty := ofWidth?_form ty
  rw [h, ofWidth?_form] at hty
  exact (Option.some.inj hty).symm

theorem form_of_ofWidth? {cls : TypeClass} {width : Nat} {ty : ScalarType}
    (h : ofWidth? cls width = some ty) : ty.form = (cls, width) := by
  unfold ofWidth? at h
  split at h <;> cases h <;> rfl

theorem isSome_ofWidth? (cls : TypeClass) (width : Nat) :
    (ofWidth? cls width).isSome ↔ width ∈ cls.widths := by
  constructor
  · intro h
    obtain ⟨ty, hty⟩ := Option.isSome_iff_exists.mp h
    obtain ⟨rfl, rfl⟩ := Prod.mk.inj (form_of_ofWidth? hty)
    cases ty with
    | signed w | unsigned w | pointer w => cases w <;> decide
    | boolean | float16 | float32 | float64 => decide
  · revert width
    cases cls <;> decide

end ScalarType

/-- The form that a request asks for. -/
def TypeRequest.form : TypeRequest → TypeClass × Nat
  | sized cls width => (cls, width)
  | signed width => (.signedInteger, width)
  | unsigned width => (.unsignedInteger, width)
  | pointer width => (.pointer, width)
  | boolean => (.boolean, 1)
  | i64 => (.signedInteger, 64)
  | u64 => (.unsignedInteger, 64)
  | float16 => (.float16, 16)
  | float32 => (.float32, 32)
  | float64 => (.float64, 64)

namespace TypeTable

variable {t : TypeTable} {ty : ScalarType} {r : TypeRequest}

/-- Asking for a type in any way is asking for its form. -/
theorem ask_eq (t : TypeTable) (r : TypeRequest) : t.ask r = t.request r.form.1 r.form.2 := by
  cases r <;> rfl

/-- The answer to a request, and the table after it. -/
def serve (t : TypeTable) (r : TypeRequest) : Except TypeError Nat × TypeTable :=
  match t.ask r with
  | .ok (n, t') => (.ok n, t')
  | .error e => (.error e, t)

/-- The answers to requests, one after the other, and the table after all of them. -/
def serveAll (t : TypeTable) : List TypeRequest → List (Except TypeError Nat) × TypeTable
  | [] => ([], t)
  | r :: rest =>
    let (answer, t) := t.serve r
    let (answers, t) := t.serveAll rest
    (answer :: answers, t)

/-! ## One request -/

/-- All that a request can do. -/
theorem serve_cases (t : TypeTable) (r : TypeRequest) :
    (r.form.2 ∉ r.form.1.widths ∧
      t.serve r = (.error (.invalidWidth r.form.1 r.form.2), t)) ∨
    ∃ ty : ScalarType, r.form.2 ∈ r.form.1.widths ∧ ty.form = r.form ∧
      t.serve r = (.ok (t.intern ty).1, (t.intern ty).2) := by
  have hsome := ScalarType.isSome_ofWidth? r.form.1 r.form.2
  rw [serve, ask_eq, request]
  cases hty : ScalarType.ofWidth? r.form.1 r.form.2 with
  | none => exact Or.inl ⟨by simpa [hty] using hsome, rfl⟩
  | some ty => exact Or.inr ⟨ty, by simpa [hty] using hsome, ScalarType.form_of_ofWidth? hty, rfl⟩

theorem intern_new (h : ty ∉ t.types) : (t.intern ty).1 = t.size := by
  unfold intern
  split
  · rename_i n hn
    exact absurd (List.mem_of_getElem? ((t.inverse ty n).mp hn)) h
  · rfl

theorem serve_isPrefix (t : TypeTable) (r : TypeRequest) : t.types <+: (t.serve r).2.types := by
  rcases t.serve_cases r with ⟨-, h⟩ | ⟨ty, -, -, h⟩
  · rw [h]
  · rw [h]
    exact t.insert_isPrefix ty

/-! ## A sequence of requests -/

theorem serveAll_append (t : TypeTable) (rs rs' : List TypeRequest) :
    t.serveAll (rs ++ rs') = ((t.serveAll rs).1 ++ ((t.serveAll rs).2.serveAll rs').1,
      ((t.serveAll rs).2.serveAll rs').2) := by
  induction rs generalizing t with
  | nil => rfl
  | cons r rs ih => simp only [List.cons_append, serveAll, ih]

theorem serveAll_isPrefix (t : TypeTable) (rs : List TypeRequest) :
    t.types <+: (t.serveAll rs).2.types := by
  induction rs generalizing t with
  | nil => exact List.prefix_rfl
  | cons r rs ih => exact (t.serve_isPrefix r).trans (ih _)

theorem Reachable.serve (h : t.Reachable) (r : TypeRequest) : (t.serve r).2.Reachable := by
  rcases t.serve_cases r with ⟨-, hr⟩ | ⟨ty, -, -, hr⟩
  · rwa [hr]
  · rw [hr]
    exact h.intern ty

theorem Reachable.serveAll (h : t.Reachable) (rs : List TypeRequest) :
    (t.serveAll rs).2.Reachable := by
  induction rs generalizing t with
  | nil => exact h
  | cons r rs ih => exact ih (h.serve r)

end TypeTable

namespace TypeRequest

/-- The table after some requests to an empty one. -/
def tableAfter (rs : List TypeRequest) : TypeTable := (TypeTable.empty.serveAll rs).2

/-- The answers to some requests to an empty table. -/
def answers (rs : List TypeRequest) : List (Except TypeError Nat) := (TypeTable.empty.serveAll rs).1

/-- The forms that some requests ask for and that exist. -/
def forms (rs : List TypeRequest) : Finset (TypeClass × Nat) :=
  ((rs.map form).filter fun f => f.2 ∈ f.1.widths).toFinset

variable {rs rs' : List TypeRequest} {r r' : TypeRequest} {i k n n' : Nat}

theorem tableAfter_reachable (rs : List TypeRequest) : (tableAfter rs).Reachable :=
  TypeTable.Reachable.empty.serveAll rs

theorem tableAfter_append (rs rs' : List TypeRequest) :
    tableAfter (rs ++ rs') = ((tableAfter rs).serveAll rs').2 := by
  rw [tableAfter, TypeTable.serveAll_append]
  rfl

theorem tableAfter_concat (rs : List TypeRequest) (r : TypeRequest) :
    tableAfter (rs ++ [r]) = ((tableAfter rs).serve r).2 := tableAfter_append rs [r]

theorem length_answers (rs : List TypeRequest) : (answers rs).length = rs.length := by
  unfold answers
  generalize TypeTable.empty = t
  induction rs generalizing t with
  | nil => rfl
  | cons r rs ih => exact congrArg (· + 1) (ih _)

/-- A request is answered by the table that the requests before it have made. -/
theorem getElem?_answers (h : rs[i]? = some r) :
    (answers rs)[i]? = some ((tableAfter (rs.take i)).serve r).1 := by
  obtain ⟨hi, rfl⟩ := List.getElem?_eq_some_iff.mp h
  have hlength : (answers (rs.take i)).length = i := by
    rw [length_answers, List.length_take, Nat.min_eq_left hi.le]
  have hsplit : rs = rs.take i ++ rs[i] :: rs.drop (i + 1) := by
    rw [← List.drop_eq_getElem_cons hi, List.take_append_drop]
  have hanswers : answers rs = answers (rs.take i) ++
      ((tableAfter (rs.take i)).serveAll (rs[i] :: rs.drop (i + 1))).1 := by
    conv_lhs => rw [hsplit]
    rw [answers, TypeTable.serveAll_append]
    rfl
  rw [hanswers, List.getElem?_append_right hlength.le, hlength, Nat.sub_self]
  rfl

theorem tableAfter_take_succ (h : rs[i]? = some r) :
    tableAfter (rs.take (i + 1)) = ((tableAfter (rs.take i)).serve r).2 := by
  rw [List.take_add_one, h, Option.toList_some, tableAfter_concat]

/-- A number that is given out is that of the type of the form that was asked for. -/
theorem intern_of_answer (h : rs[i]? = some r) (hn : (answers rs)[i]? = some (.ok n)) :
    ∃ ty : ScalarType, ty.form = r.form ∧ ((tableAfter (rs.take i)).intern ty).1 = n ∧
      ((tableAfter (rs.take i)).intern ty).2 = tableAfter (rs.take (i + 1)) := by
  rw [getElem?_answers h, Option.some.injEq] at hn
  rw [tableAfter_take_succ h]
  rcases (tableAfter (rs.take i)).serve_cases r with ⟨-, hr⟩ | ⟨ty, -, hty, hr⟩
  · rw [hr] at hn
    cases hn
  · rw [hr, Except.ok.injEq] at hn
    exact ⟨ty, hty, hn, by rw [hr]⟩

/-- A number that was given out stays the number of that type. -/
theorem get?_of_answer (h : rs[i]? = some r) (hn : (answers rs)[i]? = some (.ok n)) (hk : i < k) :
    ∃ ty : ScalarType, ty.form = r.form ∧ (tableAfter (rs.take k)).get? n = some ty := by
  obtain ⟨ty, hty, rfl, htable⟩ := intern_of_answer h hn
  refine ⟨ty, hty, ?_⟩
  have hnext := TypeTable.get?_intern (tableAfter (rs.take i)) ty
  rw [htable] at hnext
  have hsplit : rs.take k = rs.take (i + 1) ++ (rs.take k).drop (i + 1) := by
    conv_lhs => rw [← List.take_append_drop (i + 1) (rs.take k)]
    rw [List.take_take, Nat.min_eq_left hk]
  obtain ⟨more, hmore⟩ := (tableAfter (rs.take (i + 1))).serveAll_isPrefix
    ((rs.take k).drop (i + 1))
  rw [hsplit, tableAfter_append, TypeTable.get?, ← hmore]
  exact List.getElem?_append_left (List.getElem?_eq_some_iff.mp hnext).1 ▸ hnext

/-! ## What the table has -/

theorem mem_forms {f : TypeClass × Nat} :
    f ∈ forms rs ↔ (∃ r ∈ rs, r.form = f) ∧ f.2 ∈ f.1.widths := by
  simp [forms]

theorem exists_mem_tableAfter (rs : List TypeRequest) (f : TypeClass × Nat) :
    (∃ ty ∈ (tableAfter rs).types, ty.form = f) ↔ f ∈ forms rs := by
  induction rs using List.reverseRecOn with
  | nil => simp [tableAfter, TypeTable.serveAll, TypeTable.empty, forms]
  | append_singleton rs r ih =>
      have hforms : f ∈ forms (rs ++ [r]) ↔
          f ∈ forms rs ∨ r.form = f ∧ f.2 ∈ f.1.widths := by
        simp only [mem_forms, List.mem_append, List.mem_singleton, or_and_right, exists_or,
          exists_eq_left]
      rw [hforms, ← ih, tableAfter_concat]
      rcases (tableAfter rs).serve_cases r with ⟨hwidth, hr⟩ | ⟨ty, hwidth, hty, hr⟩
      · have hnone : ¬ (r.form = f ∧ f.2 ∈ f.1.widths) := by
          rintro ⟨rfl, h⟩
          exact hwidth h
        rw [hr, or_iff_left hnone]
      · have hmem : ∀ ty', ty' ∈ ((tableAfter rs).intern ty).2.types ↔
            ty' ∈ (tableAfter rs).types ∨ ty' = ty := fun _ => TypeTable.mem_insert
        have hnew : r.form = f ∧ f.2 ∈ f.1.widths ↔ ty.form = f := by
          rw [hty, and_iff_left_iff_imp]
          rintro rfl
          exact hwidth
        simp only [hr, hmem, or_and_right, exists_or, exists_eq_left, hnew]

theorem size_tableAfter (rs : List TypeRequest) : (tableAfter rs).size = (forms rs).card := by
  have hforms : ((tableAfter rs).types.map ScalarType.form).toFinset = forms rs := by
    ext f
    rw [List.mem_toFinset, List.mem_map, exists_mem_tableAfter]
  rw [← hforms, List.toFinset_card_of_nodup
    ((tableAfter_reachable rs).nodup.map ScalarType.form_injective), List.length_map]
  rfl

/-- The numbers that an empty table gives out for requests. -/
structure Numbered (rs : List TypeRequest) : Prop where
  /-- Two requests get one number if and only if they ask for one form. -/
  same_iff : ∀ (i j : Nat) (r r' : TypeRequest) (n n' : Nat), rs[i]? = some r →
    rs[j]? = some r' → (answers rs)[i]? = some (.ok n) →
      (answers rs)[j]? = some (.ok n') → (n = n' ↔ r.form = r'.form)
  /-- At any later time the number leads to the form that was asked for. -/
  kept : ∀ (i k : Nat) (r : TypeRequest) (n : Nat), rs[i]? = some r →
    (answers rs)[i]? = some (.ok n) → i < k →
      ((tableAfter (rs.take k)).get? n).map ScalarType.form = some r.form
  answered : (answers rs).length = rs.length
  fails_iff : ∀ (i : Nat) (r : TypeRequest), rs[i]? = some r →
    ((∃ e, (answers rs)[i]? = some (.error e)) ↔ r.form.2 ∉ r.form.1.widths)
  /-- A request that fails changes nothing. -/
  unchanged : ∀ (i : Nat) (r : TypeRequest) (e : TypeError), rs[i]? = some r →
    (answers rs)[i]? = some (.error e) → e = .invalidWidth r.form.1 r.form.2 ∧
      tableAfter (rs.take (i + 1)) = tableAfter (rs.take i)
  /-- A form that was not asked for before gets the number of forms that were. -/
  in_order : ∀ (i : Nat) (r : TypeRequest) (n : Nat), rs[i]? = some r →
    (answers rs)[i]? = some (.ok n) → (∀ r' ∈ rs.take i, r'.form ≠ r.form) →
      n = (forms (rs.take i)).card
  size_eq : (tableAfter rs).size = (forms rs).card

theorem answer_eq_error_iff (h : rs[i]? = some r) :
    (∃ e, (answers rs)[i]? = some (.error e)) ↔ r.form.2 ∉ r.form.1.widths := by
  rw [getElem?_answers h]
  rcases (tableAfter (rs.take i)).serve_cases r with ⟨hwidth, hr⟩ | ⟨ty, hwidth, -, hr⟩
  · rw [hr]
    exact iff_of_true ⟨_, rfl⟩ hwidth
  · rw [hr]
    refine iff_of_false ?_ (not_not.mpr hwidth)
    rintro ⟨e, he⟩
    cases he

theorem answer_new (h : rs[i]? = some r) (hn : (answers rs)[i]? = some (.ok n))
    (hnew : ∀ r' ∈ rs.take i, r'.form ≠ r.form) : n = (tableAfter (rs.take i)).size := by
  obtain ⟨ty, hty, rfl, -⟩ := intern_of_answer h hn
  refine TypeTable.intern_new fun hmem => ?_
  have hasked := (exists_mem_tableAfter (rs.take i) r.form).mp ⟨ty, hmem, hty⟩
  obtain ⟨⟨r', hr', hform⟩, -⟩ := mem_forms.mp hasked
  exact hnew r' hr' hform

end TypeRequest

/-- Types are numbered in the order of their first request, and a number never changes its type. -/
theorem types_numbered_in_order (rs : List TypeRequest) : TypeRequest.Numbered rs where
  same_iff i j r r' n n' hr hr' hn hn' := by
    obtain ⟨hi, -⟩ := List.getElem?_eq_some_iff.mp hr
    obtain ⟨hj, -⟩ := List.getElem?_eq_some_iff.mp hr'
    obtain ⟨ty, hty, hget⟩ := TypeRequest.get?_of_answer hr hn hi
    obtain ⟨ty', hty', hget'⟩ := TypeRequest.get?_of_answer hr' hn' hj
    rw [(TypeRequest.tableAfter_reachable _).number_eq_iff hget hget', ← hty, ← hty',
      ScalarType.form_injective.eq_iff]
  kept i k r n hr hn hk := by
    obtain ⟨ty, hty, hget⟩ := TypeRequest.get?_of_answer hr hn hk
    rw [hget, Option.map_some, hty]
  answered := TypeRequest.length_answers rs
  fails_iff i r hr := TypeRequest.answer_eq_error_iff hr
  unchanged i r e hr he := by
    rw [TypeRequest.getElem?_answers hr, Option.some.injEq] at he
    rw [TypeRequest.tableAfter_take_succ hr]
    rcases (TypeRequest.tableAfter (rs.take i)).serve_cases r with ⟨-, hserve⟩ | ⟨ty, -, -, hserve⟩
    · rw [hserve, Except.error.injEq] at he
      exact ⟨he.symm, by rw [hserve]⟩
    · rw [hserve] at he
      cases he
  in_order i r n hr hn hnew := by
    rw [TypeRequest.answer_new hr hn hnew, TypeRequest.size_tableAfter]
  size_eq := TypeRequest.size_tableAfter rs

example : TypeRequest.answers [.i64, .sized .boolean 8, .boolean, .signed 64] =
    [.ok 0, .error (.invalidWidth .boolean 8), .ok 1, .ok 0] := rfl

end ScalarLang
