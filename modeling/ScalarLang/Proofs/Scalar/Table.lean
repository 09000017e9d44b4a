import Mathlib
import ScalarLang.Scalar.Table

/-
  The numbers of types.
  A table has each type at most once, at the place that is its number, and a request adds to its end
  at most. So a type that was requested keeps its number, and two types have one number if and only
  if they are one type.
-/

namespace ScalarLang

namespace TypeTable

variable {t t' t'' : TypeTable} {ty : ScalarType}

/-- The table after a request for a type whose number is not needed. -/
def insert (t : TypeTable) (ty : ScalarType) : TypeTable := (t.intern ty).2

/-- The tables that requests lead to. -/
inductive Reachable : TypeTable → Prop where
  | empty : Reachable .empty
  | intern {t : TypeTable} (ty : ScalarType) : Reachable t → Reachable (t.intern ty).2

theorem lookup_eq_none_iff : t.numbers.lookup ty = none ↔ ty ∉ t.types := by
  rw [Option.eq_none_iff_forall_ne_some, List.mem_iff_getElem?, not_exists]
  exact forall_congr' fun n => not_congr (t.inverse ty n)

theorem intern_types (t : TypeTable) (ty : ScalarType) :
    (t.intern ty).2.types = if ty ∈ t.types then t.types else t.types ++ [ty] := by
  unfold intern
  split
  · rename_i n hn
    rw [if_pos (List.mem_of_getElem? ((t.inverse ty n).mp hn))]
  · rename_i hnone
    rw [if_neg (lookup_eq_none_iff.mp hnone)]
    rfl

@[simp]
theorem mem_insert {ty' : ScalarType} :
    ty' ∈ (t.insert ty).types ↔ ty' ∈ t.types ∨ ty' = ty := by
  rw [insert, intern_types]
  split
  · rename_i hty
    exact ⟨Or.inl, fun h => h.elim id fun h => h ▸ hty⟩
  · simp

theorem insert_isPrefix (t : TypeTable) (ty : ScalarType) : t.types <+: (t.insert ty).types := by
  rw [insert, intern_types]
  split
  · exact List.prefix_rfl
  · exact List.prefix_append _ _

/-- A type that is in the table has a number. -/
theorem exists_get? (h : ty ∈ t.types) : ∃ n, t.get? n = some ty := List.mem_iff_getElem?.mp h

/-- A request gives the number that the type has then. -/
theorem get?_intern (t : TypeTable) (ty : ScalarType) :
    (t.intern ty).2.get? (t.intern ty).1 = some ty := by
  unfold intern get?
  split
  · rename_i n hn
    exact (t.inverse ty n).mp hn
  · exact List.getElem?_concat_length

theorem Reachable.nodup (h : t.Reachable) : t.types.Nodup := by
  induction h with
  | empty => exact List.nodup_nil
  | @intern t ty _ ih =>
      rw [intern_types]
      split
      · exact ih
      · rename_i hty
        rw [← List.concat_eq_append]
        exact ih.concat hty

/-- Equal numbers mean equal types, and the other way round. -/
theorem Reachable.number_eq_iff (h : t.Reachable) {m n : Nat} {a b : ScalarType}
    (ha : t.get? m = some a) (hb : t.get? n = some b) : m = n ↔ a = b := by
  obtain ⟨hm, rfl⟩ := List.getElem?_eq_some_iff.mp ha
  obtain ⟨hn, rfl⟩ := List.getElem?_eq_some_iff.mp hb
  exact (h.nodup.getElem_inj_iff).symm

/-- The second table is the first one after some requests. -/
def Grown (t t' : TypeTable) : Prop := ∃ requests : List ScalarType, t' = requests.foldl insert t

namespace Grown

theorem refl (t : TypeTable) : t.Grown t := ⟨[], rfl⟩

theorem insert (t : TypeTable) (ty : ScalarType) : t.Grown (t.insert ty) := ⟨[ty], rfl⟩

theorem trans (h : t.Grown t') (h' : t'.Grown t'') : t.Grown t'' := by
  obtain ⟨requests, rfl⟩ := h
  obtain ⟨requests', rfl⟩ := h'
  exact ⟨requests ++ requests', (List.foldl_append).symm⟩

/-- No type loses its number. -/
theorem isPrefix (h : t.Grown t') : t.types <+: t'.types := by
  obtain ⟨requests, rfl⟩ := h
  induction requests generalizing t with
  | nil => exact List.prefix_rfl
  | cons ty rest ih => exact (t.insert_isPrefix ty).trans ih

theorem get? (h : t.Grown t') {n : Nat} (hn : t.get? n = some ty) : t'.get? n = some ty := by
  obtain ⟨more, hmore⟩ := h.isPrefix
  obtain ⟨hlt, -⟩ := List.getElem?_eq_some_iff.mp hn
  rw [TypeTable.get?, ← hmore, List.getElem?_append_left hlt]
  exact hn

theorem mem (h : t.Grown t') (hty : ty ∈ t.types) : ty ∈ t'.types := h.isPrefix.subset hty

theorem reachable (h : t.Grown t') (ht : t.Reachable) : t'.Reachable := by
  obtain ⟨requests, rfl⟩ := h
  induction requests generalizing t with
  | nil => exact ht
  | cons ty rest ih => exact ih (ht.intern ty)

end Grown

end TypeTable

end ScalarLang
