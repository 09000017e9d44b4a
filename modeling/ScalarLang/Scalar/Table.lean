import ScalarLang.Scalar.Basic

/-
  The table of the types in use. Types are numbered in the order of their first request, and a
  number never changes its type.
-/

namespace ScalarLang

/-- The types requested so far, each once, in the order of their numbers, and the number of each,
    by which a request finds it again. -/
structure TypeTable where
  types : List ScalarType
  numbers : List (ScalarType × Nat)
  inverse : ∀ ty n, numbers.lookup ty = some n ↔ types[n]? = some ty

namespace TypeTable

def empty : TypeTable := ⟨[], [], fun _ _ => by simp⟩

def size (t : TypeTable) : Nat := t.types.length

def get? (t : TypeTable) (handle : Nat) : Option ScalarType := t.types[handle]?

theorem lookup_cons {numbers : List (ScalarType × Nat)} {ty ty' : ScalarType} {number n : Nat}
    (hnew : numbers.lookup ty = none) : ((ty, number) :: numbers).lookup ty' = some n ↔
      numbers.lookup ty' = some n ∨ n = number ∧ ty' = ty := by
  by_cases h : ty' = ty
  · simp [h, hnew, eq_comm]
  · have hne : (ty' == ty) = false := by simpa using h
    simp [List.lookup_cons, hne, h]

theorem getElem?_concat {types : List ScalarType} {ty ty' : ScalarType} {n : Nat} :
    (types ++ [ty])[n]? = some ty' ↔ types[n]? = some ty' ∨ n = types.length ∧ ty' = ty := by
  rcases Nat.lt_trichotomy n types.length with h | h | h
  · simp [List.getElem?_append_left h, Nat.ne_of_lt h]
  · simp [h, eq_comm]
  · have hlast : ¬ n - types.length < 1 := by omega
    simp [List.getElem?_append_right (Nat.le_of_lt h), List.getElem?_eq_none (Nat.le_of_lt h),
      Nat.ne_of_gt h, hlast]

/-- The table with one more type. -/
def add (t : TypeTable) (ty : ScalarType) (hnew : t.numbers.lookup ty = none) : TypeTable where
  types := t.types ++ [ty]
  numbers := (ty, t.size) :: t.numbers
  inverse ty' n := by rw [lookup_cons hnew, getElem?_concat, t.inverse, size]

/-- The number of a type, and the table that has it. -/
def intern (t : TypeTable) (ty : ScalarType) : Nat × TypeTable :=
  match h : t.numbers.lookup ty with
  | some handle => (handle, t)
  | none => (t.size, t.add ty h)

/-- Asks for a type by class and width. -/
def request (t : TypeTable) (cls : TypeClass) (width : Nat) :
    Except TypeError (Nat × TypeTable) :=
  match ScalarType.ofWidth? cls width with
  | some ty => .ok (t.intern ty)
  | none => .error (.invalidWidth cls width)

end TypeTable

/-- The ways to ask for a type: by class and width, by width for some classes, and by name. -/
inductive TypeRequest where
  | sized (cls : TypeClass) (width : Nat)
  | signed (width : Nat)
  | unsigned (width : Nat)
  | pointer (width : Nat)
  | boolean | i64 | u64 | float16 | float32 | float64
deriving DecidableEq, Repr

/-- Asks for a type; types that have a name need no check. -/
def TypeTable.ask (t : TypeTable) : TypeRequest → Except TypeError (Nat × TypeTable)
  | .sized cls width => t.request cls width
  | .signed width => t.request .signedInteger width
  | .unsigned width => t.request .unsignedInteger width
  | .pointer width => t.request .pointer width
  | .boolean => .ok (t.intern .boolean)
  | .i64 => .ok (t.intern .i64)
  | .u64 => .ok (t.intern .u64)
  | .float16 => .ok (t.intern .float16)
  | .float32 => .ok (t.intern .float32)
  | .float64 => .ok (t.intern .float64)

end ScalarLang
