import ScalarLang.Lower.Expression

/-
  Lowering functions. The type of a function's result is that of its last statement and known
  only at the end, so the slot of the result and the blocks around the body are filled last.
-/

namespace ScalarLang

namespace Emit

open Lower (build numberOf typeAt)

/-- Builds a routine around a body: an entry block that leads to the body, and an exit block that
    returns what the body left in a slot. The body is given the number of the type that a result
    has if there is nothing else. -/
def draft (name : String) (anonymous : Bool) (body : Nat → Lower NumberedValue) :
    Lower Routine := do
  let entry ← build .createBlock
  let start ← build .createBlock
  let exit ← build .createBlock
  build (.switchTo start)
  let provisional ← numberOf .i64
  let result ← body provisional
  let ty ← typeAt result.number
  let bodyEnd ← build .cursor
  build (.switchTo entry)
  let slot ← build (.createSlot ty.byteSize)
  let _ ← build (.jump start)
  build (.setCursor bodyEnd)
  let _ ← build (.store result.value slot)
  let _ ← build (.jump exit)
  build (.switchTo exit)
  let value ← build (.load ty.machineType slot)
  let _ ← build (.ret [value])
  build (.setReturnType ty.machineType)
  return ⟨name, ty, anonymous, (← get).builder.function⟩

/-- Lowers statements from left to right; the value is that of the last one, or zero. -/
def statements (p : Program) (provisional : Nat) : List Node → Lower NumberedValue
  | [] => do return ⟨← build (.iconst .i64 0), provisional⟩
  | [node] => expression p node
  | node :: rest => do
    let _ ← expression p node
    statements p provisional rest

end Emit

namespace Routine

/-- Builds a routine from a body over a type table, which keeps the types of a failed attempt. -/
def build (types : TypeTable) (name : String) (anonymous : Bool)
    (body : Nat → Lower NumberedValue) : Except LowerError Routine × TypeTable :=
  let (result, state) := Emit.draft name anonymous body ⟨types, .start name⟩
  (result, state.types)

/-- Lowers a list of statements to a routine without parameters. -/
def lower (p : Program) (types : TypeTable) (name : String) (anonymous : Bool)
    (nodes : List Node) : Except LowerError Routine × TypeTable :=
  build types name anonymous (Emit.statements p · nodes)

/-- Lowers a definition, whose name must be new. -/
def ofDefinition (p : Program) (types : TypeTable) (d : Definition) :
    Except LowerError Routine × TypeTable :=
  if p.contains d.name.text then
    (.error { kind := .duplicateFunction d.name.text, span := d.name.span,
              hint := some "reset the session with '.' to redefine it" }, types)
  else match d.params with
    | param :: _ => (.error { kind := .parametersUnsupported, span := param.span }, types)
    | [] => lower p types d.name.text false d.body

end Routine

end ScalarLang
