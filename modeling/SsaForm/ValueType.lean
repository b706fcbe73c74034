/-!
# SsaForm.ValueType — types of register values

What is known about the value in a register. A value is `unknown` until type inference resolves it;
the SSA core computes no types, it only copies them.
-/

namespace SsaForm

/-- Type of a value held in a register. -/
inductive ValueType where
  | unknown
  | boolean
  | byte
  | short
  | char
  | int
  | long
  | float
  | double
  /-- An object reference, named by its class with `/` between the parts. -/
  | object (name : String)
  | array (elem : ValueType)
deriving DecidableEq, Repr

namespace ValueType

instance : Inhabited ValueType := ⟨unknown⟩

/-- Has the type been resolved? -/
def isKnown : ValueType → Bool
  | unknown => false
  | _ => true

/-- Objects and arrays are references. -/
def isReference : ValueType → Bool
  | object _ | array _ => true
  | _ => false

/-- A type that is resolved and no reference is primitive. -/
def isPrimitive (t : ValueType) : Bool :=
  t.isKnown && !t.isReference

/-- Values of a wide type take two registers. -/
def isWide : ValueType → Bool
  | long | double => true
  | _ => false

/-- The type as it is written in listings: a class name is dotted and an array shows `[]` after its
element. -/
def text : ValueType → String
  | unknown => "?"
  | boolean => "boolean"
  | byte => "byte"
  | short => "short"
  | char => "char"
  | int => "int"
  | long => "long"
  | float => "float"
  | double => "double"
  | object name => name.map fun c => if c = '/' then '.' else c
  | array elem => elem.text ++ "[]"

instance : ToString ValueType := ⟨text⟩

/-! ## Array levels -/

/-- The type wrapped in `dims` array levels. -/
def nest : Nat → ValueType → ValueType
  | 0, t => t
  | dims + 1, t => array (nest dims t)

/-- The number of array levels around the innermost element, and that element. -/
def peel : ValueType → Nat × ValueType
  | array elem => (elem.peel.1 + 1, elem.peel.2)
  | t => (0, t)

/-- Peeling off the array levels loses nothing. -/
theorem nest_peel (t : ValueType) : nest t.peel.1 t.peel.2 = t := by
  induction t with
  | array elem ih => simp [peel, nest, ih]
  | _ => rfl

end ValueType

end SsaForm
