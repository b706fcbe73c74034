import SsaForm.Ident
import SsaForm.ValueType

/-!
# SsaForm.Operand — registers and literals

An instruction reads operands: registers, which name a register slot and, once renaming has run, an
SSA variable, and literals.

An operand is an *instance* with an identity. Copying it gives another handle on the same instance,
`duplicate` makes a new one. Two instances may name the same register and variable; that is what lets
a phi take one variable from two predecessors and later give up exactly one of them.
-/

namespace SsaForm

/-- Where an operand instance stands: in an instruction, or nowhere. -/
structure Site where
  operand : OperandId
  insn : Option InsnId
deriving DecidableEq, Repr

/-! ## Registers -/

/-- A register that is read or written. -/
structure Register where
  id : OperandId
  /-- The register slot. -/
  reg : Nat
  /-- The type known when the operand was made. -/
  type : ValueType := .unknown
  /-- The SSA variable, once renaming has chosen one. -/
  var : Option VarId := none
  /-- The instruction that this handle says it belongs to. -/
  owner : Option InsnId := none
deriving DecidableEq, Repr

namespace Register

/-- Where the handle says that its instance stands. -/
def site (r : Register) : Site := ⟨r.id, r.owner⟩

/-- The handle without an owner. -/
def detached (r : Register) : Register := { r with owner := none }

/-- The handle owned by `insn`. -/
def ownedBy (r : Register) (insn : InsnId) : Register := { r with owner := some insn }

/-- The handle reading (or defining) variable `v`. -/
def naming (r : Register) (v : VarId) : Register := { r with var := some v }

/-- A new instance with the same register, type and variable, which nothing owns. -/
def duplicate (r : Register) (id : OperandId) : Register := { r with id := id, owner := none }

/-- Are both handles on one instance? -/
def sameInstance (r s : Register) : Bool := r.id == s.id

/-- Do both name the same register and variable, whatever their instances? -/
def sameRegAndVar (r s : Register) : Bool := r.reg == s.reg && r.var == s.var

/-- The register as listings show it: `r3`, `r3(v1)`, `r3(v1):int`. -/
def text (r : Register) : String :=
  let var := match r.var with
    | some v => s!"({v})"
    | none => ""
  let type := if r.type.isKnown then s!":{r.type}" else ""
  s!"r{r.reg}{var}{type}"

instance : ToString Register := ⟨text⟩

end Register

/-! ## Literals -/

/-- A value written into the instruction; a floating-point one as its bit pattern. -/
structure Literal where
  id : OperandId
  value : Int
  type : ValueType := .unknown
deriving DecidableEq, Repr

/-! ## Operands -/

/-- Anything that an instruction reads. -/
inductive Operand where
  | register (r : Register)
  | literal (l : Literal)
deriving DecidableEq, Repr

namespace Operand

/-- The identity of the instance. -/
def id : Operand → OperandId
  | register r => r.id
  | literal l => l.id

/-- The register, unless the operand is a literal. -/
def register? : Operand → Option Register
  | register r => some r
  | literal _ => none

/-- Is the operand a register? -/
def isRegister (a : Operand) : Bool := a.register?.isSome

/-- The variable that the operand reads. -/
def var? (a : Operand) : Option VarId := a.register?.bind (·.var)

/-- Changes a register and leaves a literal alone. -/
def mapRegister (f : Register → Register) : Operand → Operand
  | register r => register (f r)
  | literal l => literal l

/-- The operand without an owner. -/
def detached : Operand → Operand := mapRegister Register.detached

/-- The operand owned by `insn`; a literal has no owner to record. -/
def ownedBy (a : Operand) (insn : InsnId) : Operand := a.mapRegister (·.ownedBy insn)

/-- Are both handles on one instance? A register is never the same as a literal. -/
def sameInstance : Operand → Operand → Bool
  | register r, register s => r.sameInstance s
  | literal l, literal k => l.id == k.id
  | _, _ => false

/-- The operand as listings show it. -/
def text : Operand → String
  | register r => r.text
  | literal l => toString l.value

instance : ToString Operand := ⟨text⟩

@[simp] theorem id_detached (a : Operand) : a.detached.id = a.id := by
  cases a <;> rfl

@[simp] theorem id_ownedBy (a : Operand) (insn : InsnId) : (a.ownedBy insn).id = a.id := by
  cases a <;> rfl

@[simp] theorem var?_ownedBy (a : Operand) (insn : InsnId) : (a.ownedBy insn).var? = a.var? := by
  cases a <;> rfl

end Operand

end SsaForm
