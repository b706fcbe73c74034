import SsaForm.Edit
import SsaForm.VarTable

/-!
# SsaForm.Attachment — putting operands into instructions

An operand stands in an instruction when the instruction holds it, and then three records agree: the
handle names the instruction as its owner, the variable that it reads records the use and, if the
instruction is a phi, lists it as a consumer. An instance may stand in one place only.

`Register.holder` finds the place from both ends. A handle taken after attaching carries its owner;
one taken before carries none, but the variable's record betrays it. An instance without a variable
has no record, so an old handle on it passes for detached.
-/

namespace SsaForm

/-- An instruction beside the table of the variables that it names. -/
structure Linked (ι : Type) where
  insn : ι
  vars : VarTable

namespace Linked

variable {ι α : Type}

/-- Edits the table. -/
def onVars (act : Edit VarTable α) : Edit (Linked ι) α :=
  Edit.zoom (·.vars) (fun s t => { s with vars := t }) act

/-- Changes one record of the table, which may fail. -/
def record (f : VarTable → Except Fault VarTable) : Edit (Linked ι) Unit :=
  onVars (Edit.atomically f)

/-- Changes the instruction. -/
def amend (f : ι → ι) : Edit (Linked ι) Unit := modify fun s => { s with insn := f s.insn }

end Linked

/-! ## Records on behalf of a register -/

namespace VarTable

/-- Fails if a variable is named that the table does not have. -/
def ensureKnown (t : VarTable) : Option VarId → Except Fault Unit
  | some v => if v ∈ t then .ok () else .error (.unknownVariable v)
  | none => .ok ()

/-- Records the register as a use of the variable that it reads. -/
def addReader (t : VarTable) (r : Register) : Except Fault VarTable :=
  match r.var with
  | some v => t.recordUse v r.site
  | none => .ok t

/-- Forgets the register as a use of the variable that it reads. -/
def removeReader (t : VarTable) (r : Register) : Except Fault VarTable :=
  match r.var with
  | some v => (t.dropUse v r.id).map (·.2)
  | none => .ok t

/-- Lists the phi `p` as a consumer of the variable that the register reads. -/
def addConsumerFor (t : VarTable) (r : Register) (p : InsnId) : Except Fault VarTable :=
  match r.var with
  | some v => t.addConsumer v p
  | none => .ok t

/-- Drops the lapsed consumers of the variable that the register reads. -/
def refreshConsumersFor (t : VarTable) (r : Register) : Except Fault VarTable :=
  match r.var with
  | some v => t.refreshConsumers v
  | none => .ok t

/-- Records the register as the definition of its variable. -/
def addDefiner (t : VarTable) (r : Register) : Except Fault VarTable :=
  match r.var with
  | some v => t.define v r.site
  | none => .ok t

/-- Forgets the register as the definition of its variable. -/
def removeDefiner (t : VarTable) (r : Register) : Except Fault VarTable :=
  match r.var with
  | some v => (t.undefine v r.id).map (·.2)
  | none => .ok t

end VarTable

/-! ## Registers -/

namespace Register

/-- The instruction in which the instance stands, as far as the handle and the records of its variable
can tell. A variable that the table does not have is a fault, whatever the handle says. -/
def holder (r : Register) (t : VarTable) : Except Fault (Option InsnId) :=
  match r.var with
  | some v => (t.find v).map fun x => r.owner.or (x.useSite r.id)
  | none => .ok r.owner

/-- Fails if the instance stands in an instruction. -/
def ensureDetached (r : Register) (t : VarTable) : Except Fault Unit := do
  match ← r.holder t with
  | some insn => .error (.alreadyBound r.id insn)
  | none => .ok ()

/-- Records a detached register as a use by the instruction that is to own it. -/
def attach (r : Register) (insn : InsnId) : Edit VarTable Unit := do
  Edit.ask r.ensureDetached
  Edit.atomically (·.addReader (r.ownedBy insn))

end Register

/-! ## Operands -/

namespace Operand

/-- Fails if the operand is a register that stands in an instruction. -/
def ensureDetached (a : Operand) (t : VarTable) : Except Fault Unit :=
  match a with
  | register r => r.ensureDetached t
  | literal _ => .ok ()

/-- Records a detached operand as a use by the instruction that is to own it. Nothing is recorded
about a literal. -/
def attach (a : Operand) (insn : InsnId) : Edit VarTable Unit :=
  match a with
  | register r => r.attach insn
  | literal _ => pure ()

/-- The table without the record that the operand reads its variable. -/
def release (a : Operand) (t : VarTable) : Except Fault VarTable :=
  match a with
  | register r => t.removeReader r
  | literal _ => .ok t

end Operand

end SsaForm
