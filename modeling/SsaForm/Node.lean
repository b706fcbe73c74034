import SsaForm.Attachment
import SsaForm.Edit
import SsaForm.Opcode

/-!
# SsaForm.Node — generic instructions

A node has an opcode, perhaps a result, and a list of operands. Every operand enters and leaves
through the functions here, which keep the records of the variable it reads in step.

Adding an argument and setting the result change all or nothing. Setting and removing an argument
first take the old one out; where its variable turns out to be missing from the table, that much has
already happened.
-/

namespace SsaForm

/-- A generic instruction. -/
structure Node where
  id : InsnId
  opcode : Opcode
  result : Option Register := none
  args : List Operand := []
  attributes : Attributes := .empty
deriving DecidableEq, Repr

namespace Node

/-! ## Questions -/

/-- The position of an instance among the arguments. -/
def argIndex (n : Node) (a : OperandId) : Option Nat :=
  n.args.findIdx? fun b => b.id == a

/-- Is the instance among the arguments? -/
def holds (n : Node) (a : OperandId) : Bool := (n.argIndex a).isSome

/-- The registers among the arguments, in order. -/
def registers (n : Node) : List Register := n.args.filterMap Operand.register?

/-- The variables that the node reads, one for each argument that reads one. -/
def usedVars (n : Node) : List VarId := n.args.filterMap Operand.var?

/-- The node as listings show it. -/
def text (n : Node) : String :=
  let result := match n.result with
    | some r => s!"{r} = "
    | none => ""
  let args := String.intercalate ", " (n.args.map Operand.text)
  if n.args.isEmpty then s!"{result}{n.opcode}" else s!"{result}{n.opcode} {args}"

theorem holds_iff {n : Node} {a : OperandId} : n.holds a = true ↔ ∃ b ∈ n.args, b.id = a := by
  simp [holds, argIndex, List.findIdx?_isSome]

/-! ## The result -/

/-- Sets the result. Its variable is defined by it from now on, and the variable of the former result
loses that definition. -/
def setResult (r : Register) : Edit (Linked Node) Unit := do
  let n := (← get).insn
  Edit.ask (·.vars.ensureKnown r.var)
  match n.result with
  | some old => Linked.record (·.removeDefiner old)
  | none => pure ()
  Linked.record (·.addDefiner (r.ownedBy n.id))
  Linked.amend fun n => { n with result := some (r.ownedBy n.id) }

/-! ## The arguments -/

/-- Appends an operand. -/
def addArg (a : Operand) : Edit (Linked Node) Unit := do
  let n := (← get).insn
  if n.holds a.id then throw (.alreadyBound a.id n.id)
  Linked.onVars (a.attach n.id)
  Linked.amend fun n => { n with args := n.args ++ [a.ownedBy n.id] }

/-- The operand in the form in which it may be put at `index`. The instance that stands there already
may be put back; any other has to be detached. -/
def replacement (index : Nat) (a : Operand) (s : Linked Node) : Except Fault Operand :=
  match s.insn.argIndex a.id with
  | some i => if i = index then .ok a.detached else .error (.alreadyBound a.id s.insn.id)
  | none => (a.ensureDetached s.vars).map fun _ => a

/-- Detaches the argument at `index` and leaves it where it is. -/
def vacate (index : Nat) : Edit (Linked Node) Operand := fun s =>
  match s.insn.args[index]? with
  | some old =>
    let insn := { s.insn with args := s.insn.args.set index old.detached }
    match old.release s.vars with
    | .ok vars => .ok old.detached { insn := insn, vars := vars }
    | .error e => .error e { insn := insn, vars := s.vars }
  | none => .error (.indexOutOfRange index) s

/-- Puts a detached operand over the one at `index`. -/
def occupy (index : Nat) (a : Operand) : Edit (Linked Node) Unit := do
  Linked.onVars (a.attach (← get).insn.id)
  Linked.amend fun n => { n with args := n.args.set index (a.ownedBy n.id) }

/-- Replaces the argument at `index` and returns the old one. -/
def setArg (index : Nat) (a : Operand) : Edit (Linked Node) Operand := do
  let a ← Edit.ask (replacement index a)
  let old ← vacate index
  occupy index a
  return old

/-- Removes the argument at `index` and returns it, detached. -/
def removeArgAt (index : Nat) : Edit (Linked Node) Operand := fun s =>
  match s.insn.args[index]? with
  | some old =>
    let insn := { s.insn with args := s.insn.args.eraseIdx index }
    match old.release s.vars with
    | .ok vars => .ok old.detached { insn := insn, vars := vars }
    | .error e => .error e { insn := insn, vars := s.vars }
  | none => .error (.indexOutOfRange index) s

/-- Removes an instance, and tells whether it was there. -/
def removeArg (a : OperandId) : Edit (Linked Node) Bool := do
  match (← get).insn.argIndex a with
  | some index =>
    let _ ← removeArgAt index
    return true
  | none => return false

/-- Puts `new` in the place of the instance `old`, and tells whether that was there. -/
def replaceArg (old : OperandId) (new : Operand) : Edit (Linked Node) Bool := do
  match (← get).insn.argIndex old with
  | some index =>
    let _ ← setArg index new
    return true
  | none => return false

/-- Removes every argument, first to last. -/
def unbindAll : Edit (Linked Node) (List Operand) := do
  (← get).insn.args.mapM fun _ => removeArgAt 0

end Node

end SsaForm
