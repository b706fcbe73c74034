import SsaForm.Insn.InsnEdit
import SsaForm.Method.Mutation
import SsaForm.VarTable.TableEdit
import SsaForm.Workbench

/-!
# SsaForm.Workbench.Tools — changing what is on a workbench

A tool that changes something fills operands into the change, looks up what is to be changed, makes
the change and puts the result back, also when the change fails halfway.

The operands come first: they are evaluated in the order in which they are written, before anything
else is looked up.
-/

namespace SsaForm

namespace Workbench

variable {α : Type}

/-! ## Putting things on the workbench -/

/-- Adds a method and returns its position. -/
def addMethod (m : Method) : Work Nat :=
  modifyGet fun w => (w.methods.length, { w with methods := w.methods ++ [m] })

/-- Adds a loose table and returns its position. -/
def addTable (t : VarTable) : Work Nat :=
  modifyGet fun w => (w.tables.length, { w with tables := w.tables ++ [t] })

/-- Adds a loose instruction and returns its position. -/
def addInsn (i : Insn) : Work Nat :=
  modifyGet fun w => (w.loose.length, { w with loose := w.loose ++ [i] })

/-- Adds a loose phi without bindings, whose result is a new instance. -/
def addPhi (id : InsnId) (reg : Nat) : Work Nat := do
  addInsn (.phi (Phi.ofResult id reg (← draw)))

/-- Puts a method into a position that has one. -/
def putMethod (k : Nat) (m : Method) : Work Unit :=
  modify fun w => { w with methods := w.methods.set k m }

/-- Puts a loose instruction into a position that has one. -/
def putInsn (k : Nat) (i : Insn) : Work Unit :=
  modify fun w => { w with loose := w.loose.set k i }

/-- Puts a table where there is one. -/
def putTable (ref : TableRef) (t : VarTable) : Work Unit :=
  modify fun w => match ref with
    | .loose k => { w with tables := w.tables.set k t }
    | .ofMethod k => { w with methods := w.methods.modify k fun m => { m with vars := t } }

/-! ## Changing what is there -/

/-- Runs an edit on a part that was looked up, beside the supply, and puts back what it leaves. -/
def run {σ : Type} (part : σ) (put : σ → Work Unit) (act : Edit (σ × Supply) α) : Work α := do
  match act (part, (← get).supply) with
  | .ok a s => leave s; return a
  | .error f s => leave s; throw (.fault f)
where
  /-- Puts back a part and the supply. -/
  leave (s : σ × Supply) : Work Unit := do
    put s.1
    modify fun w => { w with supply := s.2 }

/-- Calls a mutator of a method. A phi that it removes becomes a loose instruction. -/
def mutate (k : Nat) (call : MutationOf OperandExpr OperandExpr) : Work Answer := do
  let call : Mutation ← call.resolve register operand
  let answer ← run (← method k) (putMethod k) call.perform
  if let .phi p := answer then
    let _ ← addInsn (.phi p)
  return answer

/-- Makes an argument for a phi of a method, without binding it. -/
def newPhiArg (k : Nat) (id : InsnId) (var : Option VarId) : Work Register := do
  run (← method k) (putMethod k) (Mutation.newPhiArg id var)

/-- Changes a table. -/
def editTable (ref : TableRef) (change : TableEditOf OperandExpr OperandExpr) : Work Answer := do
  let change : TableEdit ←
    change.resolve (fun e => return (← register e).site) (fun e => return (← operand e).id)
  let (answer, t) ← orFault (change.perform (← table ref))
  putTable ref t
  return answer

/-- Exchanges the table of a method and a loose table. -/
def swapTables (k l : Nat) : Work Unit := do
  let m ← method k
  let t ← looseTable l
  putTable (.ofMethod k) t
  putTable (.loose l) m.vars

/-- Changes a loose instruction against a table. The kind of the instruction is looked at last. -/
def editInsn (k : Nat) (ref : TableRef) (change : InsnEditOf OperandExpr OperandExpr) :
    Work Answer := do
  let change : InsnEdit ← change.resolve register operand
  let i ← looseInsn k
  let t ← table ref
  match change.needs with
  | .node => if i.isPhi then refuse .notANode
  | .phi => if i.isNode then refuse .notAPhi
  | .any => pure ()
  run { insn := i, vars := t } (fun s => do putInsn k s.insn; putTable ref s.vars) change.perform

/-- Adds markers to a loose instruction. One that is missing is refused as no node, as it is for
`unmark`. -/
def mark (k : Nat) (a : Attributes) : Work Unit := do
  putInsn k ((← orRefuse .notANode (← get).loose[k]?).addAttributes a)

/-- Takes markers from a loose node. A phi keeps its markers. -/
def unmark (k : Nat) (a : Attributes) : Work Unit := do
  let n ← orRefuse .notANode ((← get).loose[k]?.bind Insn.node?)
  putInsn k (.node { n with attributes := n.attributes.without a })

/-! ## Checking -/

/-- Checks a method, with its own choice of checks unless another is given. -/
def verify (k : Nat) (c : Option Checks) : Work Unit := do
  let m ← method k
  orFault (m.verify (c.getD m.checks))

end Workbench

end SsaForm
