import SsaForm.Node
import SsaForm.Phi

/-!
# SsaForm.Insn — instructions of either kind

An instruction is a generic node or a phi. The operations here work on both kinds where that makes
sense; those that would set a phi's arguments past its bindings are refused with `forbiddenMutation`.
-/

namespace SsaForm

/-- A generic instruction or a phi. -/
inductive Insn where
  | node (n : Node)
  | phi (p : Phi)
deriving DecidableEq, Repr

namespace Insn

/-! ## Questions -/

/-- The identity that the instruction says it has. -/
def id : Insn → InsnId
  | node n => n.id
  | phi p => p.id

/-- The opcode; that of a phi is always `phi`. -/
def opcode : Insn → Opcode
  | node n => n.opcode
  | phi _ => .phi

/-- The markers. -/
def attributes : Insn → Attributes
  | node n => n.attributes
  | phi p => p.attributes

/-- The result. A phi always has one. -/
def result? : Insn → Option Register
  | node n => n.result
  | phi p => some p.result

/-- The node, unless the instruction is a phi. -/
def node? : Insn → Option Node
  | node n => some n
  | phi _ => none

/-- The phi, unless the instruction is a node. -/
def phi? : Insn → Option Phi
  | node _ => none
  | phi p => some p

/-- Is the instruction a phi? -/
def isPhi (i : Insn) : Bool := i.phi?.isSome

/-- Is the instruction generic? -/
def isNode (i : Insn) : Bool := i.node?.isSome

/-- The arguments, in order. -/
def args : Insn → List Operand
  | node n => n.args
  | phi p => p.args.map Operand.register

/-- The registers among the arguments, in order. -/
def registers : Insn → List Register
  | node n => n.registers
  | phi p => p.args

/-- The variables that the instruction reads, one for each argument that reads one. -/
def usedVars (i : Insn) : List VarId := i.registers.filterMap (·.var)

/-- The position of an instance among the arguments; a literal has none in a phi. -/
def argIndex : Insn → Operand → Option Nat
  | node n, a => n.argIndex a.id
  | phi p, a => a.register?.bind fun r => p.argIndex r.id

/-- The instruction as listings show it. -/
def text : Insn → String
  | node n => n.text
  | phi p => p.text

instance : ToString Insn := ⟨text⟩

/-! ## Markers -/

/-- Adds markers. There is no taking them from a phi. -/
def addAttributes (a : Attributes) : Insn → Insn
  | node n => node { n with attributes := n.attributes.union a }
  | phi p => phi { p with attributes := p.attributes.union a }

/-! ## Changing the arguments -/

/-- Edits the instruction as the kind that it is. -/
def edit {α : Type} (onNode : Edit (Linked Node) α) (onPhi : Edit (Linked Phi) α) :
    Edit (Linked Insn) α := fun s =>
  match s.insn with
  | node n =>
    Edit.zoom (fun s => { insn := n, vars := s.vars })
      (fun _ t => { insn := node t.insn, vars := t.vars }) onNode s
  | phi p =>
    Edit.zoom (fun s => { insn := p, vars := s.vars })
      (fun _ t => { insn := phi t.insn, vars := t.vars }) onPhi s

/-- Edits a phi; fails with `notPhi id` on a node. -/
def onPhi {α : Type} (id : InsnId) (act : Edit (Linked Phi) α) : Edit (Linked Insn) α :=
  edit (Edit.ask fun _ => .error (.notPhi id)) act

/-- The refusal of an operation on a phi. -/
def refuse {α : Type} (operation : String) : Edit (Linked Phi) α :=
  Edit.ask fun s => .error (.forbiddenMutation s.insn.id operation)

/-- Appends an operand to a node. -/
def addArg (a : Operand) : Edit (Linked Insn) Unit :=
  edit (Node.addArg a) (refuse "add_arg")

/-- Replaces the argument of a node at `index` and returns the old one. -/
def setArg (index : Nat) (a : Operand) : Edit (Linked Insn) Operand :=
  edit (Node.setArg index a) (refuse "set_arg")

/-- Sets the result of a node. -/
def setResult (r : Register) : Edit (Linked Insn) Unit :=
  edit (Node.setResult r) (refuse "set_result")

/-- Removes an instance, on a phi with its predecessor, and tells whether it was there. -/
def removeArg (a : Operand) : Edit (Linked Insn) Bool :=
  edit (Node.removeArg a.id) <|
    match a with
    | .register r => Phi.removeArg r.id
    | .literal _ => pure false

/-- Removes the argument at `index` and returns it, detached. -/
def removeArgAt (index : Nat) : Edit (Linked Insn) Operand :=
  edit (Node.removeArgAt index) (Operand.register <$> Phi.removeArgAt index)

/-- Puts `new` in the place of `old`, on a phi with its predecessor, and tells whether `old` was there.
A phi knows no literals. -/
def replaceArg (old new : Operand) : Edit (Linked Insn) Bool :=
  edit (Node.replaceArg old.id new) <|
    match old, new with
    | .register r, .register s => Phi.replaceArg r.id s
    | _, _ => pure false

/-- Removes every argument, first to last. -/
def unbindAll : Edit (Linked Insn) (List Operand) :=
  edit Node.unbindAll ((·.map Operand.register) <$> Phi.unbindAll)

/-! ## Renaming -/

/-- The instruction with another result. -/
def withResult (r : Register) : Insn → Insn
  | node n => node { n with result := some r }
  | phi p => phi { p with result := r }

/-- The variable that the result defines from now on. A result keeps the variable that it has. -/
def assignResult (v : VarId) : Edit (Linked Insn) Unit := do
  let i := (← get).insn
  Edit.ask (·.vars.ensureKnown v)
  match i.result? with
  | none => throw (.inconsistent (.noResult i.id))
  | some r =>
    if r.var.isSome then throw (.forbiddenMutation i.id "assign_result")
    Linked.amend (withResult (r.naming v))
    Linked.record (·.define v r.site)

/-- Moves the use by a held register over to `v`; `rename` makes the instruction hold it as a use of
`v`. A copy of the instance that reads `v` elsewhere already is in the way. -/
def moveReader {ι : Type} (r : Register) (v : VarId) (rename : ι → ι) : Edit (Linked ι) Unit := do
  let x ← Edit.ask (·.vars.find v)
  match x.useSite r.id with
  | some insn => if r.owner ≠ some insn then throw (.alreadyBound r.id insn)
  | none => pure ()
  Linked.record (·.removeReader r)
  Linked.amend rename
  Linked.record (·.addReader (r.naming v))

/-- Makes the argument of a node at `index` read `v`. -/
def attachVarNode (index : Nat) (v : VarId) : Edit (Linked Node) Unit := do
  let n := (← get).insn
  match n.args[index]? with
  | none => throw (.inconsistent (.noArgument n.id index))
  | some (.literal l) => throw (.notRegister l.id)
  | some (.register r) =>
    moveReader r v fun n => { n with args := n.args.set index (.register (r.naming v)) }

/-- Makes the argument of a phi at `index` read `v`, which lists the phi as a consumer. The consumers
of the former variable are looked at anew. -/
def attachVarPhi (index : Nat) (v : VarId) : Edit (Linked Phi) Unit := do
  let p := (← get).insn
  match p.bindings[index]? with
  | none => throw (.inconsistent (.noArgument p.id index))
  | some b =>
    moveReader b.arg v fun p =>
      { p with bindings := p.bindings.set index { b with arg := b.arg.naming v } }
    Linked.record (·.refreshConsumersFor b.arg)
    Linked.record (·.addConsumer v p.id)

/-- Makes the argument at `index` read `v`. -/
def attachVar (index : Nat) (v : VarId) : Edit (Linked Insn) Unit := do
  Edit.ask (·.vars.ensureKnown v)
  edit (attachVarNode index v) (attachVarPhi index v)

end Insn

end SsaForm
