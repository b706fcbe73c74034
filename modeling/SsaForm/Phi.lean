import SsaForm.Attachment
import SsaForm.Edit

/-!
# SsaForm.Phi — merges at joins

A phi merges one register where control flow joins. It binds one argument for each predecessor block;
an argument and its block form one `Binding`, so the two cannot come apart. Arguments enter and leave
through bindings only. While a phi reads a variable, the variable lists the phi as a consumer.

Binding changes all or nothing. Removing first takes the binding out; where its variable turns out to
be missing from the table, that much has already happened.
-/

namespace SsaForm

/-- The value that arrives from one predecessor. -/
structure Binding where
  arg : Register
  pred : BlockId
deriving DecidableEq, Repr

/-- The binding as listings show it. -/
def Binding.text (b : Binding) : String := s!"{b.arg} from {b.pred}"

/-- A merge of one register over the predecessors of a block. -/
structure Phi where
  id : InsnId
  result : Register
  bindings : List Binding := []
  attributes : Attributes := .phi
deriving DecidableEq, Repr

namespace Phi

/-- A phi without bindings. Its result is the instance `result`, whose type is not resolved. -/
def ofResult (id : InsnId) (reg : Nat) (result : OperandId) : Phi :=
  { id := id, result := { id := result, reg := reg, owner := some id } }

/-! ## Questions -/

/-- The arguments, in the order of binding. -/
def args (p : Phi) : List Register := p.bindings.map (·.arg)

/-- The predecessors, in the order of binding. -/
def preds (p : Phi) : List BlockId := p.bindings.map (·.pred)

/-- The variables that the phi reads, one for each argument that reads one. -/
def usedVars (p : Phi) : List VarId := p.args.filterMap (·.var)

/-- The position of an instance among the arguments. -/
def argIndex (p : Phi) (a : OperandId) : Option Nat :=
  p.bindings.findIdx? fun b => b.arg.id == a

/-- Is the instance among the arguments? -/
def holds (p : Phi) (a : OperandId) : Bool := (p.argIndex a).isSome

/-- Is the block bound? -/
def hasPredecessor (p : Phi) (pred : BlockId) : Bool :=
  p.bindings.any fun b => b.pred == pred

/-- The predecessor bound at a position. -/
def blockAt? (p : Phi) (index : Nat) : Option BlockId := p.bindings[index]?.map (·.pred)

/-- The predecessor to which an instance is bound. -/
def blockOf? (p : Phi) (a : OperandId) : Option BlockId := (p.argIndex a).bind p.blockAt?

/-- The argument at a position. -/
def argAt? (p : Phi) (index : Nat) : Option Register := p.bindings[index]?.map (·.arg)

/-- The argument that arrives from a block. -/
def argFor? (p : Phi) (pred : BlockId) : Option Register :=
  (p.bindings.find? fun b => b.pred == pred).map (·.arg)

/-- The phi as listings show it. -/
def text (p : Phi) : String :=
  let args := String.intercalate ", " (p.args.map toString)
  let preds := String.intercalate ", " (p.preds.map toString)
  s!"PHI: {p.result} = [{args}] binds: [{preds}]"

theorem holds_iff {p : Phi} {a : OperandId} : p.holds a = true ↔ ∃ r ∈ p.args, r.id = a := by
  simp only [holds, argIndex, args, List.findIdx?_isSome, List.any_eq_true, beq_iff_eq, List.mem_map]
  constructor
  · rintro ⟨b, hb, rfl⟩
    exact ⟨b.arg, ⟨b, hb, rfl⟩, rfl⟩
  · rintro ⟨r, ⟨b, hb, rfl⟩, rfl⟩
    exact ⟨b, hb, rfl⟩

theorem hasPredecessor_iff {p : Phi} {pred : BlockId} :
    p.hasPredecessor pred = true ↔ pred ∈ p.preds := by
  simp [hasPredecessor, preds]

/-! ## Binding -/

/-- A fresh argument for the phi: its register with the type of the result. -/
def freshArg (p : Phi) (id : OperandId) (var : Option VarId := none) : Register :=
  { id := id, reg := p.result.reg, type := p.result.type, var := var }

/-- Binds an argument at a position. Either the block or the instance may be bound already; the block
is looked at first. -/
def insertBinding (index : Nat) (arg : Register) (pred : BlockId) : Edit (Linked Phi) Unit := do
  let p := (← get).insn
  if p.hasPredecessor pred then throw (.duplicatePredecessor pred p.id)
  if p.holds arg.id then throw (.alreadyBound arg.id p.id)
  Linked.onVars (arg.attach p.id)
  Linked.record (·.addConsumerFor arg p.id)
  Linked.amend fun p =>
    { p with bindings := p.bindings.insertIdx index { arg := arg.ownedBy p.id, pred := pred } }

/-- Binds an argument after the others. -/
def bindArg (arg : Register) (pred : BlockId) : Edit (Linked Phi) Unit := do
  insertBinding (← get).insn.bindings.length arg pred

/-- Binds the fresh instance `id`, which reads no variable yet, and returns it. -/
def bind (id : OperandId) (pred : BlockId) : Edit (Linked Phi) Register := do
  let p := (← get).insn
  bindArg (p.freshArg id) pred
  return (p.freshArg id).ownedBy p.id

/-! ## Removing and replacing -/

/-- The table without the record that the phi reads the register's variable through it. -/
def release (arg : Register) (t : VarTable) : Except Fault VarTable := do
  let t ← t.removeReader arg
  t.refreshConsumersFor arg

/-- Removes the binding at `index` and returns its argument, detached. -/
def removeArgAt (index : Nat) : Edit (Linked Phi) Register := fun s =>
  match s.insn.bindings[index]? with
  | some old =>
    let insn := { s.insn with bindings := s.insn.bindings.eraseIdx index }
    match release old.arg s.vars with
    | .ok vars => .ok old.arg.detached { insn := insn, vars := vars }
    | .error e => .error e { insn := insn, vars := s.vars }
  | none => .error (.indexOutOfRange index) s

/-- Removes an instance with its predecessor, and tells whether it was bound. -/
def removeArg (a : OperandId) : Edit (Linked Phi) Bool := do
  match (← get).insn.argIndex a with
  | some index =>
    let _ ← removeArgAt index
    return true
  | none => return false

/-- The register in the form in which it may take the place of the bound instance `old`. That instance
itself may be put back; any other has to be detached. -/
def replacement (old : OperandId) (new : Register) (s : Linked Phi) : Except Fault Register := do
  s.vars.ensureKnown new.var
  if new.id = old then
    return new.detached
  if s.insn.holds new.id then .error (.alreadyBound new.id s.insn.id)
  new.ensureDetached s.vars
  return new

/-- Puts `new` in the place of the instance `old`, with its predecessor, and tells whether that was
bound. -/
def replaceArg (old : OperandId) (new : Register) : Edit (Linked Phi) Bool := do
  let phi := (← get).insn
  match phi.argIndex old with
  | some index =>
    match phi.blockAt? index with
    | some pred =>
      let new ← Edit.ask (replacement old new)
      let _ ← removeArgAt index
      insertBinding index new pred
      return true
    | none => throw (.unknownPredecessor old phi.id)
  | none => return false

/-- Removes every binding, first to last, and returns the arguments. -/
def unbindAll : Edit (Linked Phi) (List Register) := do
  (← get).insn.bindings.mapM fun _ => removeArgAt 0

end Phi

end SsaForm
