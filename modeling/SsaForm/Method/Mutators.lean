import SsaForm.Consistency.Verify

/-!
# SsaForm.Method.Mutators — changing a method

The mutators change instructions and variables together, so that the two keep agreeing. Each of them
names the instruction to change and hands its edit to `editInsn` or `editPhi`.

If the method asks for it, a mutator checks the whole method when it is done (`verified`). A change
that fails the check is reported and stays.
-/

namespace SsaForm

namespace Method

/-! ## Checking after a change -/

/-- Checks the method if it asks to be checked after every mutation. -/
def recheck (m : Method) : Except Fault Unit :=
  if m.checks.afterMutation then m.verify m.checks else .ok ()

/-- An edit followed by the check. -/
def verified {α : Type} (act : Edit Method α) : Edit Method α := do
  let a ← act
  Edit.ask recheck
  return a

/-- The check changes nothing, it can only turn a success into a fault. -/
theorem verified_apply {α : Type} (act : Edit Method α) (m : Method) :
    verified act m = match act m with
      | .ok a s =>
        match s.recheck with
        | .ok _ => .ok a s
        | .error e => .error e s
      | .error e s => .error e s := by
  simp only [verified, bind, EStateM.bind]
  cases act m with
  | error => rfl
  | ok a s =>
    simp only [Edit.ask]
    cases s.recheck <;> rfl

theorem finalState_verified {α : Type} (act : Edit Method α) (m : Method) :
    Edit.finalState (verified act m) = Edit.finalState (act m) := by
  rw [verified_apply]
  cases act m with
  | error => rfl
  | ok a s =>
    cases h : s.recheck <;> simp [h, Edit.finalState]

/-! ## Growing -/

/-- Adds a variable and returns its identity. -/
def newVar (reg version : Nat) : Edit Method VarId :=
  modifyGet fun m =>
    let (v, vars) := m.vars.alloc reg version
    (v, { m with vars := vars })

/-- Appends the instruction that `build` makes of the next identity, and returns that identity. -/
def newInsn (build : InsnId → Insn) : Edit Method InsnId :=
  modifyGet fun m => (⟨m.slots.length⟩, { m with slots := m.slots ++ [some (build ⟨m.slots.length⟩)] })

/-- Appends a node without result and arguments. -/
def newNode (op : Opcode) : Edit Method InsnId :=
  newInsn fun id => .node { id := id, opcode := op }

/-- Appends a phi without bindings, whose result is the instance `result`. How many predecessors the
join has is not asked for: it would only reserve room for the bindings, and any number may follow. -/
def newPhi (reg : Nat) (result : OperandId) : Edit Method InsnId :=
  newInsn fun id => .phi (Phi.ofResult id reg result)

/-- Replaces what the consistency check looks at. -/
def setChecks (c : Checks) : Edit Method Unit :=
  modify fun m => { m with checks := c }

/-! ## Phi bindings -/

/-- Binds the fresh instance `id` for a predecessor and returns it. -/
def bindPhi (phi : InsnId) (pred : BlockId) (id : OperandId) : Edit Method Register :=
  verified (editPhi phi (Phi.bind id pred))

/-- Binds an argument for a predecessor. -/
def bindPhiArg (phi : InsnId) (arg : Register) (pred : BlockId) : Edit Method Unit :=
  verified (editPhi phi (Phi.bindArg arg pred))

/-- Removes an instance with its predecessor, and tells whether it was bound. -/
def removePhiArg (phi : InsnId) (arg : Register) : Edit Method Bool :=
  verified (editPhi phi (Phi.removeArg arg.id))

/-- Removes the binding at a position and returns its argument. -/
def removePhiArgAt (phi : InsnId) (index : Nat) : Edit Method Register :=
  verified (editPhi phi (Phi.removeArgAt index))

/-- The fresh instance `id` with the register and the type of the phi's result. It is not bound. -/
def newPhiArg (m : Method) (phi : InsnId) (id : OperandId) (var : Option VarId) :
    Except Fault Register :=
  (m.phi phi).map (·.freshArg id var)

/-! ## Arguments of any instruction -/

/-- Appends an operand to a node. -/
def addArg (insn : InsnId) (a : Operand) : Edit Method Unit :=
  verified (editInsn insn (Insn.addArg a))

/-- Replaces the argument of a node at a position and returns the old one. -/
def setArg (insn : InsnId) (index : Nat) (a : Operand) : Edit Method Operand :=
  verified (editInsn insn (Insn.setArg index a))

/-- Removes an instance, and tells whether it was there. -/
def removeArg (insn : InsnId) (a : Operand) : Edit Method Bool :=
  verified (editInsn insn (Insn.removeArg a))

/-- Puts `new` in the place of `old`, and tells whether that was there. -/
def replaceArg (insn : InsnId) (old new : Operand) : Edit Method Bool :=
  verified (editInsn insn (Insn.replaceArg old new))

/-- Removes every argument; the instruction stays. -/
def unbindInsn (insn : InsnId) : Edit Method Unit :=
  verified (editInsn insn (discard Insn.unbindAll))

/-! ## Results and renaming -/

/-- Sets the result of a node. -/
def setResult (insn : InsnId) (r : Register) : Edit Method Unit :=
  verified (editInsn insn (Insn.setResult r))

/-- Lets the result of an instruction define a variable. -/
def assignResult (insn : InsnId) (v : VarId) : Edit Method Unit :=
  verified (editInsn insn (Insn.assignResult v))

/-- Lets the argument at a position read a variable. -/
def attachVar (insn : InsnId) (index : Nat) (v : VarId) : Edit Method Unit :=
  verified (editInsn insn (Insn.attachVar index v))

/-! ## Removing phis -/

/-- Takes a phi out of the method. Its variable is left without a definition. -/
def takePhi (id : InsnId) : Edit Method Phi := fun m =>
  match m.phi id with
  | .ok p =>
    let m := { m with slots := m.slots.set id.index none }
    match m.vars.removeDefiner p.result with
    | .ok vars => .ok p { m with vars := vars }
    | .error e => .error e m
  | .error e => .error e m

/-- Removes the bindings of a phi, then the phi, and returns it. -/
def removePhi (id : InsnId) : Edit Method Phi := do
  let _ ← Edit.ask (·.phi id)
  unbindInsn id
  takePhi id

/-- Removes phis in the order in which they are first named, and returns their number. -/
def removePhis (ids : List InsnId) : Edit Method Nat := do
  let removed ← ids.eraseDups.mapM removePhi
  return removed.length

end Method

end SsaForm
