import SsaForm.Answer
import SsaForm.Method.Mutators

/-!
# SsaForm.Method.Mutation — mutators as data

A `Mutation` is a call of one mutator with its arguments, and `Mutation.perform` makes the call on a
method beside the supply of operand identities. Histories of a method are lists of mutations.

The type of calls is generic in how registers and operands are given, so that a call can be written
down before its operands exist and filled in later (`MutationOf.resolve`).
-/

namespace SsaForm

/-- A call of a mutator, with registers given as `ρ` and operands as `ω`. -/
inductive MutationOf (ρ ω : Type) where
  | newVar (reg version : Nat)
  | newNode (op : Opcode)
  | newPhi (reg : Nat)
  | bindPhi (phi : InsnId) (pred : BlockId)
  | bindPhiArg (phi : InsnId) (arg : ρ) (pred : BlockId)
  | removePhiArg (phi : InsnId) (arg : ρ)
  | removePhiArgAt (phi : InsnId) (index : Nat)
  | addArg (insn : InsnId) (arg : ω)
  | setArg (insn : InsnId) (index : Nat) (arg : ω)
  | removeArg (insn : InsnId) (arg : ω)
  | replaceArg (insn : InsnId) (old new : ω)
  | setResult (insn : InsnId) (result : ρ)
  | assignResult (insn : InsnId) (var : VarId)
  | attachVar (insn : InsnId) (index : Nat) (var : VarId)
  | unbindInsn (insn : InsnId)
  | removePhi (phi : InsnId)
  | removePhis (phis : List InsnId)
  | setChecks (checks : Checks)
deriving DecidableEq, Repr

/-- A call of a mutator with its registers and operands. -/
abbrev Mutation := MutationOf Register Operand

/-- Fills in the registers and operands of a call, first to last. -/
def MutationOf.resolve {ρ ω ρ' ω' : Type} {m : Type → Type} [Monad m] (register : ρ → m ρ')
    (operand : ω → m ω') : MutationOf ρ ω → m (MutationOf ρ' ω')
  | newVar reg version => return newVar reg version
  | newNode op => return newNode op
  | newPhi reg => return newPhi reg
  | bindPhi phi pred => return bindPhi phi pred
  | bindPhiArg phi arg pred => return bindPhiArg phi (← register arg) pred
  | removePhiArg phi arg => return removePhiArg phi (← register arg)
  | removePhiArgAt phi index => return removePhiArgAt phi index
  | addArg insn arg => return addArg insn (← operand arg)
  | setArg insn index arg => return setArg insn index (← operand arg)
  | removeArg insn arg => return removeArg insn (← operand arg)
  | replaceArg insn old new => return replaceArg insn (← operand old) (← operand new)
  | setResult insn result => return setResult insn (← register result)
  | assignResult insn var => return assignResult insn var
  | attachVar insn index var => return attachVar insn index var
  | unbindInsn insn => return unbindInsn insn
  | removePhi phi => return removePhi phi
  | removePhis phis => return removePhis phis
  | setChecks checks => return setChecks checks

namespace Mutation

open Edit

/-- Makes an argument for a live phi, without binding it. -/
def newPhiArg (phi : InsnId) (var : Option VarId) : Edit (Method × Supply) Register := do
  let _ ← ask (·.1.phi phi)
  let id ← draw
  ask (·.1.newPhiArg phi id var)

/-- Makes the call. A new phi draws the identity of its result; a bound phi draws that of the new
argument, whether or not the predecessor is still free. -/
def perform : Mutation → Edit (Method × Supply) Answer
  | .newVar reg version => .var <$> beside (Method.newVar reg version)
  | .newNode op => .insn <$> beside (Method.newNode op)
  | .newPhi reg => do
    let result ← draw
    .insn <$> beside (Method.newPhi reg result)
  | .bindPhi phi pred => do
    let _ ← ask (·.1.phi phi)
    let id ← draw
    (.operand ∘ .register) <$> beside (Method.bindPhi phi pred id)
  | .bindPhiArg phi arg pred => done (Method.bindPhiArg phi arg pred)
  | .removePhiArg phi arg => .flag <$> beside (Method.removePhiArg phi arg)
  | .removePhiArgAt phi index =>
    (.operand ∘ .register) <$> beside (Method.removePhiArgAt phi index)
  | .addArg insn arg => done (Method.addArg insn arg)
  | .setArg insn index arg => .operand <$> beside (Method.setArg insn index arg)
  | .removeArg insn arg => .flag <$> beside (Method.removeArg insn arg)
  | .replaceArg insn old new => .flag <$> beside (Method.replaceArg insn old new)
  | .setResult insn result => done (Method.setResult insn result)
  | .assignResult insn var => done (Method.assignResult insn var)
  | .attachVar insn index var => done (Method.attachVar insn index var)
  | .unbindInsn insn => done (Method.unbindInsn insn)
  | .removePhi phi => .phi <$> beside (Method.removePhi phi)
  | .removePhis phis => .count <$> beside (Method.removePhis phis)
  | .setChecks checks => done (Method.setChecks checks)
where
  /-- An edit without a value. -/
  done (act : Edit Method Unit) : Edit (Method × Supply) Answer := do
    beside act
    return .done

/-- The state after a history of calls, failed ones included. -/
def runAll (history : List Mutation) (s : Method × Supply) : Method × Supply :=
  history.foldl (fun s c => finalState (c.perform s)) s

end Mutation

end SsaForm
