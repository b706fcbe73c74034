import SsaForm.Answer
import SsaForm.Insn

/-!
# SsaForm.Insn.InsnEdit — changes of one instruction as data

An instruction can also be changed outside a method, against any table of variables. An `InsnEdit` is
one such change; `InsnEdit.perform` makes it beside the supply of operand identities. Some changes are
for nodes only and some for phis only (`suits`).
-/

namespace SsaForm

/-- A change of an instruction, with registers given as `ρ` and operands as `ω`. -/
inductive InsnEditOf (ρ ω : Type) where
  | addArg (arg : ω)
  | setArg (index : Nat) (arg : ω)
  | removeArg (arg : ω)
  | removeArgAt (index : Nat)
  | replaceArg (old new : ω)
  | setResult (result : ρ)
  | bind (pred : BlockId)
  | bindArg (arg : ρ) (pred : BlockId)
  | replaceBound (old new : ρ)
  | unbindAll
deriving DecidableEq, Repr

/-- A change of an instruction with its registers and operands. -/
abbrev InsnEdit := InsnEditOf Register Operand

/-- Fills in the registers and operands of a change, first to last. -/
def InsnEditOf.resolve {ρ ω ρ' ω' : Type} {m : Type → Type} [Monad m] (register : ρ → m ρ')
    (operand : ω → m ω') : InsnEditOf ρ ω → m (InsnEditOf ρ' ω')
  | addArg arg => return addArg (← operand arg)
  | setArg index arg => return setArg index (← operand arg)
  | removeArg arg => return removeArg (← operand arg)
  | removeArgAt index => return removeArgAt index
  | replaceArg old new => return replaceArg (← operand old) (← operand new)
  | setResult result => return setResult (← register result)
  | bind pred => return bind pred
  | bindArg arg pred => return bindArg (← register arg) pred
  | replaceBound old new => return replaceBound (← register old) (← register new)
  | unbindAll => return unbindAll

/-- Whether a kind of instruction is needed for a change. -/
inductive KindNeeded where
  | any
  | node
  | phi
deriving DecidableEq, Repr

/-- The kind that a change needs. -/
def InsnEditOf.needs {ρ ω : Type} : InsnEditOf ρ ω → KindNeeded
  | setResult _ => .node
  | bind _ | bindArg _ _ | replaceBound _ _ | unbindAll => .phi
  | _ => .any

namespace InsnEdit

open Edit

/-- Makes the change. Binding a predecessor draws the identity of the new argument, whether or not
the predecessor is still free. -/
def perform : InsnEdit → Edit (Linked Insn × Supply) Answer
  | .addArg arg => done (Insn.addArg arg)
  | .setArg index arg => .operand <$> beside (Insn.setArg index arg)
  | .removeArg arg => .flag <$> beside (Insn.removeArg arg)
  | .removeArgAt index => .operand <$> beside (Insn.removeArgAt index)
  | .replaceArg old new => .flag <$> beside (Insn.replaceArg old new)
  | .setResult result => done (Insn.setResult result)
  | .bind pred => do
    let id ← draw
    (.operand ∘ .register) <$> onPhi (Phi.bind id pred)
  | .bindArg arg pred => do
    onPhi (Phi.bindArg arg pred)
    return .done
  | .replaceBound old new => .flag <$> onPhi (Phi.replaceArg old.id new)
  | .unbindAll => (.operands ∘ List.map .register) <$> onPhi Phi.unbindAll
where
  /-- An edit without a value. -/
  done (act : Edit (Linked Insn) Unit) : Edit (Linked Insn × Supply) Answer := do
    beside act
    return .done
  /-- An edit of a phi. -/
  onPhi {α : Type} (act : Edit (Linked Phi) α) : Edit (Linked Insn × Supply) α := do
    beside (Insn.onPhi (← get).1.insn.id act)

end InsnEdit

end SsaForm
