import SsaForm.Phi

/-!
# SsaForm.Answer — what operations return

The operations on methods, tables and instructions are also available as data, so that a history of
them is a list. Their answers then need one type.
-/

namespace SsaForm

/-- The value that a successful operation returns. -/
inductive Answer where
  | done
  | flag (b : Bool)
  | count (n : Nat)
  | var (v : VarId)
  | insn (i : InsnId)
  | operand (a : Operand)
  | operands (as : List Operand)
  | phi (p : Phi)
deriving DecidableEq, Repr

end SsaForm
