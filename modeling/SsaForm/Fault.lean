import SsaForm.Consistency.Finding

/-!
# SsaForm.Fault — why an operation fails

Every failure is a broken contract: the caller asked for something that would break an invariant of
SSA form, named something that does not exist, or the method was inconsistent to begin with.
-/

namespace SsaForm

/-- The cause of a failure. -/
inductive Fault where
  /-- A phi was to take a second value from one predecessor. -/
  | duplicatePredecessor (pred : BlockId) (phi : InsnId)
  /-- An argument of a phi has no predecessor. -/
  | unknownPredecessor (operand : OperandId) (phi : InsnId)
  /-- The arguments or the result of a phi were to be changed other than by binding. -/
  | forbiddenMutation (phi : InsnId) (operation : String)
  /-- An instance that stands in an instruction was to be put into another place. -/
  | alreadyBound (operand : OperandId) (insn : InsnId)
  /-- The table does not have the variable. -/
  | unknownVariable (var : VarId)
  /-- The method does not have the instruction, or has it no longer. -/
  | unknownInsn (insn : InsnId)
  /-- The instruction is no phi. -/
  | notPhi (insn : InsnId)
  /-- The operand is a literal. -/
  | notRegister (operand : OperandId)
  /-- Instructions and variables disagree. -/
  | inconsistent (finding : Finding)
  /-- A position lies outside an argument list. -/
  | indexOutOfRange (index : Nat)
deriving DecidableEq, Repr

namespace Fault

/-- The wording of a fault. -/
def text : Fault → String
  | duplicatePredecessor pred phi => s!"Duplicate predecessor {pred} in phi {phi}"
  | unknownPredecessor operand phi =>
    s!"Unknown predecessor block for argument {operand} in phi {phi}"
  | forbiddenMutation phi operation =>
    s!"Direct {operation} is forbidden for phi {phi}, bind must be used"
  | alreadyBound operand insn => s!"Argument {operand} is already bound in {insn}"
  | unknownVariable var => s!"Unknown SSA variable - {var}"
  | unknownInsn insn => s!"Unknown instruction - {insn}"
  | notPhi insn => s!"Instruction {insn} is not a phi"
  | notRegister operand => s!"Argument {operand} is not a register argument"
  | inconsistent finding => finding.text
  | indexOutOfRange index => s!"Index {index} is out of range"

instance : ToString Fault := ⟨text⟩

end Fault

end SsaForm
