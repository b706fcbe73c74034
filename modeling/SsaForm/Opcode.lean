/-!
# SsaForm.Opcode — kinds of instructions

The core needs only what an instruction reads and defines. The kind is kept so that passes and
listings can tell instructions apart.
-/

namespace SsaForm

/-- The operation that an instruction performs. -/
inductive Opcode where
  | nop
  | const
  | move
  | arith
  | neg
  | cast
  | branchIf
  | goto
  | switch
  | invoke
  | ret
  | throw
  /-- The merge of SSA variables where control flow joins. -/
  | phi
deriving DecidableEq, Repr

namespace Opcode

/-- Every opcode, in the order of their declaration. -/
def all : List Opcode :=
  [nop, const, move, arith, neg, cast, branchIf, goto, switch, invoke, ret, throw, phi]

/-- No opcode is missing from `all`. -/
theorem mem_all (op : Opcode) : op ∈ all := by
  cases op <;> decide

/-- The mnemonic. -/
def text : Opcode → String
  | nop => "NOP"
  | const => "CONST"
  | move => "MOVE"
  | arith => "ARITH"
  | neg => "NEG"
  | cast => "CAST"
  | branchIf => "IF"
  | goto => "GOTO"
  | switch => "SWITCH"
  | invoke => "INVOKE"
  | ret => "RETURN"
  | throw => "THROW"
  | phi => "PHI"

instance : ToString Opcode := ⟨text⟩

/-- The opcode of a mnemonic. -/
def ofText? (s : String) : Option Opcode :=
  all.find? fun op => op.text == s

/-- Does the instruction end its block? -/
def isTerminator : Opcode → Bool
  | branchIf | goto | switch | ret | throw => true
  | _ => false

end Opcode

end SsaForm
