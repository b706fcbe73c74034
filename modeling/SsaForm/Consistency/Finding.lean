import SsaForm.Attributes
import SsaForm.Operand

/-!
# SsaForm.Consistency.Finding — what an inconsistent method looks like

A finding names one broken relation between the instructions of a method and its variables. The
consistency check reports the first one that it meets; two mutators report one when an instruction
lacks the register that they are to change.
-/

namespace SsaForm

/-- One broken relation, with the parties to it. -/
inductive Finding where
  /-- A phi lacks one of the markers that every phi carries. -/
  | missingPhiFlags (phi : InsnId) (has : Attributes)
  /-- A phi has more arguments than allowed. -/
  | tooManyArgs (phi : InsnId) (count limit : Nat)
  /-- A phi binds an argument that another instruction, or none, owns. -/
  | strayBinding (phi : InsnId) (arg : Register)
  /-- A phi binds one predecessor twice. -/
  | repeatedPredecessor (phi : InsnId) (pred : BlockId)
  /-- A phi reads a variable that does not list the phi as a consumer. -/
  | unlistedConsumer (phi : InsnId) (var : VarId)
  /-- A variable lists a consumer that is no phi reading it. -/
  | falseConsumer (var : VarId) (insn : InsnId)
  /-- An instruction holds an argument that another instruction, or none, owns. -/
  | strayArg (holder : InsnId) (arg : Register)
  /-- An instruction reads a variable that does not record the use. -/
  | unrecordedUse (holder : InsnId) (arg : Register) (var : VarId)
  /-- An instruction defines a variable that records another definition. -/
  | foreignDefinition (insn : InsnId) (var : VarId)
  /-- A variable records a definition that is no result any more. -/
  | staleDefinition (var : VarId) (site : Site)
  /-- A variable records a use that no instruction holds any more. -/
  | staleUse (var : VarId) (site : Site)
  /-- A result was to be changed where there is none. -/
  | noResult (insn : InsnId)
  /-- An argument was to be changed where there is none. -/
  | noArgument (insn : InsnId) (index : Nat)
deriving DecidableEq, Repr

namespace Finding

/-- The wording of a finding. -/
def text : Finding → String
  | missingPhiFlags phi has => s!"{phi} is missing phi flags, has {has}"
  | tooManyArgs phi count limit => s!"{phi} has {count} arguments, limit is {limit}"
  | strayBinding phi arg =>
    let owner := InsnId.ownerText arg.owner
    s!"{phi} binds {arg} owned by {owner}"
  | repeatedPredecessor phi pred => s!"{phi} binds {pred} twice"
  | unlistedConsumer phi var => s!"{phi} binds {var} but the variable does not list it"
  | falseConsumer var insn => s!"{var} lists {insn} as consumer but is not bound there"
  | strayArg holder arg =>
    let owner := InsnId.ownerText arg.owner
    s!"{holder} holds {arg} owned by {owner}"
  | unrecordedUse holder arg var => s!"{arg} in {holder} is not a recorded use of {var}"
  | foreignDefinition insn var => s!"{insn} defines {var} but the variable is assigned elsewhere"
  | staleDefinition var site =>
    let owner := InsnId.ownerText site.insn
    s!"{var} is assigned by {site.operand} in {owner} which is no longer a result"
  | staleUse var site =>
    let owner := InsnId.ownerText site.insn
    s!"{var} records a stale use {site.operand} in {owner}"
  | noResult insn => s!"{insn} has no result register"
  | noArgument insn index => s!"{insn} has no argument {index}"

/-- The wording of a report that says in which file and line it was made. -/
def located (file : String) (line : Nat) (text : String) : String :=
  s!"Inconsistent - {file}:{line}: {text}"

end Finding

end SsaForm
