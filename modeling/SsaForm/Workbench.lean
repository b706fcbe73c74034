import SsaForm.Method

/-!
# SsaForm.Workbench — trying out methods step by step

A workbench holds methods, tables and instructions that belong to no method, and operands under names.
This module looks things up on it and evaluates operand expressions; `SsaForm.Workbench.Tools` changes
what is there. Looking up fails with a `Refusal` when the thing named is not on the workbench, and with
a `Fault` when it should be in a method and is not.

An expression that makes a new operand draws its identity from the supply of the workbench. The
identity stays drawn whatever happens later.
-/

namespace SsaForm

/-- What a tool needs and does not find. -/
inductive Refusal where
  | noSuchHandle
  | notARegister
  | noSuchArgument
  | noResult
  | noSuchInsn
  | noSuchMethod
  | noSuchTable
  | notANode
  | notAPhi
deriving DecidableEq, Repr

/-- The wording of a refusal. -/
def Refusal.text : Refusal → String
  | noSuchHandle => "no such handle"
  | notARegister => "not a register"
  | noSuchArgument => "no such argument"
  | noResult => "no result"
  | noSuchInsn => "no such insn"
  | noSuchMethod => "no such method"
  | noSuchTable => "no such table"
  | notANode => "not a node"
  | notAPhi => "not a phi"

/-- Why a tool fails. -/
inductive Setback where
  | fault (f : Fault)
  | refusal (r : Refusal)
deriving DecidableEq, Repr

/-- Methods, loose tables, loose instructions and named operands, with the one supply of operand
identities. -/
structure Workbench where
  methods : List Method := []
  tables : List VarTable := []
  loose : List Insn := []
  /-- The named operands, the latest first. -/
  handles : List (String × Operand) := []
  supply : Supply := {}

/-- Use of a workbench. What was done before a setback stays done. -/
abbrev Work := EStateM Setback Workbench

/-- An instruction: loose, or live in a method. -/
inductive Target where
  | loose (k : Nat)
  | live (method : Nat) (id : InsnId)
deriving DecidableEq, Repr

/-- A table: loose, or that of a method. -/
inductive TableRef where
  | loose (k : Nat)
  | ofMethod (k : Nat)
deriving DecidableEq, Repr

/-- How an operand is given. -/
inductive OperandExpr where
  /-- The operand kept under a name. -/
  | handle (name : String)
  /-- A new register. -/
  | register (reg : Nat) (type : ValueType) (var : Option VarId)
  /-- A new literal. -/
  | literal (value : Int) (type : ValueType)
  /-- A new instance like another register. -/
  | duplicate (e : OperandExpr)
  /-- The argument that an instruction holds at a position. -/
  | argument (index : Nat) (target : Target)
  /-- The result of an instruction. -/
  | result (target : Target)
deriving DecidableEq, Repr

namespace Workbench

variable {α : Type}

/-! ## Looking up -/

/-- Fails with a refusal. -/
def refuse (r : Refusal) : Work α := throw (.refusal r)

/-- The value that was found, or the refusal that there is none. -/
def orRefuse (r : Refusal) : Option α → Work α
  | some a => return a
  | none => refuse r

/-- The value, or the setback of its fault. -/
def orFault : Except Fault α → Work α
  | .ok a => return a
  | .error f => throw (.fault f)

/-- The method at a position. -/
def method (k : Nat) : Work Method := do orRefuse .noSuchMethod (← get).methods[k]?

/-- The loose instruction at a position. -/
def looseInsn (k : Nat) : Work Insn := do orRefuse .noSuchInsn (← get).loose[k]?

/-- The loose table at a position. -/
def looseTable (k : Nat) : Work VarTable := do orRefuse .noSuchTable (← get).tables[k]?

/-- The table that is referred to. A method that is missing has no table. -/
def table : TableRef → Work VarTable
  | .loose k => looseTable k
  | .ofMethod k => do orRefuse .noSuchTable ((← get).methods[k]?.map (·.vars))

/-- The instruction that is aimed at. -/
def insn : Target → Work Insn
  | .loose k => looseInsn k
  | .live k id => do orFault ((← method k).insn id)

/-- The phi that is aimed at; any other instruction will not do. -/
def phi : Target → Work Phi
  | .loose k => do orRefuse .notAPhi (← looseInsn k).phi?
  | .live k id => do orFault ((← method k).phi id)

/-! ## Operands -/

/-- Takes the next operand identity. -/
def draw : Work OperandId :=
  modifyGet fun w => (w.supply.draw.1, { w with supply := w.supply.draw.2 })

/-- The operand that an expression gives. -/
def operand : OperandExpr → Work Operand
  | .handle name => do orRefuse .noSuchHandle ((← get).handles.lookup name)
  | .register reg type var => return .register { id := ← draw, reg := reg, type := type, var := var }
  | .literal value type => return .literal { id := ← draw, value := value, type := type }
  | .duplicate e => do
    let r ← orRefuse .notARegister (← operand e).register?
    return .register (r.duplicate (← draw))
  | .argument index target => do orRefuse .noSuchArgument (← insn target).args[index]?
  | .result target => do Operand.register <$> orRefuse .noResult (← insn target).result?

/-- The register that an expression gives; a literal is refused. -/
def register (e : OperandExpr) : Work Register := do
  orRefuse .notARegister (← operand e).register?

/-- Keeps an operand under a name, in place of an earlier one. -/
def keep (name : String) (a : Operand) : Work Unit :=
  modify fun w => { w with handles := (name, a) :: w.handles }

end Workbench

end SsaForm
