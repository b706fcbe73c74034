/-!
# SsaForm.Ident — identities

Instructions, variables, blocks and operands refer to each other by identity, never by value. An
identity is a number wrapped in a type of its own, so that a block is not taken for an instruction.
Instruction and variable identities are positions in the method that owns them; operand identities
are drawn from one supply and never repeat.
-/

namespace SsaForm

/-- Identity of an instruction: its position in the order of creation within its method. -/
structure InsnId where
  index : Nat
deriving DecidableEq, Ord, Repr

/-- Identity of an SSA variable: the position that it was given in its table. -/
structure VarId where
  index : Nat
deriving DecidableEq, Ord, Repr

/-- Identity of a basic block. -/
structure BlockId where
  index : Nat
deriving DecidableEq, Ord, Repr

/-- Identity of one operand instance. Copies of an operand share it. -/
structure OperandId where
  index : Nat
deriving DecidableEq, Ord, Repr

instance : ToString InsnId := ⟨fun i => s!"I{i.index}"⟩

instance : ToString VarId := ⟨fun v => s!"v{v.index}"⟩

instance : ToString BlockId := ⟨fun b => s!"B{b.index}"⟩

instance : ToString OperandId := ⟨fun a => s!"a{a.index}"⟩

/-- How a report words the owner of an operand, which may have none. -/
def InsnId.ownerText : Option InsnId → String
  | some i => s!"Some({i})"
  | none => "None"

/-! ## The supply of operand identities -/

/-- The supply of operand identities: every number from `next` on is still unused. -/
structure Supply where
  next : Nat := 0
deriving DecidableEq, Repr

namespace Supply

/-- The next unused identity, and the supply without it. -/
def draw (s : Supply) : OperandId × Supply :=
  (⟨s.next⟩, ⟨s.next + 1⟩)

@[simp] theorem draw_fst (s : Supply) : s.draw.1 = ⟨s.next⟩ := rfl

@[simp] theorem draw_snd (s : Supply) : s.draw.2 = ⟨s.next + 1⟩ := rfl

end Supply

end SsaForm
