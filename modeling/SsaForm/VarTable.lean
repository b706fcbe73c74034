import SsaForm.Fault
import SsaForm.Variable

/-!
# SsaForm.VarTable — the variables of a method

The table owns the variables and finds them by position. Variables are added at the end and never
removed, so an identity stays good for the life of the table. Each variable carries the identity that
it was given as well. The two are the same in a table that has only been extended and had its records
changed (`Numbered`), and may differ where one variable was put in the place of another.

Every change of a record names a variable. It fails with `unknownVariable`, and changes nothing, when
the table does not have that variable; otherwise it changes that variable alone.
-/

namespace SsaForm

/-- The SSA variables of one method, in the order of allocation. -/
structure VarTable where
  vars : List Variable := []
deriving DecidableEq, Repr

namespace VarTable

/-! ## Looking up -/

/-- A table has the variables up to its length. -/
instance : Membership VarId VarTable := ⟨fun t v => v.index < t.vars.length⟩

theorem mem_def {t : VarTable} {v : VarId} : v ∈ t ↔ v.index < t.vars.length := Iff.rfl

instance (t : VarTable) (v : VarId) : Decidable (v ∈ t) :=
  inferInstanceAs (Decidable (v.index < t.vars.length))

/-- The identities that the variables carry, in their order. -/
def ids (t : VarTable) : List VarId := t.vars.map (·.id)

/-- The variable, if the table has it. -/
def get? (t : VarTable) (v : VarId) : Option Variable := t.vars[v.index]?

theorem get?_isSome {t : VarTable} {v : VarId} : (t.get? v).isSome = true ↔ v ∈ t := by
  simp [get?, mem_def]

theorem get?_eq_none {t : VarTable} {v : VarId} : t.get? v = none ↔ v ∉ t := by
  simp [get?, mem_def]

/-- The variable, or the fault that it is unknown. -/
def find (t : VarTable) (v : VarId) : Except Fault Variable :=
  match t.get? v with
  | some x => .ok x
  | none => .error (.unknownVariable v)

theorem find_eq_ok {t : VarTable} {v : VarId} {x : Variable} :
    t.find v = .ok x ↔ t.get? v = some x := by
  unfold find
  split <;> simp_all

theorem find_eq_error {t : VarTable} {v : VarId} {e : Fault} :
    t.find v = .error e ↔ v ∉ t ∧ e = .unknownVariable v := by
  rw [← get?_eq_none]
  unfold find
  cases t.get? v <;> simp [eq_comm]

theorem mem_vars {t : VarTable} {x : Variable} : x ∈ t.vars ↔ ∃ v, t.get? v = some x := by
  rw [List.mem_iff_getElem?]
  exact ⟨fun ⟨k, hk⟩ => ⟨⟨k⟩, hk⟩, fun ⟨v, hv⟩ => ⟨v.index, hv⟩⟩

/-- Every variable carries the identity under which the table finds it. -/
def Numbered (t : VarTable) : Prop := ∀ v x, t.get? v = some x → x.id = v

/-- In a numbered table the identities are the positions. -/
theorem Numbered.ids_eq {t : VarTable} (h : t.Numbered) :
    t.ids = (List.range t.vars.length).map VarId.mk := by
  refine List.ext_getElem? fun k => ?_
  rw [ids, List.getElem?_map, List.getElem?_map]
  by_cases hk : k < t.vars.length
  · have hget : t.vars[k]? = some t.vars[k] := List.getElem?_eq_getElem hk
    rw [hget, List.getElem?_range hk, Option.map_some, Option.map_some, h ⟨k⟩ _ hget]
  · have hlength : t.vars.length ≤ k := Nat.le_of_not_lt hk
    rw [List.getElem?_eq_none hlength, List.getElem?_eq_none]
    · rfl
    · rw [List.length_range]
      exact hlength

/-! ## Changing -/

/-- Adds a variable without records, and returns its identity. -/
def alloc (t : VarTable) (reg version : Nat) : VarId × VarTable :=
  (⟨t.vars.length⟩, ⟨t.vars ++ [{ id := ⟨t.vars.length⟩, reg := reg, version := version }]⟩)

/-- Changes one variable; without effect where the table does not have it. -/
def modify (t : VarTable) (v : VarId) (f : Variable → Variable) : VarTable :=
  ⟨t.vars.modify v.index f⟩

theorem get?_modify (t : VarTable) (v w : VarId) (f : Variable → Variable) :
    (t.modify v f).get? w = if v = w then (t.get? w).map f else t.get? w := by
  cases v; cases w
  simp only [get?, modify, List.getElem?_modify, VarId.mk.injEq]
  split <;> simp

@[simp] theorem mem_modify {t : VarTable} {v w : VarId} {f : Variable → Variable} :
    w ∈ t.modify v f ↔ w ∈ t := by
  simp [mem_def, modify]

/-- Changes one variable that the table has to have. -/
def update (t : VarTable) (v : VarId) (f : Variable → Variable) : Except Fault VarTable :=
  if v ∈ t then .ok (t.modify v f) else .error (.unknownVariable v)

theorem update_eq_ok {t s : VarTable} {v : VarId} {f : Variable → Variable} :
    t.update v f = .ok s ↔ v ∈ t ∧ s = t.modify v f := by
  unfold update
  split <;> simp_all [eq_comm]

theorem update_eq_error {t : VarTable} {v : VarId} {f : Variable → Variable} {e : Fault} :
    t.update v f = .error e ↔ v ∉ t ∧ e = .unknownVariable v := by
  unfold update
  split <;> simp_all [eq_comm]

/-! ## The records -/

/-- Records the site of the operand that defines `v`. -/
def define (t : VarTable) (v : VarId) (s : Site) : Except Fault VarTable :=
  t.update v (·.define s)

/-- Forgets the definition of `v` if the instance made it, and tells whether it did. -/
def undefine (t : VarTable) (v : VarId) (a : OperandId) : Except Fault (Bool × VarTable) := do
  let x ← t.find v
  return (x.definedBy a, t.modify v (·.undefine a))

/-- Records the site of an operand that reads `v`. -/
def recordUse (t : VarTable) (v : VarId) (s : Site) : Except Fault VarTable :=
  t.update v (·.recordUse s)

/-- Forgets the use of `v` by the instance, and tells whether there was one. -/
def dropUse (t : VarTable) (v : VarId) (a : OperandId) : Except Fault (Bool × VarTable) := do
  let x ← t.find v
  return (x.usedBy a, t.modify v (·.dropUse a))

/-- Lists the phi `p` as a consumer of `v`. -/
def addConsumer (t : VarTable) (v : VarId) (p : InsnId) : Except Fault VarTable :=
  t.update v (·.addConsumer p)

/-- Drops the consumers of `v` in which no use of `v` is recorded any more. -/
def refreshConsumers (t : VarTable) (v : VarId) : Except Fault VarTable :=
  t.update v (·.refreshConsumers)

/-- Gives `v` a type. -/
def setType (t : VarTable) (v : VarId) (type : ValueType) : Except Fault VarTable :=
  t.update v (·.setType type)

end VarTable

end SsaForm
