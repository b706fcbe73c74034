import SsaForm.Consistency.Checks
import SsaForm.Insn

/-!
# SsaForm.Method — instructions and variables of one method

A method owns its instructions and the table of its variables. An instruction's identity is its
position; a removed instruction leaves its position empty for good, so an identity is never given out
twice.
-/

namespace SsaForm

/-- The SSA form of one method. -/
structure Method where
  /-- The instructions in the order of creation, `none` where one was removed. -/
  slots : List (Option Insn) := []
  vars : VarTable := {}
  /-- What the consistency check looks at. -/
  checks : Checks := .standard
deriving DecidableEq, Repr

namespace Method

/-! ## Looking up -/

/-- The live instructions, in the order of creation. -/
def insns (m : Method) : List Insn := m.slots.filterMap id

/-- The live phis, in the order of creation. -/
def phis (m : Method) : List Phi := m.insns.filterMap Insn.phi?

/-- The live instruction with an identity. -/
def insn? (m : Method) (id : InsnId) : Option Insn := m.slots[id.index]?.join

/-- The live instruction, or the fault that there is none. -/
def insn (m : Method) (id : InsnId) : Except Fault Insn :=
  match m.insn? id with
  | some i => .ok i
  | none => .error (.unknownInsn id)

/-- The live phi, or the fault that there is none. -/
def phi (m : Method) (id : InsnId) : Except Fault Phi := do
  match ← m.insn id with
  | .phi p => .ok p
  | .node _ => .error (.notPhi id)

theorem mem_insns {m : Method} {i : Insn} : i ∈ m.insns ↔ ∃ id, m.insn? id = some i := by
  simp only [insns, insn?, List.mem_filterMap, id_eq, exists_eq_right]
  constructor
  · intro h
    obtain ⟨k, hk⟩ := List.mem_iff_getElem?.1 h
    exact ⟨⟨k⟩, by simp [hk]⟩
  · rintro ⟨id, h⟩
    rw [Option.join_eq_some_iff] at h
    exact List.mem_of_getElem? h

theorem mem_phis {m : Method} {p : Phi} :
    p ∈ m.phis ↔ ∃ id, m.insn? id = some (.phi p) := by
  simp only [phis, List.mem_filterMap, mem_insns]
  constructor
  · rintro ⟨i, ⟨id, hi⟩, hp⟩
    cases i with
    | node n => cases hp
    | phi q =>
      cases hp
      exact ⟨id, hi⟩
  · rintro ⟨id, hp⟩
    exact ⟨.phi p, ⟨id, hp⟩, rfl⟩

theorem insn_eq_ok {m : Method} {id : InsnId} {i : Insn} : m.insn id = .ok i ↔ m.insn? id = some i := by
  unfold insn
  cases m.insn? id <;> simp

theorem insn_eq_error {m : Method} {id : InsnId} {e : Fault} :
    m.insn id = .error e ↔ m.insn? id = none ∧ e = .unknownInsn id := by
  unfold insn
  cases m.insn? id <;> simp [eq_comm]

/-! ## Changing one instruction -/

/-- Puts an instruction into a position, and with it the table that it was linked to. -/
def putInsn (m : Method) (id : InsnId) (s : Linked Insn) : Method :=
  { m with slots := m.slots.set id.index (some s.insn), vars := s.vars }

/-- A live instruction is found where it was put, and every other one where it was. -/
theorem insn?_putInsn {m : Method} {id : InsnId} {i : Insn} (h : m.insn? id = some i)
    (s : Linked Insn) (k : InsnId) :
    (m.putInsn id s).insn? k = if id = k then some s.insn else m.insn? k := by
  obtain ⟨n⟩ := id
  obtain ⟨l⟩ := k
  have hn : n < m.slots.length := by
    simp only [insn?, Option.join_eq_some_iff] at h
    exact (List.getElem?_eq_some_iff.1 h).1
  simp only [insn?, putInsn, List.getElem?_set, InsnId.mk.injEq]
  split <;> simp_all

/-- Putting an instruction back unchanged changes nothing. -/
theorem putInsn_self {m : Method} {id : InsnId} {i : Insn} (h : m.insn? id = some i) :
    m.putInsn id { insn := i, vars := m.vars } = m := by
  have hslot : m.slots[id.index]? = some (some i) := by
    simpa [insn?, Option.join_eq_some_iff] using h
  have hset : m.slots.set id.index (some i) = m.slots := by
    apply List.ext_getElem?
    intro k
    rw [List.getElem?_set]
    split
    · subst k
      rw [if_pos (List.getElem?_eq_some_iff.1 hslot).1, hslot]
    · rfl
  simp [putInsn, hset]

/-- Edits a live instruction together with the variables. -/
def editInsn {α : Type} (id : InsnId) (act : Edit (Linked Insn) α) : Edit Method α := fun m =>
  match m.insn id with
  | .ok i => Edit.zoom (fun m => { insn := i, vars := m.vars }) (·.putInsn id ·) act m
  | .error e => .error e m

/-- Edits a live phi together with the variables. -/
def editPhi {α : Type} (id : InsnId) (act : Edit (Linked Phi) α) : Edit Method α :=
  editInsn id (Insn.onPhi id act)

end Method

end SsaForm
