import SsaForm.Method.Mutators
import SsaForm.Proofs.Edits

/-!
# SsaForm.Proofs.MethodEdits — an edit of one instruction, seen from the method

Nearly every mutator edits one live instruction together with the variables. This module
says once what that does to the method, so that an invariant of methods owes one
obligation for each kind of instruction:

* `keeps_editInsn_edit` for an edit of nodes beside an edit of phis,
  `keeps_editPhi` for one of phis;
* `keepsNode_iff` and `keepsPhi_iff`, which carry such an obligation through the
  steps of a longer edit;
* `keeps_verified` for the check at the end.
-/

namespace SsaForm

namespace Linked

/-- A linked node as a linked instruction. -/
def ofNode (s : Linked Node) : Linked Insn := { insn := .node s.insn, vars := s.vars }

/-- A linked phi as a linked instruction. -/
def ofPhi (s : Linked Phi) : Linked Insn := { insn := .phi s.insn, vars := s.vars }

end Linked

namespace Insn

open Edit

variable {α : Type} (onNode : Edit (Linked Node) α) (onPhi : Edit (Linked Phi) α)

theorem finalState_edit_node (n : Node) (t : VarTable) :
    finalState (edit onNode onPhi ⟨.node n, t⟩) = (finalState (onNode ⟨n, t⟩)).ofNode := by
  rw [edit, finalState_zoom]
  rfl

theorem finalState_edit_phi (p : Phi) (t : VarTable) :
    finalState (edit onNode onPhi ⟨.phi p, t⟩) = (finalState (onPhi ⟨p, t⟩)).ofPhi := by
  rw [edit, finalState_zoom]
  rfl

theorem edit_node_of_ok {n : Node} {t : VarTable} {a : α} {s : Linked Node}
    (h : onNode ⟨n, t⟩ = .ok a s) : edit onNode onPhi ⟨.node n, t⟩ = .ok a s.ofNode := by
  simp only [edit, zoom, h]
  rfl

theorem edit_phi_of_ok {p : Phi} {t : VarTable} {a : α} {s : Linked Phi}
    (h : onPhi ⟨p, t⟩ = .ok a s) :
    edit onNode onPhi ⟨.phi p, t⟩ = .ok a s.ofPhi := by
  simp only [edit, zoom, h]
  rfl

theorem edit_phi_of_error {p : Phi} {t : VarTable} {e : Fault} {s : Linked Phi}
    (h : onPhi ⟨p, t⟩ = .error e s) : edit onNode onPhi ⟨.phi p, t⟩ = .error e s.ofPhi := by
  simp only [edit, zoom, h]
  rfl

theorem edit_node_of_error {n : Node} {t : VarTable} {e : Fault} {s : Linked Node}
    (h : onNode ⟨n, t⟩ = .error e s) : edit onNode onPhi ⟨.node n, t⟩ = .error e s.ofNode := by
  simp only [edit, zoom, h]
  rfl

theorem edit_node_eq_ok {n : Node} {t : VarTable} {a : α} {s : Linked Insn} :
    edit onNode onPhi ⟨.node n, t⟩ = .ok a s ↔ ∃ s', onNode ⟨n, t⟩ = .ok a s' ∧ s = s'.ofNode := by
  simp only [edit, zoom]
  cases onNode ⟨n, t⟩ <;> simp [Linked.ofNode, eq_comm, and_assoc]

theorem edit_phi_eq_ok {p : Phi} {t : VarTable} {a : α} {s : Linked Insn} :
    edit onNode onPhi ⟨.phi p, t⟩ = .ok a s ↔ ∃ s', onPhi ⟨p, t⟩ = .ok a s' ∧ s = s'.ofPhi := by
  simp only [edit, zoom]
  cases onPhi ⟨p, t⟩ <;> simp [Linked.ofPhi, eq_comm, and_assoc]

theorem edit_node_eq_error {n : Node} {t : VarTable} {e : Fault} {s : Linked Insn} :
    edit onNode onPhi ⟨.node n, t⟩ = .error e s ↔
      ∃ s', onNode ⟨n, t⟩ = .error e s' ∧ s = s'.ofNode := by
  simp only [edit, zoom]
  cases onNode ⟨n, t⟩ <;> simp [Linked.ofNode, eq_comm, and_assoc]

theorem edit_phi_eq_error {p : Phi} {t : VarTable} {e : Fault} {s : Linked Insn} :
    edit onNode onPhi ⟨.phi p, t⟩ = .error e s ↔
      ∃ s', onPhi ⟨p, t⟩ = .error e s' ∧ s = s'.ofPhi := by
  simp only [edit, zoom]
  cases onPhi ⟨p, t⟩ <;> simp [Linked.ofPhi, eq_comm, and_assoc]

theorem verdict_edit_node (n : Node) (t : VarTable) :
    verdict (edit onNode onPhi ⟨.node n, t⟩) = verdict (onNode ⟨n, t⟩) := by
  rw [edit, verdict_zoom]

theorem verdict_edit_phi (p : Phi) (t : VarTable) :
    verdict (edit onNode onPhi ⟨.phi p, t⟩) = verdict (onPhi ⟨p, t⟩) := by
  rw [edit, verdict_zoom]

end Insn

namespace Method

open Edit

/-! ## Looking up a phi -/

theorem phi_eq_ok {m : Method} {id : InsnId} {p : Phi} :
    m.phi id = .ok p ↔ m.insn? id = some (.phi p) := by
  rw [← insn_eq_ok]
  cases hi : m.insn id with
  | error e => simp [phi, hi, bind, Except.bind]
  | ok i => cases i <;> simp [phi, hi, bind, Except.bind]

/-- Where there is no live phi, the look-up fails, and so does every edit of the phi. -/
theorem editPhi_of_error {α : Type} {m : Method} {id : InsnId} {e : Fault}
    {act : Edit (Linked Phi) α} (h : m.phi id = .error e) : editPhi id act m = .error e m := by
  cases hi : m.insn id with
  | error f =>
    simp only [phi, hi, bind, Except.bind] at h
    simp only [editPhi, editInsn, hi]
    cases h
    rfl
  | ok i =>
    cases i with
    | phi p => simp [phi, hi, bind, Except.bind] at h
    | node n =>
      simp only [phi, hi, bind, Except.bind] at h
      cases h
      simp only [editPhi, editInsn, hi, zoom, Insn.onPhi, Insn.edit, ask]
      rw [putInsn_self (insn_eq_ok.1 hi)]

/-! ## Putting an instruction back -/

theorem insn?_putInsn_self {m : Method} {id : InsnId} {i : Insn} (h : m.insn? id = some i)
    (s : Linked Insn) : (m.putInsn id s).insn? id = some s.insn := by
  rw [insn?_putInsn h, if_pos rfl]

@[simp] theorem vars_putInsn (m : Method) (id : InsnId) (s : Linked Insn) :
    (m.putInsn id s).vars = s.vars := rfl

@[simp] theorem putInsn_putInsn (m : Method) (id : InsnId) (s s' : Linked Insn) :
    (m.putInsn id s).putInsn id s' = m.putInsn id s' := by
  simp [putInsn]

/-! ## Edits of one instruction -/

variable {α : Type} {P : Method → Prop} {id : InsnId}

theorem editInsn_of_none {m : Method} {act : Edit (Linked Insn) α} (h : m.insn? id = none) :
    editInsn id act m = .error (.unknownInsn id) m := by
  simp only [editInsn, insn, h]

theorem finalState_editInsn {m : Method} {i : Insn} {act : Edit (Linked Insn) α}
    (h : m.insn? id = some i) :
    finalState (editInsn id act m) = m.putInsn id (finalState (act ⟨i, m.vars⟩)) := by
  simp only [editInsn, insn_eq_ok.2 h]
  exact finalState_zoom _ _ act m

theorem verdict_editInsn {m : Method} {i : Insn} {act : Edit (Linked Insn) α}
    (h : m.insn? id = some i) : verdict (editInsn id act m) = verdict (act ⟨i, m.vars⟩) := by
  simp only [editInsn, insn_eq_ok.2 h]
  exact verdict_zoom _ _ act m

theorem editInsn_of_ok {m : Method} {i : Insn} {act : Edit (Linked Insn) α} {a : α}
    {s : Linked Insn} (hi : m.insn? id = some i) (h : act ⟨i, m.vars⟩ = .ok a s) :
    editInsn id act m = .ok a (m.putInsn id s) := by
  apply result_ext
  · rw [verdict_editInsn hi, h]
    rfl
  · rw [finalState_editInsn hi, h]
    rfl

/-- Where an instruction refuses an edit, the method stays. -/
theorem editInsn_of_error {m : Method} {i : Insn} {act : Edit (Linked Insn) α} {e : Fault}
    (hi : m.insn? id = some i) (h : act ⟨i, m.vars⟩ = .error e ⟨i, m.vars⟩) :
    editInsn id act m = .error e m := by
  apply result_ext
  · rw [verdict_editInsn hi, h]
    rfl
  · rw [finalState_editInsn hi, h]
    exact putInsn_self hi

/-- The edit of an instruction owes what it leaves where the instruction is live. -/
theorem editInsn_cases {m : Method} {act : Edit (Linked Insn) α} (hm : P m)
    (h : ∀ i, m.insn? id = some i → P (m.putInsn id (finalState (act ⟨i, m.vars⟩)))) :
    P (finalState (editInsn id act m)) := by
  cases hi : m.insn? id with
  | none =>
    rw [editInsn_of_none hi]
    exact hm
  | some i =>
    rw [finalState_editInsn hi]
    exact h i hi

theorem keeps_editInsn {act : Edit (Linked Insn) α}
    (h : ∀ m i, P m → m.insn? id = some i → P (m.putInsn id (finalState (act ⟨i, m.vars⟩)))) :
    Keeps P (editInsn id act) :=
  fun m hm => editInsn_cases hm fun i hi => h m i hm hi

/-- An edit of an instruction that changes all or nothing owes its success only. -/
theorem putInsn_atomically {m : Method} {i : Insn} {f : Linked Insn → Except Fault (Linked Insn)}
    (hm : P m) (hi : m.insn? id = some i) (hok : ∀ s, f ⟨i, m.vars⟩ = .ok s → P (m.putInsn id s)) :
    P (m.putInsn id (finalState (atomically f ⟨i, m.vars⟩))) := by
  cases hf : f ⟨i, m.vars⟩ with
  | error e =>
    rw [atomically_of_error hf]
    exact (putInsn_self hi).symm ▸ hm
  | ok s =>
    rw [atomically_of_ok hf]
    exact hok s hf

theorem putNode_atomically {m : Method} {n : Node} {f : Linked Node → Except Fault (Linked Node)}
    (hm : P m) (hn : m.insn? id = some (.node n))
    (hok : ∀ s, f ⟨n, m.vars⟩ = .ok s → P (m.putInsn id s.ofNode)) :
    P (m.putInsn id (finalState (atomically f ⟨n, m.vars⟩)).ofNode) := by
  cases hf : f ⟨n, m.vars⟩ with
  | error e =>
    rw [atomically_of_error hf]
    exact (putInsn_self hn).symm ▸ hm
  | ok s =>
    rw [atomically_of_ok hf]
    exact hok s hf

theorem putPhi_atomically {m : Method} {p : Phi} {f : Linked Phi → Except Fault (Linked Phi)}
    (hm : P m) (hp : m.insn? id = some (.phi p))
    (hok : ∀ s, f ⟨p, m.vars⟩ = .ok s → P (m.putInsn id s.ofPhi)) :
    P (m.putInsn id (finalState (atomically f ⟨p, m.vars⟩)).ofPhi) := by
  cases hf : f ⟨p, m.vars⟩ with
  | error e =>
    rw [atomically_of_error hf]
    exact (putInsn_self hp).symm ▸ hm
  | ok s =>
    rw [atomically_of_ok hf]
    exact hok s hf

/-- What `act` owes to an invariant of methods where it edits the node `id`. -/
def KeepsNode (P : Method → Prop) (id : InsnId) (act : Edit (Linked Node) α) : Prop :=
  ∀ m n, P m → m.insn? id = some (.node n) →
    P (m.putInsn id (finalState (act ⟨n, m.vars⟩)).ofNode)

/-- What `act` owes to an invariant of methods where it edits the phi `id`. -/
def KeepsPhi (P : Method → Prop) (id : InsnId) (act : Edit (Linked Phi) α) : Prop :=
  ∀ m p, P m → m.insn? id = some (.phi p) →
    P (m.putInsn id (finalState (act ⟨p, m.vars⟩)).ofPhi)

/-- The obligation for a node is one about the linked node, with the rest of the
method held fixed. -/
theorem keepsNode_iff {act : Edit (Linked Node) α} :
    KeepsNode P id act ↔ ∀ (m : Method) i, m.insn? id = some i →
      Keeps (fun s => P (m.putInsn id s.ofNode)) act := by
  constructor
  · intro h m i hi s hs
    have hnode := h (m.putInsn id s.ofNode) s.insn hs (insn?_putInsn_self hi _)
    rwa [putInsn_putInsn] at hnode
  · intro h m n hm hn
    refine h m _ hn ⟨n, m.vars⟩ ?_
    have hself := putInsn_self hn
    show P (m.putInsn id { insn := .node n, vars := m.vars })
    rwa [hself]

/-- The obligation for a phi is one about the linked phi, with the rest of the method held fixed. -/
theorem keepsPhi_iff {act : Edit (Linked Phi) α} :
    KeepsPhi P id act ↔ ∀ (m : Method) i, m.insn? id = some i →
      Keeps (fun s => P (m.putInsn id s.ofPhi)) act := by
  constructor
  · intro h m i hi s hs
    have hphi := h (m.putInsn id s.ofPhi) s.insn hs (insn?_putInsn_self hi _)
    rwa [putInsn_putInsn] at hphi
  · intro h m p hm hp
    refine h m _ hp ⟨p, m.vars⟩ ?_
    have hself := putInsn_self hp
    show P (m.putInsn id { insn := .phi p, vars := m.vars })
    rwa [hself]

theorem keeps_editInsn_edit {onNode : Edit (Linked Node) α} {onPhi : Edit (Linked Phi) α}
    (hnode : KeepsNode P id onNode) (hphi : KeepsPhi P id onPhi) :
    Keeps P (editInsn id (Insn.edit onNode onPhi)) := by
  apply keeps_editInsn
  intro m i hm hi
  cases i with
  | node n =>
    rw [Insn.finalState_edit_node]
    exact hnode m n hm hi
  | phi p =>
    rw [Insn.finalState_edit_phi]
    exact hphi m p hm hi

/-- An edit that leaves every linked node as it is keeps whatever holds. -/
theorem keepsNode_ask (f : Linked Node → Except Fault α) : KeepsNode P id (ask f) :=
  keepsNode_iff.2 fun _ _ _ => keeps_ask f

theorem keepsPhi_ask (f : Linked Phi → Except Fault α) : KeepsPhi P id (ask f) :=
  keepsPhi_iff.2 fun _ _ _ => keeps_ask f

theorem keeps_editPhi {act : Edit (Linked Phi) α} (h : KeepsPhi P id act) :
    Keeps P (editPhi id act) :=
  keeps_editInsn_edit (keepsNode_ask _) h

/-- A successful edit found its instruction. -/
theorem insn?_of_verdict_eq_ok {m : Method} {act : Edit (Linked Insn) α} {a : α}
    (h : verdict (editInsn id act m) = .ok a) :
    ∃ i, m.insn? id = some i ∧ verdict (act ⟨i, m.vars⟩) = .ok a := by
  cases hi : m.insn? id with
  | none =>
    rw [editInsn_of_none hi] at h
    cases h
  | some i =>
    rw [verdict_editInsn hi] at h
    exact ⟨i, rfl, h⟩

/-! ## The check after a change -/

/-- The check does not hide a fault. -/
theorem verdict_verified_of_error {act : Edit Method α} {m : Method} {e : Fault}
    (h : verdict (act m) = .error e) : verdict (verified act m) = .error e := by
  rw [verdict_eq_error] at h
  rw [verified_apply, h]
  rfl

/-- What passes the check has succeeded before. -/
theorem verdict_of_verified_eq_ok {act : Edit Method α} {m : Method} {a : α}
    (h : verdict (verified act m) = .ok a) : verdict (act m) = .ok a := by
  rw [verified_apply] at h
  cases hr : act m with
  | error e s =>
    rw [hr] at h
    cases h
  | ok b s =>
    simp only [hr] at h
    cases hc : s.recheck with
    | error e =>
      rw [hc] at h
      cases h
    | ok u =>
      rw [hc] at h
      exact h

/-- A check that the outcome passes does not show. -/
theorem verdict_verified {act : Edit Method α} {m : Method}
    (h : (finalState (act m)).recheck = .ok ()) :
    verdict (verified act m) = verdict (act m) := by
  rw [verified_apply]
  cases hr : act m with
  | error e s => rfl
  | ok a s =>
    rw [hr] at h
    have hs : s.recheck = .ok () := h
    simp only [hs]

theorem recheck_of_unchecked {m : Method} (h : m.checks.afterMutation = false) :
    m.recheck = .ok () := by
  rw [recheck, h]
  rfl

theorem recheck_of_checked {m : Method} (h : m.checks.afterMutation = true) :
    m.recheck = m.verify m.checks := by
  rw [recheck, h]
  rfl

/-- On a method that does not check itself the check does not show. -/
theorem verified_of_unchecked {act : Edit Method α} {m : Method}
    (h : (finalState (act m)).checks.afterMutation = false) : verified act m = act m := by
  apply result_ext
  · exact verdict_verified (recheck_of_unchecked h)
  · exact finalState_verified act m

theorem keeps_verified {act : Edit Method α} (h : Keeps P act) : Keeps P (verified act) := by
  intro m hm
  rw [finalState_verified]
  exact h m hm

end Method

end SsaForm
