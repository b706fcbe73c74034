import SsaForm.Proofs.InsnChanges
import SsaForm.Proofs.MethodEdits

/-!
# SsaForm.Proofs.Steps — what an invariant owes for the mutators

The mutators are put together from few steps: a node takes or loses an argument, a phi takes or
loses a binding, an argument is renamed, and an instruction without arguments comes or goes.
`KeptBySteps P` lists what an invariant owes for them, and from that it follows for the mutators,
whether they succeed or fail halfway. What is left to the invariants themselves is setting the
argument of a node (`setArg` and `replaceArg`), naming what a result defines (`setResult` and
`assignResult`) and choosing the checks. An invariant that survives only the steps by which something
goes (`KeptByRemovals`) survives the mutators that remove.
-/

namespace SsaForm

open Edit

/-! ## Steps of a node -/

namespace Node

variable {P : Linked Node → Prop} {α : Type}

/-- An edit at the position of an instance keeps what the edit of any position keeps. -/
theorem keeps_atIndex {act : Nat → Edit (Linked Node) α} (a : OperandId)
    (h : ∀ k, Keeps P (act k)) :
    Keeps P (do
      match (← get).insn.argIndex a with
      | some index =>
        let _ ← act index
        return true
      | none => return false) := by
  apply keeps_get_bind
  intro s hs
  cases s.insn.argIndex a with
  | none => exact hs
  | some k => exact keeps_bind (h k) (fun _ => keeps_pure true) s hs

theorem keeps_removeArg (a : OperandId) (h : ∀ k, Keeps P (removeArgAt k)) :
    Keeps P (removeArg a) :=
  keeps_atIndex a h

theorem keeps_replaceArg (old : OperandId) (a : Operand) (h : ∀ k, Keeps P (setArg k a)) :
    Keeps P (replaceArg old a) :=
  keeps_atIndex old h

theorem keeps_unbindAll (h : ∀ k, Keeps P (removeArgAt k)) : Keeps P unbindAll :=
  keeps_get_bind fun s hs => keeps_mapM s.insn.args (fun _ => h 0) s hs

end Node

/-! ## Steps of a phi -/

/-- Where an element was removed there is still a place for one. -/
theorem le_length_eraseIdx {α : Type} {l : List α} {k : Nat} {x : α} (h : l[k]? = some x) :
    k ≤ (l.eraseIdx k).length := by
  have hlt := (List.getElem?_eq_some_iff.1 h).1
  rw [List.length_eraseIdx_of_lt hlt]
  omega

namespace Phi

variable {P : Linked Phi → Prop}

theorem keeps_removeArg (a : OperandId) (h : ∀ k, Keeps P (removeArgAt k)) :
    Keeps P (removeArg a) := by
  apply keeps_get_bind
  intro s hs
  cases s.insn.argIndex a with
  | none => exact hs
  | some k => exact keeps_bind (h k) (fun _ => keeps_pure true) s hs

theorem keeps_unbindAll (h : ∀ k, Keeps P (removeArgAt k)) : Keeps P unbindAll :=
  keeps_get_bind fun s hs => keeps_mapM s.insn.bindings (fun _ => h 0) s hs

/-- Binding a fresh instance is a binding at the end. -/
theorem bind_of_argBound {id : OperandId} {pred : BlockId} {s s' : Linked Phi}
    (h : argBound (s.insn.freshArg id) pred s = .ok s') :
    bind id pred s = .ok ((s.insn.freshArg id).ownedBy s.insn.id) s' := by
  simp only [bind, get_bind_apply, bindArg_eq]
  exact bind_of_ok (atomically_of_ok h)

theorem bind_of_argBound_error {id : OperandId} {pred : BlockId} {s : Linked Phi} {e : Fault}
    (h : argBound (s.insn.freshArg id) pred s = .error e) : bind id pred s = .error e s := by
  simp only [bind, get_bind_apply, bindArg_eq]
  exact bind_of_error (atomically_of_error h)

theorem argBound_of_bind {id : OperandId} {pred : BlockId} {r : Register} {s s' : Linked Phi}
    (h : bind id pred s = .ok r s') : argBound (s.insn.freshArg id) pred s = .ok s' := by
  cases hins : argBound (s.insn.freshArg id) pred s with
  | ok t =>
    rw [bind_of_argBound hins] at h
    cases h
    rfl
  | error e =>
    rw [bind_of_argBound_error hins] at h
    cases h

theorem finalState_bind (id : OperandId) (pred : BlockId) (s : Linked Phi) :
    finalState (bind id pred s) =
      finalState (atomically (argBound (s.insn.freshArg id) pred) s) := by
  cases hins : argBound (s.insn.freshArg id) pred s with
  | ok s' =>
    rw [bind_of_argBound hins, atomically_of_ok hins]
    rfl
  | error e =>
    rw [bind_of_argBound_error hins, atomically_of_error hins]
    rfl

/-- What a binding in range owes. Elsewhere nothing would be bound, yet the use recorded. -/
def KeepsBinding (P : Linked Phi → Prop) : Prop :=
  ∀ k r pred s, P s → k ≤ s.insn.bindings.length →
    P (finalState (atomically (bindingInserted k r pred) s))

theorem keeps_bind (id : OperandId) (pred : BlockId) (h : KeepsBinding P) :
    Keeps P (bind id pred) := by
  intro s hs
  rw [finalState_bind]
  exact h _ _ pred s hs (Nat.le_refl _)

theorem keeps_bindArg (r : Register) (pred : BlockId) (h : KeepsBinding P) :
    Keeps P (bindArg r pred) := by
  intro s hs
  rw [bindArg_eq]
  exact h s.insn.bindings.length r pred s hs (Nat.le_refl _)

/-- Replacing keeps what removing and binding keep: it is the one after the other, or nothing. -/
theorem keeps_replaceArg (old : OperandId) (r : Register) (hremove : ∀ k, Keeps P (removeArgAt k))
    (hinsert : KeepsBinding P) : Keeps P (replaceArg old r) := by
  intro s hs
  rw [replaceArg_apply]
  cases hk : s.insn.argIndex old with
  | none => exact hs
  | some k =>
    simp only
    cases s.insn.blockAt? k with
    | none => exact hs
    | some pred =>
      simp only
      cases replacement old r s with
      | error e => exact hs
      | ok r' =>
        simp only
        have hs₁ := hremove k s hs
        rcases argIndex_eq_some hk with ⟨b, hb, -⟩
        rcases finalState_removeArgAt hb with ⟨t, heq, -⟩
        cases hr : removeArgAt k s with
        | error e s₁ =>
          rw [bind_of_error hr]
          rw [hr] at hs₁
          exact hs₁
        | ok a s₁ =>
          rw [hr] at hs₁ heq
          change s₁ = _ at heq
          have hle : k ≤ s₁.insn.bindings.length := by
            rw [heq]
            exact le_length_eraseIdx hb
          have hbound := hinsert k r' pred s₁ hs₁ hle
          rw [bind_of_ok hr]
          cases hi : atomically (bindingInserted k r' pred) s₁ with
          | error e s₂ =>
            rw [bind_of_error hi]
            rw [hi] at hbound
            exact hbound
          | ok u s₂ =>
            rw [bind_of_ok hi]
            rw [hi] at hbound
            exact hbound

/-- Removing from the front as often as there are bindings leaves none, if it succeeds. -/
theorem insn_unbindAll {s s' : Linked Phi} {l : List Register} (h : unbindAll s = .ok l s') :
    s'.insn = { s.insn with bindings := [] } := by
  -- the loop counts bindings and does not look at them, so the statement is about any list
  have hloop : ∀ (bs : List Binding) (s : Linked Phi) (l : List Register),
      bs.mapM (fun _ => removeArgAt 0) s = .ok l s' →
      s'.insn = { s.insn with bindings := s.insn.bindings.drop bs.length } := by
    intro bs
    induction bs with
    | nil =>
      intro s l hl
      cases hl
      rfl
    | cons b rest ih =>
      intro s l hl
      rw [List.mapM_cons] at hl
      cases hr : removeArgAt 0 s with
      | error e s₁ =>
        rw [bind_of_error hr] at hl
        cases hl
      | ok a s₁ =>
        rw [bind_of_ok hr] at hl
        have hs₁ : s₁.insn = { s.insn with bindings := s.insn.bindings.drop 1 } := by
          cases hold : s.insn.bindings[0]? with
          | none =>
            rw [removeArgAt_of_none hold] at hr
            cases hr
          | some old =>
            rcases finalState_removeArgAt hold with ⟨t, heq, -⟩
            rw [hr] at heq
            change s₁ = _ at heq
            rw [heq, List.eraseIdx_zero, List.drop_one]
        cases hrest : rest.mapM (fun _ => removeArgAt 0) s₁ with
        | error e s₂ =>
          rw [bind_of_error hrest] at hl
          cases hl
        | ok l' s₂ =>
          rw [bind_of_ok hrest] at hl
          cases hl
          rw [ih s₁ l' hrest, hs₁, List.drop_drop, List.length_cons, Nat.add_comm]
  have hnil := hloop s.insn.bindings s l h
  rwa [List.drop_length] at hnil

end Phi

/-! ## Instructions that come and go -/

namespace Method

/-- The method with one more instruction. -/
def grown (m : Method) (i : Insn) : Method := { m with slots := m.slots ++ [some i] }

/-- The method without the instruction at a position. -/
def without (m : Method) (id : InsnId) : Method := { m with slots := m.slots.set id.index none }

/-- The new instruction stands at the end, where there was none. -/
theorem insn?_grown (m : Method) (i : Insn) (k : InsnId) :
    (m.grown i).insn? k = if k = ⟨m.slots.length⟩ then some i else m.insn? k := by
  obtain ⟨k⟩ := k
  simp only [insn?, grown, InsnId.mk.injEq]
  by_cases hk : k = m.slots.length
  · simp [hk]
  · rw [if_neg hk]
    by_cases hlt : k < m.slots.length
    · rw [List.getElem?_append_left hlt]
    · have hgt : m.slots.length < k := Nat.lt_of_le_of_ne (Nat.le_of_not_lt hlt) (Ne.symm hk)
      rw [List.getElem?_eq_none (Nat.le_of_lt hgt), List.getElem?_eq_none]
      rw [List.length_append]
      exact hgt

theorem insn?_length (m : Method) : m.insn? ⟨m.slots.length⟩ = none := by
  simp [insn?]

theorem insn?_without (m : Method) (id k : InsnId) :
    (m.without id).insn? k = if k = id then none else m.insn? k := by
  obtain ⟨n⟩ := id
  obtain ⟨k⟩ := k
  simp only [insn?, without, List.getElem?_set, InsnId.mk.injEq, eq_comm (a := k)]
  by_cases hk : n = k
  · rw [if_pos hk, if_pos hk]
    by_cases hlt : n < m.slots.length
    · rw [if_pos hlt]
      rfl
    · rw [if_neg hlt]
      rfl
  · rw [if_neg hk, if_neg hk]

/-- Taking a phi out leaves the table without the definition by its result, if
the table knows it. -/
theorem finalState_takePhi {m : Method} {id : InsnId} {p : Phi} (h : m.insn? id = some (.phi p)) :
    ∃ t, finalState (takePhi id m) = { m.without id with vars := t } ∧
      (¬ m.vars.Knows p.result.var ∧ t = m.vars ∨
        m.vars.Knows p.result.var ∧ t = m.vars.onVar p.result.var (·.undefine p.result.id)) := by
  simp only [takePhi, phi_eq_ok.2 h]
  cases hr : m.vars.removeDefiner p.result with
  | ok t => exact ⟨t, rfl, Or.inr (VarTable.removeDefiner_eq_ok.1 hr)⟩
  | error e =>
    refine ⟨m.vars, rfl, Or.inl ⟨fun hknown => ?_, rfl⟩⟩
    have hok := VarTable.removeDefiner_eq_ok.2 ⟨hknown, rfl⟩
    rw [hr] at hok
    cases hok

/-- After a phi was unbound without a fault, it stands where it stood and binds nothing. -/
theorem insn?_unbindInsn {m m' : Method} {id : InsnId} {p : Phi} (h : m.insn? id = some (.phi p))
    (hok : unbindInsn id m = .ok () m') : m'.insn? id = some (.phi { p with bindings := [] }) := by
  have hfinal : m' = finalState (editInsn id (discard Insn.unbindAll) m) := by
    rw [← finalState_verified]
    exact congrArg finalState hok.symm
  have hverdict : verdict (editInsn id (discard Insn.unbindAll) m) = .ok () := by
    rw [unbindInsn, verified_apply] at hok
    cases hr : editInsn id (discard Insn.unbindAll) m with
    | ok u s => rfl
    | error e s =>
      rw [hr] at hok
      cases hok
  -- the method holds what the edit of the phi left, and that edit has succeeded
  rw [verdict_editInsn h, discard_eq, verdict_map, Insn.unbindAll, Insn.verdict_edit_phi,
    verdict_map] at hverdict
  rw [hfinal, finalState_editInsn h, insn?_putInsn_self h, discard_eq, finalState_map,
    Insn.unbindAll, Insn.finalState_edit_phi, finalState_map]
  cases hr : Phi.unbindAll ⟨p, m.vars⟩ with
  | ok l s => exact congrArg (fun q => some (Insn.phi q)) (Phi.insn_unbindAll hr)
  | error e s =>
    rw [hr] at hverdict
    cases hverdict

/-! ## What an invariant owes -/

/-- The steps by which something goes. A removed phi has lost its bindings before. -/
structure KeptByRemovals (P : Method → Prop) : Prop where
  removeArg : ∀ id k, KeepsNode P id (Node.removeArgAt k)
  removeBinding : ∀ id k, KeepsPhi P id (Phi.removeArgAt k)
  takePhi : ∀ id m p, P m → m.insn? id = some (.phi p) → p.bindings = [] →
    P (finalState (takePhi id m))

namespace KeptByRemovals

variable {P : Method → Prop} (h : KeptByRemovals P)

include h

theorem keepsPhi_removeArg (id : InsnId) (a : OperandId) : KeepsPhi P id (Phi.removeArg a) := by
  rw [keepsPhi_iff]
  intro m i hi
  apply Phi.keeps_removeArg
  intro k
  exact keepsPhi_iff.1 (h.removeBinding id k) m i hi

theorem keeps_removePhiArg (phi : InsnId) (r : Register) : Keeps P (removePhiArg phi r) :=
  keeps_verified <| keeps_editPhi <| h.keepsPhi_removeArg phi r.id

theorem keeps_removePhiArgAt (phi : InsnId) (k : Nat) : Keeps P (removePhiArgAt phi k) :=
  keeps_verified <| keeps_editPhi <| h.removeBinding phi k

theorem keeps_removeArg (id : InsnId) (a : Operand) : Keeps P (Method.removeArg id a) := by
  apply keeps_verified
  apply keeps_editInsn_edit
  · rw [keepsNode_iff]
    intro m i hi
    apply Node.keeps_removeArg
    intro k
    exact keepsNode_iff.1 (h.removeArg id k) m i hi
  · cases a with
    | register r => exact h.keepsPhi_removeArg id r.id
    | literal l => exact keepsPhi_iff.2 fun _ _ _ => keeps_pure false

theorem keeps_unbindInsn (id : InsnId) : Keeps P (unbindInsn id) := by
  apply keeps_verified
  apply keeps_editInsn
  intro m i hm hi
  rw [discard_eq, finalState_map]
  cases i with
  | node n =>
    rw [Insn.unbindAll, Insn.finalState_edit_node]
    have hall : KeepsNode P id Node.unbindAll := by
      rw [keepsNode_iff]
      intro m i hi
      apply Node.keeps_unbindAll
      intro k
      exact keepsNode_iff.1 (h.removeArg id k) m i hi
    exact hall m n hm hi
  | phi p =>
    rw [Insn.unbindAll, Insn.finalState_edit_phi, finalState_map]
    have hall : KeepsPhi P id Phi.unbindAll := by
      rw [keepsPhi_iff]
      intro m i hi
      apply Phi.keeps_unbindAll
      intro k
      exact keepsPhi_iff.1 (h.removeBinding id k) m i hi
    exact hall m p hm hi

/-- A phi is taken out only after it was unbound without a fault. -/
theorem keeps_removePhi (id : InsnId) : Keeps P (removePhi id) := by
  intro m hm
  cases hp : m.phi id with
  | error e =>
    have hask : removePhi id m = .error e m := bind_of_error (ask_of_error hp)
    rw [hask]
    exact hm
  | ok p =>
    have hask : removePhi id m = (unbindInsn id >>= fun _ => Method.takePhi id) m :=
      bind_of_ok (ask_of_ok hp)
    have hunbound := h.keeps_unbindInsn id m hm
    cases hr : unbindInsn id m with
    | error e m₁ =>
      rw [hask, bind_of_error hr]
      rw [hr] at hunbound
      exact hunbound
    | ok u m₁ =>
      rw [hask, bind_of_ok hr]
      rw [hr] at hunbound
      exact h.takePhi id m₁ _ hunbound (insn?_unbindInsn (phi_eq_ok.1 hp) hr) rfl

theorem keeps_removePhis (ids : List InsnId) : Keeps P (removePhis ids) :=
  keeps_bind (keeps_mapM ids.eraseDups h.keeps_removePhi) fun l => keeps_pure l.length

end KeptByRemovals

/-- The steps that an invariant of methods has to survive. A removed phi has lost
its bindings before. -/
structure KeptBySteps (P : Method → Prop) : Prop where
  newVar : ∀ reg version, Keeps P (newVar reg version)
  newNode : ∀ op, Keeps P (newNode op)
  newPhi : ∀ reg result, Keeps P (newPhi reg result)
  addArg : ∀ id a, KeepsNode P id (atomically (Node.argAdded a))
  removeArg : ∀ id k, KeepsNode P id (Node.removeArgAt k)
  insertBinding : ∀ id m p k r pred, P m → m.insn? id = some (.phi p) → k ≤ p.bindings.length →
    P (m.putInsn id (finalState (atomically (Phi.bindingInserted k r pred) ⟨p, m.vars⟩)).ofPhi)
  removeBinding : ∀ id k, KeepsPhi P id (Phi.removeArgAt k)
  attachVar : ∀ id k v, Keeps P (editInsn id (atomically (Insn.varAttached k v)))
  takePhi : ∀ id m p, P m → m.insn? id = some (.phi p) → p.bindings = [] →
    P (finalState (takePhi id m))

namespace KeptBySteps

variable {P : Method → Prop} (h : KeptBySteps P)

include h

theorem removals : KeptByRemovals P where
  removeArg := h.removeArg
  removeBinding := h.removeBinding
  takePhi := h.takePhi

theorem keepsBinding {m : Method} {i : Insn} {id : InsnId} (hi : m.insn? id = some i) :
    Phi.KeepsBinding fun s => P (m.putInsn id s.ofPhi) := by
  intro k r pred s hs hk
  have hbound := h.insertBinding id _ s.insn k r pred hs (insn?_putInsn_self hi _) hk
  rwa [putInsn_putInsn] at hbound

theorem keeps_bindPhi (phi : InsnId) (pred : BlockId) (id : OperandId) :
    Keeps P (bindPhi phi pred id) := by
  apply keeps_verified
  apply keeps_editPhi
  rw [keepsPhi_iff]
  intro m i hi
  exact Phi.keeps_bind id pred (h.keepsBinding hi)

theorem keeps_bindPhiArg (phi : InsnId) (r : Register) (pred : BlockId) :
    Keeps P (bindPhiArg phi r pred) := by
  apply keeps_verified
  apply keeps_editPhi
  rw [keepsPhi_iff]
  intro m i hi
  exact Phi.keeps_bindArg r pred (h.keepsBinding hi)

theorem keeps_addArg (id : InsnId) (a : Operand) : Keeps P (Method.addArg id a) := by
  rw [Method.addArg, Insn.addArg, Node.addArg_eq]
  exact keeps_verified (keeps_editInsn_edit (h.addArg id a) (keepsPhi_ask _))

theorem keepsPhi_replaceArg (id : InsnId) (old new : Operand) :
    KeepsPhi P id (match old, new with
      | .register r, .register s => Phi.replaceArg r.id s
      | _, _ => pure false) := by
  refine keepsPhi_iff.2 fun m i hi => ?_
  cases old with
  | literal l => exact keeps_pure false
  | register r =>
    cases new with
    | literal l => exact keeps_pure false
    | register s =>
      exact Phi.keeps_replaceArg r.id s (fun k => keepsPhi_iff.1 (h.removeBinding id k) m i hi)
        (h.keepsBinding hi)

/-- Replacing an argument of a phi is kept; on a node it is up to the invariant. -/
theorem replaceArg_cases {m : Method} (hm : P m) {id : InsnId} {old new : Operand}
    (hnode : ∀ n, m.insn? id = some (.node n) →
      P (m.putInsn id (finalState (Node.replaceArg old.id new ⟨n, m.vars⟩)).ofNode)) :
    P (finalState (Method.replaceArg id old new m)) := by
  rw [Method.replaceArg, finalState_verified]
  apply editInsn_cases hm
  intro i hi
  unfold Insn.replaceArg
  cases i with
  | node n =>
    rw [Insn.finalState_edit_node]
    exact hnode n hi
  | phi p =>
    rw [Insn.finalState_edit_phi]
    exact h.keepsPhi_replaceArg id old new m p hm hi

theorem keeps_attachVar (id : InsnId) (k : Nat) (v : VarId) : Keeps P (Method.attachVar id k v) := by
  rw [Method.attachVar, Insn.attachVar_eq]
  exact keeps_verified (h.attachVar id k v)

end KeptBySteps

end Method

end SsaForm
