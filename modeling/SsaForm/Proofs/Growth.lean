import SsaForm.Proofs.Atomicity

/-!
# SsaForm.Proofs.Growth — growing and naming, all or nothing

The calls by which an instruction takes an operand or by which a result or an argument is given its
variable change nothing when they fail, in any method whatever: the instructions may name variables
that the table lacks, and its records may say anything. The edits themselves are atomic by the
equations of `Proofs.Outcomes`; the rules here carry that through the operators which stand around an
edit, up to the call.

* `atomicAt_edit`, `atomicAt_editInsn` and `atomicAt_verified` are those rules.
* `growsOrNames_atomic` is the statement about the calls. Binding a fresh argument consumes the
  identity that it draws, other failed calls of the kind consume nothing.
-/

namespace SsaForm

open Edit

/-! ## The edits -/

namespace Edit

variable {σ : Type}

theorem atomicAt_atomically (f : σ → Except Fault σ) (s : σ) : AtomicAt (atomically f) s := by
  intro e s' h
  have hfinal := finalState_atomically_of_error (f := f) (s := s) (e := e)
  rw [h] at hfinal
  exact hfinal rfl

theorem atomicAt_ask {α : Type} (f : σ → Except Fault α) (s : σ) : AtomicAt (ask f) s := by
  intro e s' h
  have hfinal := finalState_ask f s
  rwa [h] at hfinal

end Edit

theorem Phi.atomicAt_bind (id : OperandId) (pred : BlockId) (s : Linked Phi) :
    AtomicAt (Phi.bind id pred) s := by
  cases h : Phi.argBound (s.insn.freshArg id) pred s with
  | ok s' => exact atomicAt_of_ok (Phi.bind_of_argBound h)
  | error e => exact (atomicAt_of_error (Phi.bind_of_argBound_error h)).2 rfl

namespace Insn

/-- An edit of either kind of instruction that is atomic on each. -/
theorem atomicAt_edit {α : Type} {onNode : Edit (Linked Node) α} {onPhi : Edit (Linked Phi) α}
    (hnode : ∀ s, AtomicAt onNode s) (hphi : ∀ s, AtomicAt onPhi s) (s : Linked Insn) :
    AtomicAt (edit onNode onPhi) s := by
  obtain ⟨i, t⟩ := s
  cases i with
  | node n => exact atomicAt_edit_node.2 (hnode ⟨n, t⟩)
  | phi p => exact atomicAt_edit_phi.2 (hphi ⟨p, t⟩)

theorem atomicAt_onPhi {α : Type} {act : Edit (Linked Phi) α} (h : ∀ s, AtomicAt act s) (id : InsnId)
    (s : Linked Insn) : AtomicAt (onPhi id act) s :=
  atomicAt_edit (atomicAt_ask _) h s

theorem atomicAt_addArg (a : Operand) (s : Linked Insn) : AtomicAt (addArg a) s := by
  rw [addArg, Node.addArg_eq]
  exact atomicAt_edit (atomicAt_atomically _) (atomicAt_ask _) s

theorem atomicAt_setResult (r : Register) (s : Linked Insn) : AtomicAt (setResult r) s := by
  rw [setResult, Node.setResult_eq]
  exact atomicAt_edit (atomicAt_atomically _) (atomicAt_ask _) s

end Insn

/-! ## The mutators -/

namespace Method

variable {α : Type} {m : Method} {id : InsnId}

theorem atomicAt_editInsn {act : Edit (Linked Insn) α} (h : ∀ s, AtomicAt act s) (m : Method) :
    AtomicAt (editInsn id act) m := by
  cases hi : m.insn? id with
  | none => exact (atomicAt_of_error (editInsn_of_none hi)).2 rfl
  | some i =>
    cases hact : act ⟨i, m.vars⟩ with
    | ok a s => exact atomicAt_of_ok (editInsn_of_ok hi hact)
    | error e s =>
      have hs : s = ⟨i, m.vars⟩ := h ⟨i, m.vars⟩ e s hact
      exact (atomicAt_of_error (editInsn_of_error hi (hs ▸ hact))).2 rfl

/-- A method that does not check itself does not come to do so by the edit of an instruction. -/
theorem verified_editInsn (hoff : m.checks.afterMutation = false) (act : Edit (Linked Insn) α) :
    verified (editInsn id act) m = editInsn id act m := by
  refine verified_of_unchecked (editInsn_cases (P := fun s => s.checks.afterMutation = false) hoff ?_)
  intro i _
  exact hoff

theorem atomicAt_verified (hoff : m.checks.afterMutation = false) {act : Edit (Linked Insn) α}
    (h : ∀ s, AtomicAt act s) : AtomicAt (verified (editInsn id act)) m :=
  (atomicAt_congr (verified_editInsn hoff act)).2 (atomicAt_editInsn h m)

end Method

/-! ## The calls -/

namespace Mutation

/-- The calls by which an instruction takes one more operand, or by which its result is set or its
result or an argument is given a variable. -/
def GrowsOrNames : Mutation → Prop
  | .bindPhi _ _ | .bindPhiArg _ _ _ | .addArg _ _ | .setResult _ _ | .assignResult _ _
  | .attachVar _ _ _ => True
  | _ => False

/-- The supply that a call leaves which fails in `m`. -/
def supplyOnFailure (m : Method) (s : Supply) : Mutation → Supply
  | .bindPhi phi _ => if (m.phi phi).isOk then s.draw.2 else s
  | _ => s

/-- Where the edit of the method is atomic, so is the edit beside a supply. -/
theorem atomicAt_beside {α β : Type} {f : α → β} {act : Edit Method α} {m : Method} {s : Supply}
    (h : AtomicAt act m) : AtomicAt (f <$> beside act) (m, s) := by
  refine atomicAt_map.2 fun e s' hfail => ?_
  cases hact : act m with
  | ok a m' => simp [beside, zoom, hact] at hfail
  | error e' m' =>
    simp only [beside, zoom, hact, EStateM.Result.error.injEq] at hfail
    rw [← hfail.2, h e' m' hact]

/-- Binding a fresh argument draws its identity once the phi is found. -/
theorem bindPhi_of_error {m : Method} (hoff : m.checks.afterMutation = false) {phi : InsnId}
    {pred : BlockId} {s : Supply} {e : Fault} {s' : Method × Supply}
    (h : perform (.bindPhi phi pred) (m, s) = .error e s') :
    s' = (m, supplyOnFailure m s (.bindPhi phi pred)) := by
  cases hp : m.phi phi with
  | error e' =>
    have hrun : perform (.bindPhi phi pred) (m, s) = .error e' (m, s) :=
      bind_of_error (ask_of_error hp)
    rw [hrun] at h
    cases h
    simp [supplyOnFailure, hp, Except.isOk, Except.toBool]
  | ok p =>
    have hrun : perform (.bindPhi phi pred) (m, s) = _ := bind_of_ok (ask_of_ok hp)
    have hatomic : AtomicAt (Method.bindPhi phi pred s.draw.1) m :=
      Method.atomicAt_verified hoff (Insn.atomicAt_onPhi (Phi.atomicAt_bind s.draw.1 pred) phi)
    have hbeside : AtomicAt ((Answer.operand ∘ Operand.register) <$>
        beside (Method.bindPhi phi pred s.draw.1)) (m, s.draw.2) := atomicAt_beside hatomic
    rw [hrun] at h
    rw [hbeside e s' h]
    simp [supplyOnFailure, hp, Except.isOk, Except.toBool]

/-- **Growing and naming, all or nothing.** In a method that does not check itself, in whatever state
its table is, a call of the kind that fails leaves the method as it was. A fresh argument that could
not be bound has drawn its identity; the other calls leave the supply as it was. -/
theorem growsOrNames_atomic {m : Method} (hoff : m.checks.afterMutation = false) {c : Mutation}
    (hc : c.GrowsOrNames) {s : Supply} {e : Fault} (h : verdict (c.perform (m, s)) = .error e) :
    finalState (c.perform (m, s)) = (m, c.supplyOnFailure m s) := by
  rw [verdict_eq_error] at h
  generalize finalState (c.perform (m, s)) = s' at h
  cases c with
  | bindPhi phi pred => exact bindPhi_of_error hoff h
  | bindPhiArg phi r pred =>
    have hatomic : AtomicAt (Method.bindPhiArg phi r pred) m := by
      rw [Method.bindPhiArg, Phi.bindArg_eq]
      exact Method.atomicAt_verified hoff (Insn.atomicAt_onPhi (atomicAt_atomically _) phi)
    exact atomicAt_beside (f := fun _ => Answer.done) hatomic e s' h
  | addArg id a =>
    have hatomic : AtomicAt (Method.addArg id a) m :=
      Method.atomicAt_verified hoff (Insn.atomicAt_addArg a)
    exact atomicAt_beside (f := fun _ => Answer.done) hatomic e s' h
  | setResult id r =>
    have hatomic : AtomicAt (Method.setResult id r) m :=
      Method.atomicAt_verified hoff (Insn.atomicAt_setResult r)
    exact atomicAt_beside (f := fun _ => Answer.done) hatomic e s' h
  | assignResult id v =>
    have hatomic : AtomicAt (Method.assignResult id v) m := by
      rw [Method.assignResult, Insn.assignResult_eq]
      exact Method.atomicAt_verified hoff (atomicAt_atomically _)
    exact atomicAt_beside (f := fun _ => Answer.done) hatomic e s' h
  | attachVar id k v =>
    have hatomic : AtomicAt (Method.attachVar id k v) m := by
      rw [Method.attachVar, Insn.attachVar_eq]
      exact Method.atomicAt_verified hoff (atomicAt_atomically _)
    exact atomicAt_beside (f := fun _ => Answer.done) hatomic e s' h
  | _ => exact absurd hc id

/-- A phi binds an argument whose variable is not in the table. The argument cannot come to read
another variable, and a second argument from the same block cannot be bound; the method stays. -/
theorem growsOrNames_atomic_missing_variable :
    let r : Register := { id := ⟨1⟩, reg := 0, var := some ⟨3⟩, owner := some ⟨0⟩ }
    let p : Phi := { id := ⟨0⟩, result := { id := ⟨0⟩, reg := 0 }, bindings := [⟨r, ⟨7⟩⟩] }
    let m : Method := { slots := [some (.phi p)], vars := ⟨[{ id := ⟨0⟩, reg := 0, version := 0 }]⟩ }
    let attach : Mutation := .attachVar ⟨0⟩ 0 ⟨0⟩
    let bind : Mutation := .bindPhi ⟨0⟩ ⟨7⟩
    verdict (attach.perform (m, ⟨2⟩)) = .error (.unknownVariable ⟨3⟩) ∧
      finalState (attach.perform (m, ⟨2⟩)) = (m, ⟨2⟩) ∧
      verdict (bind.perform (m, ⟨2⟩)) = .error (.duplicatePredecessor ⟨7⟩ ⟨0⟩) ∧
      finalState (bind.perform (m, ⟨2⟩)) = (m, ⟨3⟩) := by
  intro r p m attach bind
  have hattach : verdict (attach.perform (m, ⟨2⟩)) = .error (.unknownVariable ⟨3⟩) := rfl
  have hbind : verdict (bind.perform (m, ⟨2⟩)) = .error (.duplicatePredecessor ⟨7⟩ ⟨0⟩) := rfl
  exact ⟨hattach, growsOrNames_atomic (c := attach) rfl trivial hattach, hbind,
    growsOrNames_atomic (c := bind) rfl trivial hbind⟩

end Mutation

end SsaForm
