import SsaForm.Proofs.Histories
import SsaForm.Proofs.TableEdits

/-!
# SsaForm.Proofs.Faults — which faults can occur

A phi is asked for the predecessor of an argument that it has just found, so the fault that an
argument has none never occurs. This module proves it of every operation, in any state of
instructions and table: `FailsIn F x` says that `x`, if it fails, does so with a fault in `F`, with one
rule for each operator, and `Fault.Occurs` are the faults that are left. The rules for the records and
for the check serve any `F` that has the faults which these report.
-/

namespace SsaForm

open Edit

/-- Any fault but that of an argument without a predecessor. -/
def Fault.Occurs : Fault → Prop
  | .unknownPredecessor _ _ => False
  | _ => True

theorem Fault.OfRecords.occurs {e : Fault} (h : e.OfRecords) : e.Occurs := by
  cases e with
  | unknownPredecessor => exact h
  | _ => trivial

/-! ## Rules -/

/-- The computation fails, if at all, with a fault in `F`. -/
def FailsIn {α : Type} (F : Fault → Prop) (x : Except Fault α) : Prop := ∀ e, x = .error e → F e

/-- The edit fails, if at all, with a fault in `F`, whatever state it starts from. -/
def Edit.FailsIn {σ α : Type} (F : Fault → Prop) (act : Edit σ α) : Prop :=
  ∀ s, SsaForm.FailsIn F (verdict (act s))

section Computations

variable {α β : Type} {F : Fault → Prop} {x : Except Fault α}

theorem failsIn_ok (a : α) : FailsIn F (.ok a) := fun _ h => nomatch h

theorem failsIn_error {e : Fault} (h : F e) : FailsIn F (.error e : Except Fault α) := by
  intro _ he
  cases he
  exact h

theorem failsIn_bind {f : α → Except Fault β} (hx : FailsIn F x) (hf : ∀ a, FailsIn F (f a)) :
    FailsIn F (x >>= f) := by
  cases x with
  | ok a => exact hf a
  | error e => exact failsIn_error (hx e rfl)

theorem failsIn_map {f : α → β} (hx : FailsIn F x) : FailsIn F (x.map f) := by
  cases x with
  | ok a => exact failsIn_ok (f a)
  | error e => exact failsIn_error (hx e rfl)

theorem failsIn_ite {c : Prop} [Decidable c] {y : Except Fault α} (hx : FailsIn F x)
    (hy : FailsIn F y) : FailsIn F (if c then x else y) := by
  split
  · exact hx
  · exact hy

theorem failsIn_forM {f : β → Except Fault PUnit} (l : List β) (hf : ∀ b, FailsIn F (f b)) :
    FailsIn F (l.forM f) := by
  induction l with
  | nil => exact failsIn_ok ()
  | cons b rest ih => exact failsIn_bind (hf b) fun _ => ih

end Computations

namespace Edit

variable {σ τ α β : Type} {F : Fault → Prop}

theorem failsIn_pure (a : α) : FailsIn F (pure a : Edit σ α) := fun _ => failsIn_ok a

theorem failsIn_ask {f : σ → Except Fault α} (hf : ∀ s, SsaForm.FailsIn F (f s)) :
    FailsIn F (ask f) := by
  intro s
  have hs := hf s
  unfold ask
  cases h : f s with
  | ok a => exact failsIn_ok a
  | error e => exact failsIn_error (hs e h)

theorem failsIn_atomically {f : σ → Except Fault σ} (hf : ∀ s, SsaForm.FailsIn F (f s)) :
    FailsIn F (atomically f) := by
  intro s
  have hs := hf s
  unfold atomically
  cases h : f s with
  | ok s' => exact failsIn_ok ()
  | error e => exact failsIn_error (hs e h)

theorem failsIn_bind {act : Edit σ α} {k : α → Edit σ β} (h : FailsIn F act)
    (hk : ∀ a, FailsIn F (k a)) : FailsIn F (act >>= k) := by
  intro s
  have hs := h s
  rw [bind_apply]
  cases hr : act s with
  | ok a s' => exact hk a s'
  | error e s' =>
    rw [hr] at hs
    exact failsIn_error (hs e rfl)

/-- An edit that starts by looking at the state may use what it sees. -/
theorem failsIn_get_bind {k : σ → Edit σ α} (hk : ∀ s, SsaForm.FailsIn F (verdict (k s s))) :
    FailsIn F (get >>= k) := fun s => hk s

theorem failsIn_map {f : α → β} {act : Edit σ α} (h : FailsIn F act) : FailsIn F (f <$> act) := by
  intro s
  rw [verdict_map]
  exact SsaForm.failsIn_map (h s)

theorem failsIn_mapM {f : α → Edit σ β} (l : List α) (hf : ∀ a, FailsIn F (f a)) :
    FailsIn F (l.mapM f) := by
  induction l with
  | nil => exact failsIn_pure []
  | cons a rest ih =>
    rw [List.mapM_cons]
    exact failsIn_bind (hf a) fun b => failsIn_bind ih fun bs => failsIn_pure (b :: bs)

end Edit

/-! ## Records -/

theorem Fault.occurs_unknownVariable (v : VarId) : (Fault.unknownVariable v).Occurs := trivial

open Fault (occurs_unknownVariable)

/-! A record is read or changed unless its variable is missing. -/

namespace VarTable

variable {t : VarTable} {F : Fault → Prop} (hunknown : ∀ v, F (.unknownVariable v))

include hunknown

theorem failsIn_find (v : VarId) : FailsIn F (t.find v) := by
  intro e h
  rcases find_eq_error.1 h with ⟨-, rfl⟩
  exact hunknown v

theorem failsIn_update (v : VarId) (f : Variable → Variable) : FailsIn F (t.update v f) := by
  intro e h
  rcases update_eq_error.1 h with ⟨-, rfl⟩
  exact hunknown v

theorem failsIn_ensureKnown (v : Option VarId) : FailsIn F (t.ensureKnown v) := by
  cases v with
  | none => exact failsIn_ok ()
  | some v => exact failsIn_ite (failsIn_ok ()) (failsIn_error (hunknown v))

variable (r : Register)

theorem failsIn_addReader : FailsIn F (t.addReader r) := by
  rw [addReader_eq]
  exact failsIn_map (failsIn_ensureKnown hunknown r.var)

theorem failsIn_removeReader : FailsIn F (t.removeReader r) := by
  rw [removeReader_eq]
  exact failsIn_map (failsIn_ensureKnown hunknown r.var)

theorem failsIn_addConsumerFor (p : InsnId) : FailsIn F (t.addConsumerFor r p) := by
  rw [addConsumerFor_eq]
  exact failsIn_map (failsIn_ensureKnown hunknown r.var)

theorem failsIn_refreshConsumersFor : FailsIn F (t.refreshConsumersFor r) := by
  rw [refreshConsumersFor_eq]
  exact failsIn_map (failsIn_ensureKnown hunknown r.var)

theorem failsIn_addDefiner : FailsIn F (t.addDefiner r) := by
  rw [addDefiner_eq]
  exact failsIn_map (failsIn_ensureKnown hunknown r.var)

theorem failsIn_removeDefiner : FailsIn F (t.removeDefiner r) := by
  rw [removeDefiner_eq]
  exact failsIn_map (failsIn_ensureKnown hunknown r.var)

end VarTable

theorem TableEdit.occurs_perform (e : TableEdit) (t : VarTable) :
    FailsIn Fault.Occurs (e.perform t) := by
  intro f hf
  rcases perform_eq_error hf with ⟨v, rfl⟩
  exact Fault.occurs_unknownVariable v

theorem Register.occurs_ensureDetached (r : Register) (t : VarTable) :
    FailsIn Fault.Occurs (r.ensureDetached t) :=
  fun _ h => (ensureDetached_error h).occurs

theorem Register.occurs_attached (r : Register) (i : InsnId) (t : VarTable) :
    FailsIn Fault.Occurs (r.attached i t) :=
  failsIn_bind (r.occurs_ensureDetached t) fun _ =>
    VarTable.failsIn_addReader occurs_unknownVariable _

theorem Operand.occurs_attached (a : Operand) (i : InsnId) (t : VarTable) :
    FailsIn Fault.Occurs (a.attached i t) :=
  fun _ h => (attached_error h).occurs

theorem Operand.failsIn_release {F : Fault → Prop} (hunknown : ∀ v, F (.unknownVariable v))
    (a : Operand) (t : VarTable) : FailsIn F (a.release t) := by
  cases a with
  | register r => exact VarTable.failsIn_removeReader hunknown r
  | literal l => exact failsIn_ok t

/-! ## Instructions -/

namespace Node

theorem occurs_resultSet (r : Register) (s : Linked Node) :
    FailsIn Fault.Occurs (resultSet r s) := by
  have hset : ∀ t : VarTable, FailsIn Fault.Occurs (do
      let vars ← t.addDefiner (r.ownedBy s.insn.id)
      return { insn := { s.insn with result := some (r.ownedBy s.insn.id) }, vars := vars } :
        Except Fault (Linked Node)) :=
    fun t => failsIn_bind (VarTable.failsIn_addDefiner occurs_unknownVariable _) fun _ =>
      failsIn_ok _
  refine failsIn_bind (VarTable.failsIn_ensureKnown occurs_unknownVariable _) fun _ => ?_
  cases s.insn.result with
  | none => exact hset s.vars
  | some old => exact failsIn_bind (VarTable.failsIn_removeDefiner occurs_unknownVariable old) hset

theorem occurs_argAdded (a : Operand) (s : Linked Node) : FailsIn Fault.Occurs (argAdded a s) := by
  refine failsIn_ite (failsIn_error trivial) ?_
  exact failsIn_bind (a.occurs_attached s.insn.id s.vars) fun _ => failsIn_ok _

theorem occurs_replacement (k : Nat) (a : Operand) (s : Linked Node) :
    FailsIn Fault.Occurs (replacement k a s) := by
  unfold replacement
  cases s.insn.argIndex a.id with
  | some i => exact failsIn_ite (failsIn_ok _) (failsIn_error trivial)
  | none =>
    cases a with
    | literal l => exact failsIn_ok _
    | register r => exact failsIn_map (r.occurs_ensureDetached s.vars)

theorem failsIn_vacate {F : Fault → Prop} (hunknown : ∀ v, F (.unknownVariable v)) {k : Nat}
    (hindex : F (.indexOutOfRange k)) : Edit.FailsIn F (vacate k) := by
  intro s
  unfold vacate
  cases s.insn.args[k]? with
  | none => exact failsIn_error hindex
  | some old =>
    have hrelease := old.failsIn_release hunknown s.vars
    simp only
    cases h : old.release s.vars with
    | ok t => exact failsIn_ok _
    | error e => exact failsIn_error (hrelease e h)

theorem occurs_occupy (k : Nat) (a : Operand) : Edit.FailsIn Fault.Occurs (occupy k a) := by
  rw [occupy_eq]
  exact failsIn_atomically fun s => failsIn_bind (a.occurs_attached _ _) fun _ => failsIn_ok _

theorem occurs_setArg (k : Nat) (a : Operand) : Edit.FailsIn Fault.Occurs (setArg k a) :=
  Edit.failsIn_bind (failsIn_ask (occurs_replacement k a)) fun b =>
    Edit.failsIn_bind (failsIn_vacate occurs_unknownVariable trivial) fun old =>
      Edit.failsIn_bind (occurs_occupy k b) fun _ => failsIn_pure old

theorem occurs_removeArgAt (k : Nat) : Edit.FailsIn Fault.Occurs (removeArgAt k) := by
  intro s
  unfold removeArgAt
  cases s.insn.args[k]? with
  | none => exact failsIn_error trivial
  | some old =>
    have hrelease := old.failsIn_release occurs_unknownVariable s.vars
    simp only
    cases h : old.release s.vars with
    | ok t => exact failsIn_ok _
    | error e => exact failsIn_error (hrelease e h)

theorem occurs_removeArg (a : OperandId) : Edit.FailsIn Fault.Occurs (removeArg a) := by
  refine failsIn_get_bind fun s => ?_
  cases s.insn.argIndex a with
  | none => exact failsIn_ok _
  | some k => exact Edit.failsIn_bind (occurs_removeArgAt k) (fun _ => failsIn_pure true) s

theorem occurs_replaceArg (old : OperandId) (a : Operand) :
    Edit.FailsIn Fault.Occurs (replaceArg old a) := by
  refine failsIn_get_bind fun s => ?_
  cases s.insn.argIndex old with
  | none => exact failsIn_ok _
  | some k => exact Edit.failsIn_bind (occurs_setArg k a) (fun _ => failsIn_pure true) s

theorem occurs_unbindAll : Edit.FailsIn Fault.Occurs unbindAll :=
  failsIn_get_bind fun s => failsIn_mapM s.insn.args (fun _ => occurs_removeArgAt 0) s

end Node

namespace Phi

theorem occurs_bindingInserted (k : Nat) (r : Register) (pred : BlockId) (s : Linked Phi) :
    FailsIn Fault.Occurs (bindingInserted k r pred s) := by
  unfold bindingInserted
  refine failsIn_ite (failsIn_error trivial) (failsIn_ite (failsIn_error trivial) ?_)
  exact failsIn_bind (r.occurs_attached _ _) fun _ =>
    failsIn_bind (VarTable.failsIn_addConsumerFor occurs_unknownVariable _ _) fun _ => failsIn_ok _

theorem occurs_bindArg (r : Register) (pred : BlockId) : Edit.FailsIn Fault.Occurs (bindArg r pred) := by
  rw [bindArg_eq]
  exact failsIn_atomically fun s => occurs_bindingInserted _ r pred s

theorem occurs_bind (id : OperandId) (pred : BlockId) : Edit.FailsIn Fault.Occurs (bind id pred) :=
  failsIn_get_bind fun s =>
    Edit.failsIn_bind (occurs_bindArg _ pred) (fun _ => failsIn_pure _) s

theorem failsIn_release {F : Fault → Prop} (hunknown : ∀ v, F (.unknownVariable v)) (r : Register)
    (t : VarTable) : FailsIn F (release r t) :=
  failsIn_bind (VarTable.failsIn_removeReader hunknown r) fun _ =>
    VarTable.failsIn_refreshConsumersFor hunknown r

theorem failsIn_removeArgAt {F : Fault → Prop} (hunknown : ∀ v, F (.unknownVariable v)) {k : Nat}
    (hindex : F (.indexOutOfRange k)) : Edit.FailsIn F (removeArgAt k) := by
  intro s
  unfold removeArgAt
  cases s.insn.bindings[k]? with
  | none => exact failsIn_error hindex
  | some old =>
    have hrelease := failsIn_release hunknown old.arg s.vars
    simp only
    cases h : release old.arg s.vars with
    | ok t => exact failsIn_ok _
    | error e => exact failsIn_error (hrelease e h)

theorem occurs_removeArgAt (k : Nat) : Edit.FailsIn Fault.Occurs (removeArgAt k) :=
  failsIn_removeArgAt occurs_unknownVariable trivial

theorem occurs_removeArg (a : OperandId) : Edit.FailsIn Fault.Occurs (removeArg a) := by
  refine failsIn_get_bind fun s => ?_
  cases s.insn.argIndex a with
  | none => exact failsIn_ok _
  | some k => exact Edit.failsIn_bind (occurs_removeArgAt k) (fun _ => failsIn_pure true) s

theorem occurs_replacement (old : OperandId) (r : Register) (s : Linked Phi) :
    FailsIn Fault.Occurs (replacement old r s) := by
  refine failsIn_bind (VarTable.failsIn_ensureKnown occurs_unknownVariable _) fun _ => ?_
  refine failsIn_ite (failsIn_ok _) (failsIn_ite (failsIn_error trivial) ?_)
  exact failsIn_bind (r.occurs_ensureDetached _) fun _ => failsIn_ok _

/-- What has been found at a position has a predecessor there. -/
theorem blockAt?_of_argIndex {p : Phi} {a : OperandId} {k : Nat} (h : p.argIndex a = some k) :
    ∃ pred, p.blockAt? k = some pred := by
  rcases argIndex_eq_some h with ⟨b, hb, -⟩
  exact ⟨b.pred, by rw [blockAt?, hb]; rfl⟩

theorem occurs_replaceArg (old : OperandId) (r : Register) :
    Edit.FailsIn Fault.Occurs (replaceArg old r) := by
  intro s
  rw [replaceArg_apply]
  cases hk : s.insn.argIndex old with
  | none => exact failsIn_ok _
  | some k =>
    -- the branch without a predecessor is not reached
    rcases blockAt?_of_argIndex hk with ⟨pred, hpred⟩
    have hrep := occurs_replacement old r s
    simp only [hpred]
    cases h : replacement old r s with
    | error e => exact failsIn_error (hrep e h)
    | ok r' =>
      exact Edit.failsIn_bind (occurs_removeArgAt k) (fun _ =>
        Edit.failsIn_bind (failsIn_atomically (occurs_bindingInserted k r' pred)) fun _ =>
          failsIn_pure true) s

theorem occurs_unbindAll : Edit.FailsIn Fault.Occurs unbindAll :=
  failsIn_get_bind fun s => failsIn_mapM s.insn.bindings (fun _ => occurs_removeArgAt 0) s

end Phi

namespace Insn

variable {α : Type}

theorem occurs_edit {onNode : Edit (Linked Node) α} {onPhi : Edit (Linked Phi) α}
    (hnode : Edit.FailsIn Fault.Occurs onNode) (hphi : Edit.FailsIn Fault.Occurs onPhi) :
    Edit.FailsIn Fault.Occurs (edit onNode onPhi) := by
  rintro ⟨i, t⟩
  cases i with
  | node n =>
    rw [verdict_edit_node]
    exact hnode ⟨n, t⟩
  | phi p =>
    rw [verdict_edit_phi]
    exact hphi ⟨p, t⟩

theorem occurs_onPhi (id : InsnId) {act : Edit (Linked Phi) α}
    (h : Edit.FailsIn Fault.Occurs act) : Edit.FailsIn Fault.Occurs (onPhi id act) :=
  occurs_edit (failsIn_ask fun _ => failsIn_error trivial) h

theorem occurs_refuse (operation : String) :
    Edit.FailsIn Fault.Occurs (refuse operation : Edit (Linked Phi) α) :=
  failsIn_ask fun _ => failsIn_error trivial

theorem occurs_addArg (a : Operand) : Edit.FailsIn Fault.Occurs (addArg a) := by
  rw [addArg, Node.addArg_eq]
  exact occurs_edit (failsIn_atomically (Node.occurs_argAdded a)) (occurs_refuse _)

theorem occurs_setArg (k : Nat) (a : Operand) : Edit.FailsIn Fault.Occurs (setArg k a) :=
  occurs_edit (Node.occurs_setArg k a) (occurs_refuse _)

theorem occurs_setResult (r : Register) : Edit.FailsIn Fault.Occurs (setResult r) := by
  rw [setResult, Node.setResult_eq]
  exact occurs_edit (failsIn_atomically (Node.occurs_resultSet r)) (occurs_refuse _)

theorem occurs_removeArg (a : Operand) : Edit.FailsIn Fault.Occurs (removeArg a) := by
  cases a with
  | register r => exact occurs_edit (Node.occurs_removeArg r.id) (Phi.occurs_removeArg r.id)
  | literal l => exact occurs_edit (Node.occurs_removeArg l.id) (failsIn_pure false)

theorem occurs_replaceArg (old new : Operand) :
    Edit.FailsIn Fault.Occurs (replaceArg old new) := by
  refine occurs_edit (Node.occurs_replaceArg old.id new) ?_
  cases old with
  | literal l => exact failsIn_pure false
  | register r =>
    cases new with
    | literal l => exact failsIn_pure false
    | register s => exact Phi.occurs_replaceArg r.id s

theorem occurs_unbindAll : Edit.FailsIn Fault.Occurs unbindAll :=
  occurs_edit Node.occurs_unbindAll (Edit.failsIn_map Phi.occurs_unbindAll)

theorem occurs_assignResult (v : VarId) : Edit.FailsIn Fault.Occurs (assignResult v) := by
  rw [assignResult_eq]
  refine failsIn_atomically fun s =>
    failsIn_bind (VarTable.failsIn_ensureKnown occurs_unknownVariable _) fun _ => ?_
  cases s.insn.result? with
  | none => exact failsIn_error trivial
  | some r =>
    refine failsIn_ite (failsIn_error trivial) ?_
    exact failsIn_bind (VarTable.failsIn_update occurs_unknownVariable v _) fun _ => failsIn_ok _

theorem occurs_readerMoved (r : Register) (v : VarId) (t : VarTable) :
    FailsIn Fault.Occurs (readerMoved r v t) := by
  refine failsIn_bind (VarTable.failsIn_find occurs_unknownVariable v) fun x => ?_
  have hmove : FailsIn Fault.Occurs (do
      let t ← t.removeReader r
      t.addReader (r.naming v)) :=
    failsIn_bind (VarTable.failsIn_removeReader occurs_unknownVariable r) fun _ =>
      VarTable.failsIn_addReader occurs_unknownVariable _
  cases x.useSite r.id with
  | none => exact hmove
  | some i => exact failsIn_ite (failsIn_error trivial) hmove

theorem occurs_attachVar (k : Nat) (v : VarId) : Edit.FailsIn Fault.Occurs (attachVar k v) := by
  rw [attachVar_eq]
  refine failsIn_atomically fun s =>
    failsIn_bind (VarTable.failsIn_ensureKnown occurs_unknownVariable _) fun _ => ?_
  obtain ⟨i, t⟩ := s
  cases i with
  | phi p =>
    simp only
    cases p.bindings[k]? with
    | none => exact failsIn_error trivial
    | some b =>
      exact failsIn_bind (occurs_readerMoved b.arg v t) fun _ =>
        failsIn_bind (VarTable.failsIn_refreshConsumersFor occurs_unknownVariable _) fun _ =>
          failsIn_bind (VarTable.failsIn_update occurs_unknownVariable v _) fun _ => failsIn_ok _
  | node n =>
    simp only
    cases n.args[k]? with
    | none => exact failsIn_error trivial
    | some a =>
      cases a with
      | literal l => exact failsIn_error trivial
      | register r => exact failsIn_bind (occurs_readerMoved r v t) fun _ => failsIn_ok _

end Insn

/-! ## The check -/

/-- A check that may be disabled, before the others. -/
theorem failsIn_enabled {F : Fault → Prop} {b : Bool} {x y : Except Fault Unit} (hx : FailsIn F x)
    (hy : FailsIn F y) : FailsIn F (if b = true then (x >>= fun _ => y) else y) :=
  failsIn_ite (failsIn_bind hx fun _ => hy) hy

section Check

variable {F : Fault → Prop} (hunknown : ∀ v, F (.unknownVariable v))
  (hinconsistent : ∀ f, F (.inconsistent f))

theorem failsIn_require {ok : Bool} {finding : Finding} (h : F (.inconsistent finding)) :
    FailsIn F (require ok finding) :=
  failsIn_ite (failsIn_ok ()) (failsIn_error h)

include hinconsistent

theorem Phi.failsIn_checkPreds (p : Phi) : FailsIn F p.checkPreds := by
  unfold checkPreds
  cases firstRepeat? [] p.preds with
  | none => exact failsIn_ok ()
  | some pred => exact failsIn_error (hinconsistent _)

include hunknown

theorem Phi.failsIn_check (c : Checks) (t : VarTable) (p : Phi) : FailsIn F (p.check c t) := by
  have howned : FailsIn F p.checkOwnership :=
    failsIn_forM p.args fun _ => failsIn_require (hinconsistent _)
  have hlisted : FailsIn F (p.checkListed t) :=
    failsIn_forM p.usedVars fun v => failsIn_bind (VarTable.failsIn_find hunknown v) fun _ =>
      failsIn_require (hinconsistent _)
  unfold check
  refine failsIn_enabled (failsIn_require (hinconsistent _))
    (failsIn_bind (failsIn_require (hinconsistent _)) fun _ => ?_)
  exact failsIn_enabled howned (failsIn_enabled (p.failsIn_checkPreds hinconsistent)
    (failsIn_ite hlisted (failsIn_ok ())))

namespace Method

theorem failsIn_checkInsn (t : VarTable) (i : Insn) : FailsIn F (checkInsn t i) := by
  have harg : ∀ r, FailsIn F (checkArg t i.id r) := by
    intro r
    unfold checkArg
    cases r.var with
    | none => exact failsIn_ok ()
    | some v =>
      exact failsIn_bind (failsIn_require (hinconsistent _)) fun _ =>
        failsIn_bind (VarTable.failsIn_find hunknown v) fun _ => failsIn_require (hinconsistent _)
  have hresult : ∀ r, FailsIn F (checkResult t i.id r) := by
    intro r
    unfold checkResult
    cases r.var with
    | none => exact failsIn_ok ()
    | some v =>
      exact failsIn_bind (VarTable.failsIn_find hunknown v) fun _ =>
        failsIn_require (hinconsistent _)
  exact failsIn_bind (failsIn_forM _ harg) fun _ => failsIn_forM _ hresult

theorem failsIn_verify (c : Checks) (m : Method) : FailsIn F (m.verify c) := by
  have hconsumers : FailsIn F m.checkConsumers :=
    failsIn_forM _ fun _ => failsIn_forM _ fun _ => failsIn_require (hinconsistent _)
  have hrecords : ∀ x, FailsIn F (checkRecords m.liveUses m.liveDefs x) :=
    fun x => failsIn_bind (failsIn_forM _ fun _ => failsIn_require (hinconsistent _)) fun _ =>
      failsIn_forM _ fun _ => failsIn_require (hinconsistent _)
  have huseLists : FailsIn F m.checkUseLists :=
    failsIn_bind (failsIn_forM _ (failsIn_checkInsn hunknown hinconsistent m.vars)) fun _ =>
      failsIn_forM _ hrecords
  have hrelations : FailsIn F (m.checkRelations c) :=
    failsIn_bind (failsIn_forM _ (Phi.failsIn_check hunknown hinconsistent c m.vars)) fun _ =>
      failsIn_enabled hconsumers (failsIn_ite huseLists (failsIn_ok ()))
  exact failsIn_ite hrelations (failsIn_ok ())

theorem failsIn_recheck (m : Method) : FailsIn F m.recheck :=
  failsIn_ite (failsIn_verify hunknown hinconsistent m.checks m) (failsIn_ok ())

end Method

end Check

namespace Method

theorem occurs_verify (c : Checks) (m : Method) : FailsIn Fault.Occurs (m.verify c) :=
  failsIn_verify occurs_unknownVariable (fun _ => trivial) c m

/-! ## Methods -/

variable {α : Type}

theorem occurs_phi (m : Method) (id : InsnId) : FailsIn Fault.Occurs (m.phi id) := by
  have hinsn : FailsIn Fault.Occurs (m.insn id) := by
    intro e h
    rcases insn_eq_error.1 h with ⟨-, rfl⟩
    trivial
  refine failsIn_bind hinsn fun i => ?_
  cases i with
  | node n => exact failsIn_error trivial
  | phi p => exact failsIn_ok p

theorem occurs_editInsn (id : InsnId) {act : Edit (Linked Insn) α}
    (h : Edit.FailsIn Fault.Occurs act) : Edit.FailsIn Fault.Occurs (editInsn id act) := by
  intro m
  cases hi : m.insn? id with
  | none =>
    rw [editInsn_of_none hi]
    exact failsIn_error trivial
  | some i =>
    rw [verdict_editInsn hi]
    exact h ⟨i, m.vars⟩

theorem occurs_editPhi (id : InsnId) {act : Edit (Linked Phi) α}
    (h : Edit.FailsIn Fault.Occurs act) : Edit.FailsIn Fault.Occurs (editPhi id act) :=
  occurs_editInsn id (Insn.occurs_onPhi id h)

theorem occurs_verified {act : Edit Method α} (h : Edit.FailsIn Fault.Occurs act) :
    Edit.FailsIn Fault.Occurs (verified act) := by
  have hrecheck : ∀ m : Method, FailsIn Fault.Occurs m.recheck :=
    failsIn_recheck occurs_unknownVariable fun _ => trivial
  exact Edit.failsIn_bind h fun a =>
    Edit.failsIn_bind (failsIn_ask hrecheck) fun _ => failsIn_pure a

theorem occurs_takePhi (id : InsnId) : Edit.FailsIn Fault.Occurs (takePhi id) := by
  intro m
  have hphi := m.occurs_phi id
  unfold takePhi
  cases hp : m.phi id with
  | error e => exact failsIn_error (hphi e hp)
  | ok p =>
    have hremove := VarTable.failsIn_removeDefiner occurs_unknownVariable (t := m.vars) p.result
    simp only
    cases h : m.vars.removeDefiner p.result with
    | ok t => exact failsIn_ok p
    | error e => exact failsIn_error (hremove e h)

theorem occurs_unbindInsn (id : InsnId) : Edit.FailsIn Fault.Occurs (unbindInsn id) :=
  occurs_verified (occurs_editInsn id (Edit.failsIn_map Insn.occurs_unbindAll))

theorem occurs_removePhi (id : InsnId) : Edit.FailsIn Fault.Occurs (removePhi id) :=
  Edit.failsIn_bind (failsIn_ask (occurs_phi · id)) fun _ =>
    Edit.failsIn_bind (occurs_unbindInsn id) fun _ => occurs_takePhi id

theorem occurs_newPhiArg (m : Method) (phi : InsnId) (id : OperandId) (v : Option VarId) :
    FailsIn Fault.Occurs (m.newPhiArg phi id v) :=
  failsIn_map (m.occurs_phi phi)

end Method

/-! ## Mutations -/

namespace Mutation

open Method

theorem occurs_onMethod (id : OperandId) (c : Mutation) :
    Edit.FailsIn Fault.Occurs (c.onMethod id) := by
  cases c with
  | newVar reg version => exact Edit.failsIn_map fun _ => failsIn_ok _
  | newNode op => exact Edit.failsIn_map fun _ => failsIn_ok _
  | newPhi reg => exact Edit.failsIn_map fun _ => failsIn_ok _
  | bindPhi phi pred =>
    exact Edit.failsIn_map (occurs_verified (occurs_editPhi phi (Phi.occurs_bind id pred)))
  | bindPhiArg phi arg pred =>
    exact Edit.failsIn_map (occurs_verified (occurs_editPhi phi (Phi.occurs_bindArg arg pred)))
  | removePhiArg phi arg =>
    exact Edit.failsIn_map (occurs_verified (occurs_editPhi phi (Phi.occurs_removeArg arg.id)))
  | removePhiArgAt phi k =>
    exact Edit.failsIn_map (occurs_verified (occurs_editPhi phi (Phi.occurs_removeArgAt k)))
  | addArg insn a =>
    exact Edit.failsIn_map (occurs_verified (occurs_editInsn insn (Insn.occurs_addArg a)))
  | setArg insn k a =>
    exact Edit.failsIn_map (occurs_verified (occurs_editInsn insn (Insn.occurs_setArg k a)))
  | removeArg insn a =>
    exact Edit.failsIn_map (occurs_verified (occurs_editInsn insn (Insn.occurs_removeArg a)))
  | replaceArg insn old new =>
    exact Edit.failsIn_map (occurs_verified (occurs_editInsn insn (Insn.occurs_replaceArg old new)))
  | setResult insn r =>
    exact Edit.failsIn_map (occurs_verified (occurs_editInsn insn (Insn.occurs_setResult r)))
  | assignResult insn v =>
    exact Edit.failsIn_map (occurs_verified (occurs_editInsn insn (Insn.occurs_assignResult v)))
  | attachVar insn k v =>
    exact Edit.failsIn_map (occurs_verified (occurs_editInsn insn (Insn.occurs_attachVar k v)))
  | unbindInsn insn => exact Edit.failsIn_map (occurs_unbindInsn insn)
  | removePhi phi => exact Edit.failsIn_map (occurs_removePhi phi)
  | removePhis phis =>
    exact Edit.failsIn_map (Edit.failsIn_bind (failsIn_mapM _ occurs_removePhi) fun l =>
      failsIn_pure l.length)
  | setChecks checks => exact Edit.failsIn_map fun _ => failsIn_ok _

end Mutation

end SsaForm
