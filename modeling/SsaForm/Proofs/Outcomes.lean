import SsaForm.Insn
import SsaForm.Proofs.TableChanges

/-!
# SsaForm.Proofs.Outcomes — the changes that are made as a whole

Appending an operand, binding an argument, setting a result and choosing variables write in several
places, one after the other, and most of the writes fail on a variable that the table lacks. Each of
these edits has an outcome here, a function from the state before to the state after it, and an
equation (`addArg_eq`, `insertBinding_eq` and so on) which says that the edit comes to that outcome or
fails with everything as it was. Nothing is assumed about the table: what an edit looks at before its
first write is enough for the others to go through.
-/

namespace SsaForm

open Edit

/-- A sequence goes on with the value of a step that succeeded. -/
theorem ok_bind {ε α β : Type} (a : α) (f : α → Except ε β) : (Except.ok a >>= f) = f a := rfl

namespace Linked

variable {ι : Type} {s : Linked ι}

theorem record_of_ok {f : VarTable → Except Fault VarTable} {t : VarTable} (h : f s.vars = .ok t) :
    record f s = .ok () { s with vars := t } := by
  simp only [record, onVars, zoom, atomically_of_ok h]

theorem record_of_error {f : VarTable → Except Fault VarTable} {e : Fault}
    (h : f s.vars = .error e) : record f s = .error e s := by
  simp only [record, onVars, zoom, atomically_of_error h]

theorem amend_bind_apply {α : Type} (f : ι → ι) (k : Unit → Edit (Linked ι) α) (s : Linked ι) :
    (amend f >>= k) s = k () { s with insn := f s.insn } := rfl

end Linked

/-! ## Nodes -/

namespace Node

/-- The node with the operand appended. -/
def argAdded (a : Operand) (s : Linked Node) : Except Fault (Linked Node) := do
  if s.insn.holds a.id then .error (.alreadyBound a.id s.insn.id)
  let vars ← a.attached s.insn.id s.vars
  return { insn := { s.insn with args := s.insn.args ++ [a.ownedBy s.insn.id] }, vars := vars }

theorem addArg_eq (a : Operand) : addArg a = atomically (argAdded a) := by
  funext s
  by_cases hheld : s.insn.holds a.id = true
  · simp only [addArg, argAdded, get_bind_apply, atomically, if_pos hheld, throw_bind_apply]
    rfl
  · cases hatt : a.attached s.insn.id s.vars with
    | error e =>
      simp only [addArg, argAdded, get_bind_apply, atomically, if_neg hheld, a.attach_eq, hatt]
      exact bind_of_error (Linked.record_of_error hatt)
    | ok t =>
      simp only [addArg, argAdded, get_bind_apply, atomically, if_neg hheld, a.attach_eq, hatt]
      exact bind_of_ok (Linked.record_of_ok hatt)

theorem run_addArg {a : Operand} {s s' : Linked Node} {u : Unit} :
    addArg a s = .ok u s' ↔ argAdded a s = .ok s' := by
  rw [addArg_eq, run_atomically_eq_ok]

theorem addArg_of_error {a : Operand} {s : Linked Node} {e : Fault} (h : argAdded a s = .error e) :
    addArg a s = .error e s := by
  rw [addArg_eq, atomically_of_error h]

/-- The node with a detached operand over the one at `index`. -/
def occupied (index : Nat) (a : Operand) (s : Linked Node) : Except Fault (Linked Node) := do
  let vars ← a.attached s.insn.id s.vars
  return { insn := { s.insn with args := s.insn.args.set index (a.ownedBy s.insn.id) }, vars := vars }

theorem occupy_eq (index : Nat) (a : Operand) : occupy index a = atomically (occupied index a) := by
  funext s
  cases hatt : a.attached s.insn.id s.vars with
  | error e =>
    simp only [occupy, occupied, get_bind_apply, atomically, a.attach_eq, hatt]
    exact bind_of_error (Linked.record_of_error hatt)
  | ok t =>
    simp only [occupy, occupied, get_bind_apply, atomically, a.attach_eq, hatt]
    exact bind_of_ok (Linked.record_of_ok hatt)

/-- The node with another result. -/
def resultSet (r : Register) (s : Linked Node) : Except Fault (Linked Node) := do
  s.vars.ensureKnown r.var
  let vars ← match s.insn.result with
    | some old => s.vars.removeDefiner old
    | none => .ok s.vars
  let vars ← vars.addDefiner (r.ownedBy s.insn.id)
  return { insn := { s.insn with result := some (r.ownedBy s.insn.id) }, vars := vars }

/-- A variable that was known before the former definition was forgotten is known after it. -/
theorem addDefiner_of_removeDefiner {t t' : VarTable} {old r : Register} (hknown : t.Knows r.var)
    (h : t.removeDefiner old = .ok t') :
    t'.addDefiner r = .ok (t'.onVar r.var (·.define r.site)) := by
  rw [(VarTable.removeDefiner_eq_ok.1 h).2, VarTable.addDefiner_eq_ok]
  exact ⟨VarTable.knows_onVar.2 hknown, rfl⟩

theorem setResult_eq (r : Register) : setResult r = atomically (resultSet r) := by
  funext s
  simp only [setResult, resultSet, get_bind_apply, atomically]
  cases hensure : s.vars.ensureKnown r.var with
  | error e => exact bind_of_error (ask_of_error hensure)
  | ok u =>
    have hknown := VarTable.ensureKnown_eq_ok.1 hensure
    refine (bind_of_ok (ask_of_ok (s := s) hensure)).trans ?_
    simp only [ok_bind]
    cases s.insn.result with
    | none =>
      have hdef : s.vars.addDefiner (r.ownedBy s.insn.id) = .ok _ :=
        VarTable.addDefiner_eq_ok.2 ⟨hknown, rfl⟩
      have hrun : Linked.record (·.addDefiner (r.ownedBy s.insn.id)) s = _ :=
        Linked.record_of_ok hdef
      simp only [ok_bind, hdef]
      exact bind_of_ok hrun
    | some old =>
      simp only
      cases hundef : s.vars.removeDefiner old with
      | error e =>
        have hrun : Linked.record (·.removeDefiner old) s = _ := Linked.record_of_error hundef
        exact bind_of_error hrun
      | ok t =>
        have hrun : Linked.record (·.removeDefiner old) s = _ := Linked.record_of_ok hundef
        -- only the former variable was written to, the new one is still known
        have hdef : t.addDefiner (r.ownedBy s.insn.id) = .ok _ :=
          addDefiner_of_removeDefiner hknown hundef
        have hrun' : Linked.record (·.addDefiner (r.ownedBy s.insn.id)) { s with vars := t } = _ :=
          Linked.record_of_ok hdef
        simp only [ok_bind, hdef]
        exact (bind_of_ok hrun).trans (bind_of_ok hrun')

theorem run_setResult {r : Register} {s s' : Linked Node} {u : Unit} :
    setResult r s = .ok u s' ↔ resultSet r s = .ok s' := by
  rw [setResult_eq, run_atomically_eq_ok]

end Node

/-! ## Phis -/

namespace Phi

/-- The phi with an argument bound at `index`. -/
def bindingInserted (index : Nat) (arg : Register) (pred : BlockId) (s : Linked Phi) :
    Except Fault (Linked Phi) := do
  if s.insn.hasPredecessor pred then .error (.duplicatePredecessor pred s.insn.id)
  if s.insn.holds arg.id then .error (.alreadyBound arg.id s.insn.id)
  let vars ← arg.attached s.insn.id s.vars
  let vars ← vars.addConsumerFor arg s.insn.id
  let binding := { arg := arg.ownedBy s.insn.id, pred := pred }
  return { insn := { s.insn with bindings := s.insn.bindings.insertIdx index binding }, vars := vars }

/-- A register that was attached has a variable that the table knows, if it has any. -/
theorem addConsumerFor_of_attached {t t' : VarTable} {r : Register} {i : InsnId}
    (h : r.attached i t = .ok t') :
    t'.addConsumerFor r i = .ok (t'.onVar r.var (·.addConsumer i)) := by
  rcases Register.attached_eq_ok.1 h with ⟨hfree, rfl⟩
  exact VarTable.addConsumerFor_eq_ok.2 ⟨VarTable.knows_onVar.2 hfree.known, rfl⟩

theorem insertBinding_eq (index : Nat) (arg : Register) (pred : BlockId) :
    insertBinding index arg pred = atomically (bindingInserted index arg pred) := by
  funext s
  simp only [insertBinding, bindingInserted, get_bind_apply, atomically, arg.attach_eq]
  by_cases hpred : s.insn.hasPredecessor pred = true
  · simp only [if_pos hpred, throw_bind_apply]
    rfl
  · by_cases hheld : s.insn.holds arg.id = true
    · simp only [if_neg hpred, if_pos hheld, throw_bind_apply]
      rfl
    · simp only [if_neg hpred, if_neg hheld]
      cases hatt : arg.attached s.insn.id s.vars with
      | error e => exact bind_of_error (Linked.record_of_error hatt)
      | ok t =>
        -- attaching has found the variable, so it can list the phi
        have hcons := addConsumerFor_of_attached hatt
        have hrun : Linked.record (·.addConsumerFor arg s.insn.id) { s with vars := t } = _ :=
          Linked.record_of_ok hcons
        simp only [ok_bind, hcons]
        exact (bind_of_ok (Linked.record_of_ok hatt)).trans (bind_of_ok hrun)

/-- The phi with an argument bound after the others. -/
def argBound (arg : Register) (pred : BlockId) (s : Linked Phi) : Except Fault (Linked Phi) :=
  bindingInserted s.insn.bindings.length arg pred s

theorem bindArg_eq (arg : Register) (pred : BlockId) :
    bindArg arg pred = atomically (argBound arg pred) := by
  funext s
  simp only [bindArg, get_bind_apply, insertBinding_eq]
  rfl

theorem run_bindArg {arg : Register} {pred : BlockId} {s s' : Linked Phi} {u : Unit} :
    bindArg arg pred s = .ok u s' ↔ argBound arg pred s = .ok s' := by
  rw [bindArg_eq, run_atomically_eq_ok]

theorem bindArg_of_error {arg : Register} {pred : BlockId} {s : Linked Phi} {e : Fault}
    (h : argBound arg pred s = .error e) : bindArg arg pred s = .error e s := by
  rw [bindArg_eq, atomically_of_error h]

end Phi

/-! ## Naming -/

namespace Insn

/-- The instruction whose result defines `v`. -/
def resultAssigned (v : VarId) (s : Linked Insn) : Except Fault (Linked Insn) := do
  s.vars.ensureKnown v
  match s.insn.result? with
  | none => .error (.inconsistent (.noResult s.insn.id))
  | some r =>
    if r.var.isSome then .error (.forbiddenMutation s.insn.id "assign_result")
    let vars ← s.vars.define v r.site
    return { insn := s.insn.withResult (r.naming v), vars := vars }

theorem assignResult_eq (v : VarId) : assignResult v = atomically (resultAssigned v) := by
  funext s
  simp only [assignResult, resultAssigned, get_bind_apply, atomically]
  cases hensure : s.vars.ensureKnown v with
  | error e => exact bind_of_error (ask_of_error hensure)
  | ok u =>
    refine (bind_of_ok (ask_of_ok (s := s) hensure)).trans ?_
    cases hres : s.insn.result? with
    | none => rfl
    | some r =>
      by_cases hvar : r.var.isSome = true
      · simp only [if_pos hvar, throw_bind_apply]
        rfl
      · have hdef : s.vars.define v r.site = .ok _ := VarTable.update_eq_ok.2
          ⟨VarTable.knows_some.1 (VarTable.ensureKnown_eq_ok.1 hensure), rfl⟩
        simp only [ok_bind, if_neg hvar, Linked.amend_bind_apply, hdef]
        exact Linked.record_of_ok (s := ⟨s.insn.withResult (r.naming v), s.vars⟩) hdef

theorem run_assignResult {v : VarId} {s s' : Linked Insn} {u : Unit} :
    assignResult v s = .ok u s' ↔ resultAssigned v s = .ok s' := by
  rw [assignResult_eq, run_atomically_eq_ok]

/-- The table in which the use by a held register was moved over to `v`. -/
def readerMoved (r : Register) (v : VarId) (t : VarTable) : Except Fault VarTable := do
  let x ← t.find v
  match x.useSite r.id with
  | some insn => if r.owner ≠ some insn then .error (.alreadyBound r.id insn)
  | none => .ok ()
  let t ← t.removeReader r
  t.addReader (r.naming v)

theorem readerMoved_eq_ok {r : Register} {v : VarId} {t t' : VarTable} :
    readerMoved r v t = .ok t' ↔ v ∈ t ∧ t.Knows r.var ∧
      (∀ x i, t.get? v = some x → x.useSite r.id = some i → r.owner = some i) ∧
      t' = (t.onVar r.var (·.dropUse r.id)).onVar (some v) (·.recordUse ⟨r.id, r.owner⟩) := by
  have hmove : ∀ u : VarTable, (t.removeReader r >>= fun t => t.addReader (r.naming v)) = .ok u ↔
      t.Knows r.var ∧ v ∈ t ∧
        u = (t.onVar r.var (·.dropUse r.id)).onVar (some v) (·.recordUse ⟨r.id, r.owner⟩) := by
    intro u
    simp only [bind_eq_ok, VarTable.removeReader_eq_ok, VarTable.addReader_eq_ok]
    constructor
    · rintro ⟨_, ⟨hknown, rfl⟩, hv, rfl⟩
      exact ⟨hknown, VarTable.knows_some.1 (VarTable.knows_onVar.1 hv), rfl⟩
    · rintro ⟨hknown, hv, rfl⟩
      exact ⟨_, ⟨hknown, rfl⟩, VarTable.knows_onVar.2 (VarTable.knows_some.2 hv), rfl⟩
  -- before it, the instance may be recorded under `v` only where the handle says that it stands
  simp only [readerMoved, bind_eq_ok (x := t.find v), VarTable.find_eq_ok]
  constructor
  · rintro ⟨x, hx, hrest⟩
    cases hsite : x.useSite r.id with
    | none =>
      rw [hsite] at hrest
      rcases (hmove t').1 hrest with ⟨hknown, hv, ht⟩
      refine ⟨hv, hknown, ?_, ht⟩
      intro y i hy hi
      rw [hx, Option.some.injEq] at hy
      rw [← hy, hsite] at hi
      cases hi
    | some i =>
      simp only [hsite] at hrest
      by_cases howner : r.owner = some i
      · simp only [howner, ne_eq, not_true_eq_false, if_false] at hrest
        rcases (hmove t').1 hrest with ⟨hknown, hv, ht⟩
        refine ⟨hv, hknown, ?_, ht⟩
        intro y j hy hj
        rw [hx, Option.some.injEq] at hy
        rw [← hy, hsite] at hj
        exact howner.trans hj
      · simp only [ne_eq, howner, not_false_eq_true, if_true] at hrest
        cases hrest
  · rintro ⟨hv, hknown, hheld, ht⟩
    rcases VarTable.exists_get? hv with ⟨x, hx⟩
    refine ⟨x, hx, ?_⟩
    have hok := (hmove t').2 ⟨hknown, hv, ht⟩
    cases hsite : x.useSite r.id with
    | none => exact hok
    | some i =>
      simp only [hheld x i hx hsite, ne_eq, not_true_eq_false, if_false]
      exact hok

/-- Where `v` and the former variable are known, the use is moved. -/
theorem addReader_of_removeReader {t t' : VarTable} {r : Register} {v : VarId} (hv : v ∈ t)
    (h : t.removeReader r = .ok t') :
    t'.addReader (r.naming v) = .ok (t'.onVar (some v) (·.recordUse (r.naming v).site)) := by
  rw [(VarTable.removeReader_eq_ok.1 h).2, VarTable.addReader_eq_ok]
  exact ⟨VarTable.knows_onVar.2 (VarTable.knows_some.2 hv), rfl⟩

theorem moveReader_apply {ι : Type} (r : Register) (v : VarId) (rename : ι → ι) (s : Linked ι) :
    moveReader r v rename s = match readerMoved r v s.vars with
      | .ok t => .ok () { insn := rename s.insn, vars := t }
      | .error e => .error e s := by
  cases hfind : s.vars.find v with
  | error e =>
    simp only [readerMoved, hfind]
    exact bind_of_error (ask_of_error hfind)
  | ok x =>
    have hv := VarTable.mem_of_get? (VarTable.find_eq_ok.1 hfind)
    -- what is left once no other instruction is in the way
    have hmove : (do
        Linked.record (·.removeReader r)
        Linked.amend rename
        Linked.record (·.addReader (r.naming v)) : Edit (Linked ι) Unit) s =
          match s.vars.removeReader r >>= fun t => t.addReader (r.naming v) with
          | .ok t => .ok () { insn := rename s.insn, vars := t }
          | .error e => .error e s := by
      cases hremove : s.vars.removeReader r with
      | error e =>
        have hrun : Linked.record (·.removeReader r) s = _ := Linked.record_of_error hremove
        exact bind_of_error hrun
      | ok t =>
        have hrun : Linked.record (·.removeReader r) s = _ := Linked.record_of_ok hremove
        have hadd := addReader_of_removeReader hv hremove
        simp only [ok_bind, hadd]
        exact (bind_of_ok hrun).trans (Linked.record_of_ok hadd)
    simp only [readerMoved, hfind, ok_bind]
    refine (bind_of_ok (ask_of_ok (s := s) hfind)).trans ?_
    cases x.useSite r.id with
    | none => exact hmove
    | some i =>
      by_cases howner : r.owner ≠ some i
      · simp only [if_pos howner, throw_bind_apply]
        rfl
      · simp only [if_neg howner]
        exact hmove

/-- The instruction whose argument at `index` reads `v`. -/
def varAttached (index : Nat) (v : VarId) (s : Linked Insn) : Except Fault (Linked Insn) := do
  s.vars.ensureKnown v
  match s.insn with
  | phi p =>
    match p.bindings[index]? with
    | none => .error (.inconsistent (.noArgument p.id index))
    | some b =>
      let vars ← readerMoved b.arg v s.vars
      let vars ← vars.refreshConsumersFor b.arg
      let vars ← vars.addConsumer v p.id
      let bindings := p.bindings.set index { b with arg := b.arg.naming v }
      return { insn := phi { p with bindings := bindings }, vars := vars }
  | node n =>
    match n.args[index]? with
    | none => .error (.inconsistent (.noArgument n.id index))
    | some (.literal l) => .error (.notRegister l.id)
    | some (.register r) =>
      let vars ← readerMoved r v s.vars
      return { insn := node { n with args := n.args.set index (.register (r.naming v)) }, vars := vars }

/-- Once the use has moved, both variables are known, so their consumers can be seen to. -/
theorem attachVarPhi_of_readerMoved {index : Nat} {v : VarId} {p : Phi} {t t' : VarTable}
    {b : Binding} (hb : p.bindings[index]? = some b) (hmove : readerMoved b.arg v t = .ok t') :
    ∃ s : Linked Phi, attachVarPhi index v ⟨p, t⟩ = .ok () s ∧
      varAttached index v ⟨.phi p, t⟩ = .ok ⟨.phi s.insn, s.vars⟩ := by
  rcases readerMoved_eq_ok.1 hmove with ⟨hv, hknown, -, ht'⟩
  have hrefresh : t'.refreshConsumersFor b.arg = .ok _ :=
    VarTable.refreshConsumersFor_eq_ok.2 ⟨by simpa [ht'] using hknown, rfl⟩
  have hadd : (t'.onVar b.arg.var (·.refreshConsumers)).addConsumer v p.id = .ok _ :=
    VarTable.update_eq_ok.2 ⟨by simpa [ht'] using hv, rfl⟩
  let q := { p with bindings := p.bindings.set index { b with arg := b.arg.naming v } }
  refine ⟨⟨q, (t'.onVar b.arg.var (·.refreshConsumers)).modify v (·.addConsumer p.id)⟩, ?_, ?_⟩
  · have hmoved : moveReader b.arg v
        (fun p : Phi => { p with bindings := p.bindings.set index { b with arg := b.arg.naming v } })
        ⟨p, t⟩ = .ok () ⟨q, t'⟩ := by
      simp only [moveReader_apply, hmove]
      rfl
    have hrun : Linked.record (·.refreshConsumersFor b.arg) ⟨q, t'⟩ = _ :=
      Linked.record_of_ok hrefresh
    simp only [attachVarPhi, get_bind_apply, hb]
    refine (bind_of_ok hmoved).trans ((bind_of_ok hrun).trans ?_)
    exact Linked.record_of_ok hadd
  · have hensure : t.ensureKnown (some v) = .ok () :=
      VarTable.ensureKnown_eq_ok.2 (VarTable.knows_some.2 hv)
    simp only [varAttached, hensure, ok_bind, hb, hmove, hrefresh, hadd]
    rfl

theorem attachVar_eq (index : Nat) (v : VarId) :
    attachVar index v = atomically (varAttached index v) := by
  funext s
  obtain ⟨i, t⟩ := s
  cases hensure : t.ensureKnown (some v) with
  | error e =>
    simp only [atomically, varAttached, hensure]
    exact bind_of_error (ask_of_error (s := (⟨i, t⟩ : Linked Insn)) hensure)
  | ok u =>
    refine (bind_of_ok (ask_of_ok (s := (⟨i, t⟩ : Linked Insn)) hensure)).trans ?_
    cases i with
    | node n =>
      simp only [atomically, varAttached, hensure, ok_bind, edit, zoom, attachVarNode, get_bind_apply]
      cases n.args[index]? with
      | none => rfl
      | some a =>
        cases a with
        | literal l => rfl
        | register r =>
          simp only [moveReader_apply]
          cases readerMoved r v t <;> rfl
    | phi p =>
      cases hb : p.bindings[index]? with
      | none =>
        simp only [atomically, varAttached, hensure, ok_bind, edit, zoom, attachVarPhi,
          get_bind_apply, hb]
        rfl
      | some b =>
        cases hmove : readerMoved b.arg v t with
        | error e =>
          have hrun := moveReader_apply b.arg v
            (fun p : Phi => { p with bindings := p.bindings.set index { b with arg := b.arg.naming v } })
            ⟨p, t⟩
          simp only [hmove] at hrun
          simp only [atomically, varAttached, hensure, ok_bind, hb, hmove, edit, zoom, attachVarPhi,
            get_bind_apply, bind_of_error hrun]
          rfl
        | ok t' =>
          rcases attachVarPhi_of_readerMoved hb hmove with ⟨s, hrun, hout⟩
          simp only [atomically_of_ok hout, edit, zoom, hrun]

theorem run_attachVar {index : Nat} {v : VarId} {s s' : Linked Insn} {u : Unit} :
    attachVar index v s = .ok u s' ↔ varAttached index v s = .ok s' := by
  rw [attachVar_eq, run_atomically_eq_ok]

end Insn

end SsaForm
