import SsaForm.Proofs.Outcomes

/-!
# SsaForm.Proofs.InsnChanges — what each change of an instruction does

One equation or inversion for each step by which operands enter, leave or move: when it
succeeds, and the instruction and the table that it then leaves. Nothing is assumed about
the table. The invariants of the other modules are proved from these statements, without
opening the definitions again.
-/

namespace SsaForm

open Edit

/-! ## Faults that are not about positions -/

/-- The faults of the records: an unknown variable, or an instance that stands somewhere. -/
def Fault.OfRecords : Fault → Prop
  | .unknownVariable _ | .alreadyBound _ _ => True
  | _ => False

theorem Fault.OfRecords.ne_indexOutOfRange {e : Fault} (h : e.OfRecords) (k : Nat) :
    e ≠ .indexOutOfRange k := by
  rintro rfl
  exact h

theorem Register.ensureDetached_error {r : Register} {t : VarTable} {e : Fault}
    (h : r.ensureDetached t = .error e) : e.OfRecords := by
  unfold ensureDetached at h
  cases hh : r.holder t with
  | ok o =>
    rw [hh] at h
    cases o with
    | none => simp [bind, Except.bind] at h
    | some i =>
      simp only [bind, Except.bind, Except.error.injEq] at h
      subst h
      trivial
  | error f =>
    simp only [hh, bind, Except.bind, Except.error.injEq] at h
    subst h
    cases hv : r.var with
    | none => simp [holder, hv] at hh
    | some v =>
      cases hx : t.find v with
      | ok x => simp [holder, hv, hx, Except.map] at hh
      | error g =>
        simp only [holder, hv, hx, Except.map, Except.error.injEq] at hh
        rw [VarTable.find_eq_error] at hx
        rw [← hh, hx.2]
        trivial

/-- The owner that a handle names counts, whatever is recorded. -/
theorem Register.holder_owned {r : Register} {i : InsnId} {t : VarTable} (howner : r.owner = some i)
    (hknown : t.Knows r.var) : r.holder t = .ok (some i) := by
  cases hv : r.var with
  | none => simp only [holder, hv, howner]
  | some v =>
    rcases VarTable.exists_get? (hknown v hv) with ⟨x, hx⟩
    simp only [holder, hv, VarTable.find_eq_ok.2 hx, howner, Except.map, Option.some_or]

/-- A handle that names its owner is not attached again. -/
theorem Register.attached_owned {r : Register} {i k : InsnId} {t : VarTable}
    (howner : r.owner = some i) (hknown : t.Knows r.var) :
    r.attached k t = .error (.alreadyBound r.id i) := by
  simp only [attached, ensureDetached, Register.holder_owned howner hknown]
  rfl

theorem VarTable.removeReader_error {t : VarTable} {r : Register} {e : Fault}
    (h : t.removeReader r = .error e) : e.OfRecords := by
  rw [removeReader_eq] at h
  cases hv : r.var with
  | none =>
    rw [hv] at h
    cases h
  | some v =>
    rw [hv, ensureKnown] at h
    split at h
    · cases h
    · cases h
      trivial

theorem Operand.release_error {a : Operand} {t : VarTable} {e : Fault}
    (h : a.release t = .error e) :
    e.OfRecords := by
  cases a with
  | register r => exact VarTable.removeReader_error h
  | literal l => simp [release] at h

/-- Attaching fails only where the operand is not free. -/
theorem Operand.attached_error {a : Operand} {i : InsnId} {t : VarTable} {e : Fault}
    (h : a.attached i t = .error e) : e.OfRecords := by
  cases a with
  | literal l => simp [attached] at h
  | register r =>
    cases hd : r.ensureDetached t with
    | ok u =>
      have hok : r.attached i t = .ok _ :=
        Register.attached_eq_ok.2 ⟨Register.ensureDetached_eq_ok.1 hd, rfl⟩
      simp [attached, hok] at h
    | error f =>
      have hr : r.attached i t = .error f := by
        simp only [Register.attached, hd, bind, Except.bind]
      simp only [attached, hr, Except.error.injEq] at h
      exact h ▸ Register.ensureDetached_error hd

/-! ## Nodes -/

namespace Node

theorem argIndex_eq_none {n : Node} {a : OperandId} :
    n.argIndex a = none ↔ ∀ b ∈ n.args, b.id ≠ a := by
  simp [argIndex, List.findIdx?_eq_none_iff]

theorem holds_eq_false {n : Node} {a : OperandId} : n.holds a = false ↔ n.argIndex a = none := by
  rw [holds, Option.isSome_eq_false_iff, Option.isNone_iff_eq_none]

theorem argIndex_eq_some {n : Node} {a : OperandId} {k : Nat} (h : n.argIndex a = some k) :
    ∃ b, n.args[k]? = some b ∧ b.id = a := by
  rcases List.findIdx?_eq_some_iff_getElem.1 h with ⟨hk, hb, -⟩
  exact ⟨n.args[k], List.getElem?_eq_getElem hk, by simpa using hb⟩

theorem argAdded_eq_ok {a : Operand} {s s' : Linked Node} :
    argAdded a s = .ok s' ↔ s.insn.argIndex a.id = none ∧ a.Free s.vars ∧
      s' = { insn := { s.insn with args := s.insn.args ++ [a.ownedBy s.insn.id] },
             vars := s.vars.onVar a.var? (·.recordUse ⟨a.id, some s.insn.id⟩) } := by
  simp only [argAdded]
  rw [refusal_eq_ok, holds, Option.not_isSome_iff_eq_none]
  refine and_congr_right fun _ => ?_
  simp only [bind_eq_ok, Operand.attached_eq_ok]
  constructor
  · rintro ⟨_, ⟨hfree, rfl⟩, hs⟩
    simp only [pure, Except.pure, Except.ok.injEq] at hs
    exact ⟨hfree, hs.symm⟩
  · rintro ⟨hfree, rfl⟩
    exact ⟨_, ⟨hfree, rfl⟩, rfl⟩

/-- A register that is not detached is refused, on account of the node itself if that holds it. -/
theorem argAdded_refused {r : Register} {k : InsnId} {s : Linked Node}
    (h : r.ensureDetached s.vars = .error (.alreadyBound r.id k)) :
    argAdded (.register r) s =
      .error (.alreadyBound r.id (if s.insn.holds r.id then s.insn.id else k)) := by
  simp only [argAdded, Operand.id, Operand.attached, Register.attached, h]
  cases s.insn.holds r.id <;> rfl

theorem replacement_refused {r : Register} {index : Nat} {k : InsnId} {s : Linked Node}
    (hother : s.insn.argIndex r.id ≠ some index)
    (h : r.ensureDetached s.vars = .error (.alreadyBound r.id k)) :
    replacement index (.register r) s =
      .error (.alreadyBound r.id (if s.insn.holds r.id then s.insn.id else k)) := by
  cases hi : s.insn.argIndex (Operand.register r).id with
  | none =>
    have hnone : s.insn.argIndex r.id = none := hi
    simp only [replacement, hi, Operand.ensureDetached, h, holds, hnone]
    rfl
  | some i =>
    have hsome : s.insn.argIndex r.id = some i := hi
    have hne : i ≠ index := by
      rintro rfl
      exact hother hsome
    simp only [replacement, hi, if_neg hne, holds, hsome]
    rfl

theorem replacement_eq_ok {k : Nat} {a b : Operand} {s : Linked Node} :
    replacement k a s = .ok b ↔
      s.insn.argIndex a.id = some k ∧ b = a.detached ∨
        s.insn.argIndex a.id = none ∧ a.Free s.vars ∧ b = a := by
  cases hi : s.insn.argIndex a.id with
  | none =>
    simp only [replacement, hi, map_eq_ok, Operand.ensureDetached_eq_ok]
    constructor
    · rintro ⟨_, hfree, rfl⟩
      exact Or.inr ⟨trivial, hfree, rfl⟩
    · rintro (⟨h, -⟩ | ⟨-, hfree, rfl⟩)
      · cases h
      · exact ⟨(), hfree, rfl⟩
  | some j =>
    by_cases hj : j = k
    · simp [replacement, hi, hj, eq_comm]
    · simp [replacement, hi, hj]

/-- The form in which an operand is accepted differs in the owner at most. -/
theorem same_of_replacement {k : Nat} {a b : Operand} {s : Linked Node}
    (h : replacement k a s = .ok b) :
    b.id = a.id ∧ b.var? = a.var? ∧ ∀ i, b.ownedBy i = a.ownedBy i := by
  rcases replacement_eq_ok.1 h with ⟨-, rfl⟩ | ⟨-, -, rfl⟩
  · cases a <;> exact ⟨rfl, rfl, fun _ => rfl⟩
  · exact ⟨rfl, rfl, fun _ => rfl⟩

theorem removeArgAt_of_none {k : Nat} {s : Linked Node} (h : s.insn.args[k]? = none) :
    removeArgAt k s = .error (.indexOutOfRange k) s := by
  simp only [removeArgAt, h]

theorem removeArgAt_of_known {k : Nat} {s : Linked Node} {old : Operand}
    (h : s.insn.args[k]? = some old) (hv : s.vars.Knows old.var?) :
    removeArgAt k s = .ok old.detached
      { insn := { s.insn with args := s.insn.args.eraseIdx k },
        vars := s.vars.onVar old.var? (·.dropUse old.id) } := by
  simp only [removeArgAt, h, Operand.release_eq_ok.2 ⟨hv, rfl⟩]

/-- Whether or not the record is found, the operand is gone. -/
theorem finalState_removeArgAt {k : Nat} {s : Linked Node} {old : Operand}
    (h : s.insn.args[k]? = some old) :
    ∃ t, finalState (removeArgAt k s) =
        { insn := { s.insn with args := s.insn.args.eraseIdx k }, vars := t } ∧
      (t = s.vars ∨ t = s.vars.onVar old.var? (·.dropUse old.id)) := by
  simp only [removeArgAt, h]
  cases hr : old.release s.vars with
  | ok t => exact ⟨t, rfl, Or.inr (Operand.release_eq_ok.1 hr).2⟩
  | error e => exact ⟨s.vars, rfl, Or.inl rfl⟩

theorem occupied_eq_ok {k : Nat} {a : Operand} {s s' : Linked Node} :
    occupied k a s = .ok s' ↔ a.Free s.vars ∧
      s' = { insn := { s.insn with args := s.insn.args.set k (a.ownedBy s.insn.id) },
             vars := s.vars.onVar a.var? (·.recordUse ⟨a.id, some s.insn.id⟩) } := by
  simp only [occupied, bind_eq_ok, Operand.attached_eq_ok, pure, Except.pure, Except.ok.injEq]
  constructor
  · rintro ⟨_, ⟨hfree, rfl⟩, rfl⟩
    exact ⟨hfree, rfl⟩
  · rintro ⟨hfree, rfl⟩
    exact ⟨_, ⟨hfree, rfl⟩, rfl⟩

/-- Setting an argument asks, vacates the position and occupies it as a whole. -/
theorem setArg_of_replacement {k : Nat} {a b : Operand} {s : Linked Node}
    (h : replacement k a s = .ok b) :
    setArg k a s = (vacate k >>= fun old => atomically (occupied k b) >>= fun _ => pure old) s := by
  simp only [setArg, occupy_eq]
  exact bind_of_ok (ask_of_ok h)

/-- An operand that cannot be put at the position is refused before anything happens. -/
theorem setArg_refused {k : Nat} {a : Operand} {s : Linked Node} {e : Fault}
    (h : replacement k a s = .error e) : setArg k a s = .error e s :=
  bind_of_error (ask_of_error h)

/-- How far setting an argument gets: it is refused before anything happens, or the old operand is
detached first and then the new one attached, and either may fail. -/
theorem setArg_cases (k : Nat) (a : Operand) (s : Linked Node) :
    (∃ e, setArg k a s = .error e s) ∨
    ∃ old b t, s.insn.args[k]? = some old ∧ replacement k a s = .ok b ∧
      (t = s.vars ∧ ¬ s.vars.Knows old.var? ∨ t = s.vars.onVar old.var? (·.dropUse old.id)) ∧
      ((∃ e, e.OfRecords ∧
          setArg k a s = .error e
            { insn := { s.insn with args := s.insn.args.set k old.detached }, vars := t }) ∨
        (s.vars.Knows old.var? ∧ t = s.vars.onVar old.var? (·.dropUse old.id) ∧ b.Free t ∧
          setArg k a s = .ok old.detached
            { insn := { s.insn with args := s.insn.args.set k (b.ownedBy s.insn.id) },
              vars := t.onVar b.var? (·.recordUse ⟨b.id, some s.insn.id⟩) })) := by
  cases hrep : replacement k a s with
  | error e => exact Or.inl ⟨e, setArg_refused hrep⟩
  | ok b =>
    -- the operand is accepted; what is left is to vacate the position and to occupy it
    have hset : setArg k a s =
        (vacate k >>= fun old => atomically (occupied k b) >>= fun _ => pure old) s :=
      setArg_of_replacement hrep
    cases hold : s.insn.args[k]? with
    | none =>
      have hvac : vacate k s = .error (.indexOutOfRange k) s := by simp only [vacate, hold]
      exact Or.inl ⟨_, hset.trans (bind_of_error hvac)⟩
    | some old =>
      right
      cases hrel : old.release s.vars with
      | error e =>
        have hvac : vacate k s = .error e
            { insn := { s.insn with args := s.insn.args.set k old.detached }, vars := s.vars } := by
          simp only [vacate, hold, hrel]
        have hunknown : ¬ s.vars.Knows old.var? := by
          intro hknown
          rw [Operand.release_eq_ok.2 ⟨hknown, rfl⟩] at hrel
          cases hrel
        refine ⟨old, b, s.vars, rfl, rfl, Or.inl ⟨rfl, hunknown⟩, Or.inl ⟨e, ?_, ?_⟩⟩
        · exact Operand.release_error hrel
        · exact hset.trans (bind_of_error hvac)
      | ok t =>
        have hvac : vacate k s = .ok old.detached
            { insn := { s.insn with args := s.insn.args.set k old.detached }, vars := t } := by
          simp only [vacate, hold, hrel]
        rw [bind_of_ok hvac] at hset
        rcases Operand.release_eq_ok.1 hrel with ⟨hknown, ht⟩
        refine ⟨old, b, t, rfl, rfl, Or.inr ht, ?_⟩
        cases hocc : occupied k b
          { insn := { s.insn with args := s.insn.args.set k old.detached }, vars := t } with
        | error e =>
          refine Or.inl ⟨e, ?_, hset.trans (bind_of_error (atomically_of_error hocc))⟩
          cases hatt : b.attached s.insn.id t with
          | error f =>
            simp only [occupied, hatt, bind, Except.bind, Except.error.injEq] at hocc
            exact hocc ▸ Operand.attached_error hatt
          | ok r => simp [occupied, hatt, bind, Except.bind, pure, Except.pure] at hocc
        | ok s' =>
          rcases occupied_eq_ok.1 hocc with ⟨hfree, rfl⟩
          refine Or.inr ⟨hknown, ht, hfree, ?_⟩
          rw [hset, bind_of_ok (atomically_of_ok hocc)]
          simp [pure, EStateM.pure]

/-- Setting an argument that succeeds has put the operand over the one at the position, whether it
came as it is or was there already. -/
theorem setArg_of_ok {k : Nat} {a o : Operand} {s s' : Linked Node} (h : setArg k a s = .ok o s') :
    ∃ old, s.insn.args[k]? = some old ∧ o = old.detached ∧
      s' = { insn := { s.insn with args := s.insn.args.set k (a.ownedBy s.insn.id) },
             vars := (s.vars.onVar old.var? (·.dropUse old.id)).onVar a.var?
               (·.recordUse ⟨a.id, some s.insn.id⟩) } := by
  rcases setArg_cases k a s with
    ⟨e, heq⟩ | ⟨old, b, t, hold, hrep, -, ⟨e, -, heq⟩ | ⟨-, rfl, -, heq⟩⟩
  · rw [heq] at h
    cases h
  · rw [heq] at h
    cases h
  · rw [heq] at h
    cases h
    rcases same_of_replacement hrep with ⟨hid, hvar, howned⟩
    refine ⟨old, hold, rfl, ?_⟩
    rw [howned, hvar, hid]

/-- Removing an instance removes the argument at its position. -/
theorem removeArg_apply (a : OperandId) (s : Linked Node) :
    removeArg a s = match s.insn.argIndex a with
      | none => .ok false s
      | some k => ((fun _ => true) <$> removeArgAt k) s := by
  have hget : (get : Edit (Linked Node) (Linked Node)) s = .ok s s := rfl
  rw [show removeArg a s = _ from bind_of_ok hget]
  cases s.insn.argIndex a <;> rfl

/-- Replacing an instance sets the argument at its position. -/
theorem replaceArg_apply (old : OperandId) (a : Operand) (s : Linked Node) :
    replaceArg old a s = match s.insn.argIndex old with
      | none => .ok false s
      | some k => ((fun _ => true) <$> setArg k a) s := by
  have hget : (get : Edit (Linked Node) (Linked Node)) s = .ok s s := rfl
  rw [show replaceArg old a s = _ from bind_of_ok hget]
  cases s.insn.argIndex old <;> rfl

/-- A register that is not detached does not take the place of another argument. -/
theorem replaceArg_refused {old : OperandId} {r : Register} {k : InsnId} {s : Linked Node}
    (hold : s.insn.argIndex old ≠ none) (hother : old ≠ r.id)
    (h : r.ensureDetached s.vars = .error (.alreadyBound r.id k)) :
    replaceArg old (.register r) s =
      .error (.alreadyBound r.id (if s.insn.holds r.id then s.insn.id else k)) s := by
  rcases Option.ne_none_iff_exists'.1 hold with ⟨index, hindex⟩
  have hne : s.insn.argIndex r.id ≠ some index := by
    intro heq
    rcases argIndex_eq_some hindex with ⟨b, hb, hid⟩
    rcases argIndex_eq_some heq with ⟨b', hb', hid'⟩
    rw [hb, Option.some.injEq] at hb'
    exact hother (hid.symm.trans (hb' ▸ hid'))
  rw [replaceArg_apply]
  simp only [hindex]
  exact map_of_error (setArg_refused (replacement_refused hne h))

/-- Replacing succeeds without a change where the instance is missing, or it sets the argument. -/
theorem replaceArg_eq_ok {old : OperandId} {a : Operand} {b : Bool} {s s' : Linked Node} :
    replaceArg old a s = .ok b s' ↔
      (s.insn.argIndex old = none ∧ b = false ∧ s' = s) ∨
        ∃ k o, s.insn.argIndex old = some k ∧ setArg k a s = .ok o s' ∧ b = true := by
  rw [replaceArg_apply]
  cases s.insn.argIndex old with
  | none => simp [eq_comm]
  | some k => simp [run_map_eq_ok]

/-- Setting the result: the new variable has to be known, and so has the old one. -/
theorem resultSet_eq_ok {r : Register} {s s' : Linked Node} :
    resultSet r s = .ok s' ↔ s.vars.Knows r.var ∧
      s.vars.Knows (s.insn.result.bind (·.var)) ∧
      s' = { insn := { s.insn with result := some (r.ownedBy s.insn.id) },
             vars := (s.vars.forget s.insn.result).onVar r.var
               (·.define ⟨r.id, some s.insn.id⟩) } := by
  cases hres : s.insn.result with
  | none =>
    simp only [resultSet, hres, bind_eq_ok, VarTable.ensureKnown_eq_ok, VarTable.addDefiner_eq_ok,
      pure, Except.pure, Except.ok.injEq, Option.bind_none]
    constructor
    · rintro ⟨_, hr, _, rfl, _, ⟨-, rfl⟩, rfl⟩
      exact ⟨hr, s.vars.knows_none, rfl⟩
    · rintro ⟨hr, -, rfl⟩
      exact ⟨(), hr, _, rfl, _, ⟨hr, rfl⟩, rfl⟩
  | some old =>
    simp only [resultSet, hres, bind_eq_ok, VarTable.ensureKnown_eq_ok, VarTable.addDefiner_eq_ok,
      VarTable.removeDefiner_eq_ok, pure, Except.pure, Except.ok.injEq, Option.bind_some]
    constructor
    · rintro ⟨_, hr, _, ⟨hold, rfl⟩, _, ⟨-, rfl⟩, rfl⟩
      exact ⟨hr, hold, rfl⟩
    · rintro ⟨hr, hold, rfl⟩
      exact ⟨(), hr, _, ⟨hold, rfl⟩, _, ⟨VarTable.knows_onVar.2 hr, rfl⟩, rfl⟩

end Node

/-! ## Phis -/

namespace Phi

theorem argIndex_eq_none {p : Phi} {a : OperandId} :
    p.argIndex a = none ↔ ∀ r ∈ p.args, r.id ≠ a := by
  simp [argIndex, args, List.findIdx?_eq_none_iff]

theorem holds_eq_false {p : Phi} {a : OperandId} : p.holds a = false ↔ p.argIndex a = none := by
  rw [holds, Option.isSome_eq_false_iff, Option.isNone_iff_eq_none]

theorem argIndex_eq_some {p : Phi} {a : OperandId} {k : Nat} (h : p.argIndex a = some k) :
    ∃ b, p.bindings[k]? = some b ∧ b.arg.id = a := by
  rcases List.findIdx?_eq_some_iff_getElem.1 h with ⟨hk, hb, -⟩
  exact ⟨p.bindings[k], List.getElem?_eq_getElem hk, by simpa using hb⟩

theorem bindingInserted_eq_ok {k : Nat} {r : Register} {pred : BlockId} {s s' : Linked Phi} :
    bindingInserted k r pred s = .ok s' ↔
      pred ∉ s.insn.preds ∧ s.insn.argIndex r.id = none ∧ r.Free s.vars ∧
      s' = { insn := { s.insn with
               bindings := s.insn.bindings.insertIdx k ⟨r.ownedBy s.insn.id, pred⟩ },
             vars := (s.vars.onVar r.var (·.recordUse ⟨r.id, some s.insn.id⟩)).onVar r.var
               (·.addConsumer s.insn.id) } := by
  simp only [bindingInserted]
  rw [refusal_eq_ok, refusal_eq_ok, hasPredecessor_iff, holds, Option.not_isSome_iff_eq_none]
  refine and_congr_right fun _ => and_congr_right fun _ => ?_
  simp only [bind_eq_ok, Register.attached_eq_ok]
  constructor
  · rintro ⟨_, ⟨hfree, rfl⟩, t, ht, hs⟩
    rw [VarTable.addConsumerFor_eq_ok] at ht
    simp only [pure, Except.pure, Except.ok.injEq] at hs
    rw [ht.2] at hs
    exact ⟨hfree, hs.symm⟩
  · rintro ⟨hfree, rfl⟩
    exact ⟨_, ⟨hfree, rfl⟩, _,
      VarTable.addConsumerFor_eq_ok.2 ⟨VarTable.knows_onVar.2 hfree.known, rfl⟩, rfl⟩

/-- An argument that is bound comes after the others. -/
theorem argBound_eq_ok {r : Register} {pred : BlockId} {s s' : Linked Phi} :
    argBound r pred s = .ok s' ↔
      pred ∉ s.insn.preds ∧ s.insn.argIndex r.id = none ∧ r.Free s.vars ∧
      s' = { insn := { s.insn with
               bindings := s.insn.bindings ++ [⟨r.ownedBy s.insn.id, pred⟩] },
             vars := (s.vars.onVar r.var (·.recordUse ⟨r.id, some s.insn.id⟩)).onVar r.var
               (·.addConsumer s.insn.id) } := by
  rw [argBound, bindingInserted_eq_ok, List.insertIdx_length_self]

theorem bindingInserted_duplicate {k : Nat} {r : Register} {pred : BlockId} {s : Linked Phi}
    (h : pred ∈ s.insn.preds) :
    bindingInserted k r pred s = .error (.duplicatePredecessor pred s.insn.id) := by
  simp only [bindingInserted, hasPredecessor_iff.2 h, if_true]
  rfl

theorem hasPredecessor_eq_false {p : Phi} {pred : BlockId} (h : pred ∉ p.preds) :
    p.hasPredecessor pred = false := by
  rw [← Bool.not_eq_true, hasPredecessor_iff]
  exact h

theorem bindingInserted_held {k : Nat} {r : Register} {pred : BlockId} {s : Linked Phi}
    (hpred : pred ∉ s.insn.preds) (h : s.insn.argIndex r.id ≠ none) :
    bindingInserted k r pred s = .error (.alreadyBound r.id s.insn.id) := by
  have hp : s.insn.hasPredecessor pred = false := hasPredecessor_eq_false hpred
  have hh : s.insn.holds r.id = true := Option.isSome_iff_ne_none.2 h
  simp only [bindingInserted, hp, hh, if_true]
  rfl

theorem bindingInserted_of_attached_error {k : Nat} {r : Register} {pred : BlockId} {s : Linked Phi}
    {e : Fault} (hpred : pred ∉ s.insn.preds) (hindex : s.insn.argIndex r.id = none)
    (hattach : r.attached s.insn.id s.vars = .error e) : bindingInserted k r pred s = .error e := by
  have hp : s.insn.hasPredecessor pred = false := hasPredecessor_eq_false hpred
  have hh : s.insn.holds r.id = false := by
    rw [holds, hindex]
    rfl
  simp only [bindingInserted, hp, hh, Bool.false_eq_true, if_false, hattach]
  rfl

/-- A register that is not detached is refused, on account of the phi itself if that binds it. -/
theorem bindingInserted_refused {index : Nat} {r : Register} {pred : BlockId} {k : InsnId}
    {s : Linked Phi} (hpred : pred ∉ s.insn.preds)
    (h : r.ensureDetached s.vars = .error (.alreadyBound r.id k)) :
    bindingInserted index r pred s =
      .error (.alreadyBound r.id (if s.insn.holds r.id then s.insn.id else k)) := by
  simp only [bindingInserted, hasPredecessor_eq_false hpred, Register.attached, h]
  cases s.insn.holds r.id <;> rfl

theorem replacement_refused {old : OperandId} {r : Register} {k : InsnId} {s : Linked Phi}
    (hknown : s.vars.Knows r.var) (hother : r.id ≠ old)
    (h : r.ensureDetached s.vars = .error (.alreadyBound r.id k)) :
    replacement old r s =
      .error (.alreadyBound r.id (if s.insn.holds r.id then s.insn.id else k)) := by
  have hensured : s.vars.ensureKnown r.var = .ok () := VarTable.ensureKnown_eq_ok.2 hknown
  simp only [replacement, hensured, if_neg hother, h]
  cases s.insn.holds r.id <;> rfl

theorem release_eq_ok {r : Register} {t t' : VarTable} :
    release r t = .ok t' ↔ t.Knows r.var ∧
      t' = (t.onVar r.var (·.dropUse r.id)).onVar r.var (·.refreshConsumers) := by
  simp only [release, bind_eq_ok, VarTable.removeReader_eq_ok, VarTable.refreshConsumersFor_eq_ok]
  constructor
  · rintro ⟨_, ⟨hknown, rfl⟩, -, rfl⟩
    exact ⟨hknown, rfl⟩
  · rintro ⟨hknown, rfl⟩
    exact ⟨_, ⟨hknown, rfl⟩, VarTable.knows_onVar.2 hknown, rfl⟩

theorem removeArgAt_of_none {k : Nat} {s : Linked Phi} (h : s.insn.bindings[k]? = none) :
    removeArgAt k s = .error (.indexOutOfRange k) s := by
  simp only [removeArgAt, h]

theorem removeArgAt_of_known {k : Nat} {s : Linked Phi} {old : Binding}
    (h : s.insn.bindings[k]? = some old) (hv : s.vars.Knows old.arg.var) :
    removeArgAt k s = .ok old.arg.detached
      { insn := { s.insn with bindings := s.insn.bindings.eraseIdx k },
        vars := (s.vars.onVar old.arg.var (·.dropUse old.arg.id)).onVar old.arg.var
          (·.refreshConsumers) } := by
  simp only [removeArgAt, h, release_eq_ok.2 ⟨hv, rfl⟩]

/-- Whether or not the record is found, the binding is gone. -/
theorem finalState_removeArgAt {k : Nat} {s : Linked Phi} {old : Binding}
    (h : s.insn.bindings[k]? = some old) :
    ∃ t, finalState (removeArgAt k s) =
        { insn := { s.insn with bindings := s.insn.bindings.eraseIdx k }, vars := t } ∧
      (t = s.vars ∨ t = (s.vars.onVar old.arg.var (·.dropUse old.arg.id)).onVar old.arg.var
        (·.refreshConsumers)) := by
  simp only [removeArgAt, h]
  cases hr : release old.arg s.vars with
  | ok t => exact ⟨t, rfl, Or.inr (release_eq_ok.1 hr).2⟩
  | error e => exact ⟨s.vars, rfl, Or.inl rfl⟩

theorem replacement_eq_ok {old : OperandId} {r r' : Register} {s : Linked Phi} :
    replacement old r s = .ok r' ↔ s.vars.Knows r.var ∧
      (r.id = old ∧ r' = r.detached ∨
        r.id ≠ old ∧ s.insn.argIndex r.id = none ∧ r.Free s.vars ∧ r' = r) := by
  simp only [replacement, bind_eq_ok, VarTable.ensureKnown_eq_ok]
  constructor
  · rintro ⟨_, hknown, hrest⟩
    refine ⟨hknown, ?_⟩
    -- the bound instance itself is not asked whether it is detached
    by_cases hid : r.id = old
    · rw [if_pos hid] at hrest
      simp only [pure, Except.pure, Except.ok.injEq] at hrest
      exact Or.inl ⟨hid, hrest.symm⟩
    · rw [if_neg hid, refusal_eq_ok, holds, Option.not_isSome_iff_eq_none] at hrest
      rcases hrest with ⟨hindex, hrest⟩
      simp only [bind_eq_ok, Register.ensureDetached_eq_ok, pure, Except.pure,
        Except.ok.injEq] at hrest
      rcases hrest with ⟨_, hfree, rfl⟩
      exact Or.inr ⟨hid, hindex, hfree, rfl⟩
  · rintro ⟨hknown, ⟨hid, rfl⟩ | ⟨hid, hindex, hfree, rfl⟩⟩
    · exact ⟨(), hknown, if_pos hid⟩
    · refine ⟨(), hknown, ?_⟩
      rw [if_neg hid, refusal_eq_ok, holds, Option.not_isSome_iff_eq_none]
      exact ⟨hindex, bind_eq_ok.2 ⟨(), Register.ensureDetached_eq_ok.2 hfree, rfl⟩⟩

/-- The form in which a register is accepted differs in the owner at most. -/
theorem same_of_replacement {old : OperandId} {r r' : Register} {s : Linked Phi}
    (h : replacement old r s = .ok r') :
    r'.id = r.id ∧ r'.var = r.var ∧ ∀ i, r'.ownedBy i = r.ownedBy i := by
  rcases replacement_eq_ok.1 h with ⟨-, ⟨-, rfl⟩ | ⟨-, -, -, rfl⟩⟩ <;>
    exact ⟨rfl, rfl, fun _ => rfl⟩

/-- Removing an instance removes the binding at its position. -/
theorem removeArg_apply (a : OperandId) (s : Linked Phi) :
    removeArg a s = match s.insn.argIndex a with
      | none => .ok false s
      | some k => ((fun _ => true) <$> removeArgAt k) s := by
  have hget : (get : Edit (Linked Phi) (Linked Phi)) s = .ok s s := rfl
  rw [show removeArg a s = _ from bind_of_ok hget]
  cases s.insn.argIndex a <;> rfl

/-- Replacing is a refusal that changes nothing, or a removal followed by a
binding at the same place. -/
theorem replaceArg_apply (old : OperandId) (r : Register) (s : Linked Phi) :
    replaceArg old r s = match s.insn.argIndex old with
      | none => .ok false s
      | some k => match s.insn.blockAt? k with
        | none => .error (.unknownPredecessor old s.insn.id) s
        | some pred => match replacement old r s with
          | .error e => .error e s
          | .ok r' => (removeArgAt k >>= fun _ => atomically (bindingInserted k r' pred) >>= fun _ =>
              pure true) s := by
  have hget : (get : Edit (Linked Phi) (Linked Phi)) s = .ok s s := rfl
  rw [show replaceArg old r s = _ from bind_of_ok hget]
  cases s.insn.argIndex old with
  | none => rfl
  | some k =>
    simp only
    cases s.insn.blockAt? k with
    | none => rfl
    | some pred =>
      simp only
      cases hrep : replacement old r s with
      | error e => exact bind_of_error (ask_of_error hrep)
      | ok r' =>
        simp only [insertBinding_eq]
        exact bind_of_ok (ask_of_ok hrep)

/-- A register that is not detached does not take the place of another argument. -/
theorem replaceArg_refused {old : OperandId} {r : Register} {k : InsnId} {s : Linked Phi}
    (hold : s.insn.argIndex old ≠ none) (hknown : s.vars.Knows r.var) (hother : old ≠ r.id)
    (h : r.ensureDetached s.vars = .error (.alreadyBound r.id k)) :
    replaceArg old r s =
      .error (.alreadyBound r.id (if s.insn.holds r.id then s.insn.id else k)) s := by
  rcases Option.ne_none_iff_exists'.1 hold with ⟨index, hindex⟩
  rcases argIndex_eq_some hindex with ⟨b, hb, -⟩
  have hblock : s.insn.blockAt? index = some b.pred := by
    rw [blockAt?, hb]
    rfl
  rw [replaceArg_apply]
  simp only [hindex, hblock, replacement_refused hknown hother.symm h]

/-- Replacing succeeds without a change where the instance is missing, or it removes a binding and
puts another one in its place. -/
theorem replaceArg_eq_ok {old : OperandId} {r : Register} {b : Bool} {s s' : Linked Phi} :
    replaceArg old r s = .ok b s' ↔
      (s.insn.argIndex old = none ∧ b = false ∧ s' = s) ∨
        ∃ k pred r' o s₁, s.insn.argIndex old = some k ∧ s.insn.blockAt? k = some pred ∧
          replacement old r s = .ok r' ∧ removeArgAt k s = .ok o s₁ ∧
          bindingInserted k r' pred s₁ = .ok s' ∧ b = true := by
  rw [replaceArg_apply]
  cases s.insn.argIndex old with
  | none => simp [eq_comm]
  | some k =>
    cases hblock : s.insn.blockAt? k with
    | none => simp [hblock]
    | some pred =>
      cases hrep : replacement old r s with
      | error e => simp [hblock]
      | ok r' =>
        simp only [hblock, run_bind_eq_ok, run_atomically_eq_ok]
        constructor
        · rintro ⟨o, s₁, hremove, u, s₂, hins, hpure⟩
          cases hpure
          exact Or.inr ⟨k, pred, r', o, s₁, rfl, hblock, rfl, hremove, hins, rfl⟩
        · rintro (⟨hnone, -⟩ | ⟨_, _, _, o, s₁, ⟨⟩, hblock', ⟨⟩, hremove, hins, rfl⟩)
          · cases hnone
          · rw [hblock, Option.some.injEq] at hblock'
            subst hblock'
            exact ⟨o, s₁, hremove, (), s', hins, rfl⟩

end Phi

/-! ## Renaming -/

namespace Insn

theorem varAttached_node_eq_ok {k : Nat} {v : VarId} {n : Node} {t : VarTable} {s' : Linked Insn} :
    varAttached k v ⟨.node n, t⟩ = .ok s' ↔ ∃ r t', n.args[k]? = some (.register r) ∧
      readerMoved r v t = .ok t' ∧
      s' = ⟨.node { n with args := n.args.set k (.register (r.naming v)) }, t'⟩ := by
  simp only [varAttached, bind_eq_ok, VarTable.ensureKnown_eq_ok]
  constructor
  · rintro ⟨_, -, hrest⟩
    cases hb : n.args[k]? with
    | none => simp [hb] at hrest
    | some b =>
      cases b with
      | literal l => simp [hb] at hrest
      | register r =>
        simp only [hb, bind_eq_ok, pure, Except.pure, Except.ok.injEq] at hrest
        rcases hrest with ⟨t', ht', rfl⟩
        exact ⟨r, t', rfl, ht', rfl⟩
  · rintro ⟨r, t', hb, ht', rfl⟩
    refine ⟨(), VarTable.knows_some.2 (readerMoved_eq_ok.1 ht').1, ?_⟩
    simp only [hb, bind_eq_ok, ht', pure, Except.pure]
    exact ⟨t', rfl, rfl⟩

theorem varAttached_phi_eq_ok {k : Nat} {v : VarId} {p : Phi} {t : VarTable} {s' : Linked Insn} :
    varAttached k v ⟨.phi p, t⟩ = .ok s' ↔ ∃ b t', p.bindings[k]? = some b ∧
      readerMoved b.arg v t = .ok t' ∧
      s' = ⟨.phi { p with bindings := p.bindings.set k { b with arg := b.arg.naming v } },
        (t'.onVar b.arg.var (·.refreshConsumers)).onVar (some v) (·.addConsumer p.id)⟩ := by
  simp only [varAttached, bind_eq_ok, VarTable.ensureKnown_eq_ok]
  constructor
  · rintro ⟨_, -, hrest⟩
    cases hb : p.bindings[k]? with
    | none => simp [hb] at hrest
    | some b =>
      simp only [hb, bind_eq_ok, VarTable.refreshConsumersFor_eq_ok, VarTable.addConsumer,
        VarTable.update_eq_ok, pure, Except.pure, Except.ok.injEq] at hrest
      rcases hrest with ⟨t', ht', _, ⟨-, rfl⟩, _, ⟨-, rfl⟩, rfl⟩
      exact ⟨b, t', rfl, ht', rfl⟩
  · rintro ⟨b, t', hb, ht', rfl⟩
    rcases readerMoved_eq_ok.1 ht' with ⟨hv, hknown, -, rfl⟩
    refine ⟨(), VarTable.knows_some.2 hv, ?_⟩
    simp only [hb, bind_eq_ok, ht', VarTable.refreshConsumersFor_eq_ok, VarTable.addConsumer,
      VarTable.update_eq_ok, pure, Except.pure, Except.ok.injEq]
    refine ⟨_, rfl, _, ⟨?_, rfl⟩, _, ⟨?_, rfl⟩, rfl⟩
    · simpa using hknown
    · simpa using hv

/-- Choosing the variable of a result: there has to be a result, and it may not have one yet. -/
theorem resultAssigned_eq_ok {v : VarId} {s s' : Linked Insn} :
    resultAssigned v s = .ok s' ↔ v ∈ s.vars ∧ ∃ r, s.insn.result? = some r ∧ r.var = none ∧
      s' = { insn := s.insn.withResult (r.naming v),
             vars := s.vars.onVar (some v) (·.define r.site) } := by
  simp only [resultAssigned, bind_eq_ok, VarTable.ensureKnown_eq_ok, VarTable.knows_some]
  constructor
  · rintro ⟨_, hv, hrest⟩
    refine ⟨hv, ?_⟩
    cases hres : s.insn.result? with
    | none => simp [hres] at hrest
    | some r =>
      simp only [hres] at hrest
      cases hvar : r.var with
      | some w => simp [hvar, bind, Except.bind] at hrest
      | none =>
        simp only [hvar, Option.isSome_none, Bool.false_eq_true, if_false, bind_eq_ok,
          VarTable.define, VarTable.update_eq_ok, pure, Except.pure, Except.ok.injEq] at hrest
        rcases hrest with ⟨_, ⟨-, rfl⟩, rfl⟩
        exact ⟨r, rfl, hvar, rfl⟩
  · rintro ⟨hv, r, hres, hvar, rfl⟩
    refine ⟨(), hv, ?_⟩
    simp only [hres, hvar, Option.isSome_none, Bool.false_eq_true, if_false, bind_eq_ok,
      VarTable.define, VarTable.update_eq_ok, pure, Except.pure, Except.ok.injEq]
    exact ⟨_, ⟨hv, rfl⟩, rfl⟩

end Insn

end SsaForm
