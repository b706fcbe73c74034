import SsaForm.Proofs.Steps

/-!
# SsaForm.Proofs.ReaderChanges — what changing arguments does to the table

An edit of arguments changes the table in four ways only: it records an instance as a use, drops
one, lists a consumer or looks at the consumers anew. `VarTable.KeptByReaders A T` says that a
property `T` of tables survives these, where the instances that are recorded or dropped are in `A`;
then it survives the edits that are given instances in `A` or find them where they act. The edits
may fail at any point, and nothing is assumed about the table.
-/

namespace SsaForm

open Edit

namespace VarTable

/-- A property of tables that survives changes of readings by the instances in `A`. -/
structure KeptByReaders (A : OperandId → Prop) (T : VarTable → Prop) : Prop where
  recordUse : ∀ t v a i, A a → T t → T (t.onVar v (·.recordUse ⟨a, i⟩))
  dropUse : ∀ t v a, A a → T t → T (t.onVar v (·.dropUse a))
  addConsumer : ∀ t v p, T t → T (t.onVar v (·.addConsumer p))
  refreshConsumers : ∀ t v, T t → T (t.onVar v (·.refreshConsumers))

/-- What is read of each variable, if none of the changes is seen. -/
theorem same_keptByReaders {β : Type} {A : OperandId → Prop} {π : Variable → β}
    (hrecord : ∀ x a i, A a → π (x.recordUse ⟨a, i⟩) = π x)
    (hdrop : ∀ x a, A a → π (x.dropUse a) = π x)
    (hconsumers : ∀ (x : Variable) l, π { x with consumers := l } = π x) (t₀ : VarTable) :
    KeptByReaders A (Same π t₀) where
  recordUse t v a i ha h := h.trans (same_onVar (fun x => hrecord x a i ha) t v)
  dropUse t v a ha h := h.trans (same_onVar (fun x => hdrop x a ha) t v)
  addConsumer t v p h := by
    refine h.trans (same_onVar (fun x => ?_) t v)
    unfold Variable.addConsumer
    split
    · rfl
    · exact hconsumers x _
  refreshConsumers t v h := h.trans (same_onVar (fun x => hconsumers x _) t v)

namespace KeptByReaders

variable {A : OperandId → Prop} {T : VarTable → Prop} (h : KeptByReaders A T)

include h

/-- A use that may have been dropped. -/
theorem dropped {t u : VarTable} {v : Option VarId} {a : OperandId} (ha : A a) (ht : T t)
    (hu : u = t ∨ u = t.onVar v (·.dropUse a)) : T u := by
  rcases hu with rfl | rfl
  · exact ht
  · exact h.dropUse t v a ha ht

/-! ## Nodes -/

theorem node_addArg {a : Operand} (ha : A a.id) :
    Keeps (fun s : Linked Node => T s.vars) (atomically (Node.argAdded a)) := by
  refine keeps_atomically fun s s' hs hok => ?_
  rcases Node.argAdded_eq_ok.1 hok with ⟨-, -, rfl⟩
  exact h.recordUse _ _ _ _ ha hs

theorem node_removeArgAt {k : Nat} {s : Linked Node} (hs : T s.vars)
    (ha : ∀ old, s.insn.args[k]? = some old → A old.id) :
    T (finalState (Node.removeArgAt k s)).vars := by
  cases hold : s.insn.args[k]? with
  | none =>
    rw [Node.removeArgAt_of_none hold]
    exact hs
  | some old =>
    rcases Node.finalState_removeArgAt hold with ⟨t, heq, ht⟩
    rw [heq]
    exact h.dropped (ha old hold) hs ht

theorem node_setArg {k : Nat} {a : Operand} {s : Linked Node} (hs : T s.vars) (ha : A a.id)
    (hold : ∀ old, s.insn.args[k]? = some old → A old.id) :
    T (finalState (Node.setArg k a s)).vars := by
  rcases Node.setArg_cases k a s with
    ⟨e, heq⟩ | ⟨old, b, t, hk, hrep, ht, ⟨e, -, heq⟩ | ⟨-, -, -, heq⟩⟩
  · rw [heq]
    exact hs
  · rw [heq]
    exact h.dropped (hold old hk) hs (ht.imp_left And.left)
  · rw [heq]
    have hb : b.id = a.id := (Node.same_of_replacement hrep).1
    exact h.recordUse _ _ _ _ (hb ▸ ha) (h.dropped (hold old hk) hs (ht.imp_left And.left))

theorem node_removeArg {a : OperandId} {s : Linked Node} (hs : T s.vars) (ha : A a) :
    T (finalState (Node.removeArg a s)).vars := by
  rw [Node.removeArg_apply]
  cases hk : s.insn.argIndex a with
  | none => exact hs
  | some k =>
    rcases Node.argIndex_eq_some hk with ⟨b, hb, rfl⟩
    rw [finalState_map]
    refine h.node_removeArgAt hs fun old hold => ?_
    rw [hb, Option.some.injEq] at hold
    exact hold ▸ ha

theorem node_replaceArg {old : OperandId} {a : Operand} {s : Linked Node} (hs : T s.vars)
    (hold : A old) (ha : A a.id) : T (finalState (Node.replaceArg old a s)).vars := by
  rw [Node.replaceArg_apply]
  cases hk : s.insn.argIndex old with
  | none => exact hs
  | some k =>
    rcases Node.argIndex_eq_some hk with ⟨b, hb, rfl⟩
    rw [finalState_map]
    refine h.node_setArg hs ha fun c hc => ?_
    rw [hb, Option.some.injEq] at hc
    exact hc ▸ hold

theorem node_unbindAll {s : Linked Node} (hs : T s.vars) (ha : ∀ b ∈ s.insn.args, A b.id) :
    T (finalState (Node.unbindAll s)).vars := by
  -- the arguments that are left are among those that were there
  have hkept : Keeps (fun s : Linked Node => T s.vars ∧ ∀ b ∈ s.insn.args, A b.id)
      Node.unbindAll := by
    refine Node.keeps_unbindAll fun k s hs => ⟨?_, ?_⟩
    · exact h.node_removeArgAt hs.1 fun old hold => hs.2 old (List.mem_of_getElem? hold)
    · cases hold : s.insn.args[k]? with
      | none =>
        rw [Node.removeArgAt_of_none hold]
        exact hs.2
      | some old =>
        rcases Node.finalState_removeArgAt hold with ⟨t, heq, -⟩
        rw [heq]
        exact fun b hb => hs.2 b (List.mem_of_mem_eraseIdx hb)
  exact (hkept s ⟨hs, ha⟩).1

/-! ## Phis -/

theorem phi_insertBinding (k : Nat) {r : Register} (pred : BlockId) (ha : A r.id) :
    Keeps (fun s : Linked Phi => T s.vars) (atomically (Phi.bindingInserted k r pred)) := by
  refine keeps_atomically fun s s' hs hok => ?_
  rcases Phi.bindingInserted_eq_ok.1 hok with ⟨-, -, -, rfl⟩
  exact h.addConsumer _ _ _ (h.recordUse _ _ _ _ ha hs)

theorem phi_removeArgAt {k : Nat} {s : Linked Phi} (hs : T s.vars)
    (ha : ∀ old, s.insn.bindings[k]? = some old → A old.arg.id) :
    T (finalState (Phi.removeArgAt k s)).vars := by
  cases hold : s.insn.bindings[k]? with
  | none =>
    rw [Phi.removeArgAt_of_none hold]
    exact hs
  | some old =>
    rcases Phi.finalState_removeArgAt hold with ⟨t, heq, rfl | rfl⟩
    · rw [heq]
      exact hs
    · rw [heq]
      exact h.refreshConsumers _ _ (h.dropUse _ _ _ (ha old hold) hs)

theorem phi_removeArg {a : OperandId} {s : Linked Phi} (hs : T s.vars) (ha : A a) :
    T (finalState (Phi.removeArg a s)).vars := by
  rw [Phi.removeArg_apply]
  cases hk : s.insn.argIndex a with
  | none => exact hs
  | some k =>
    rcases Phi.argIndex_eq_some hk with ⟨b, hb, rfl⟩
    rw [finalState_map]
    refine h.phi_removeArgAt hs fun old hold => ?_
    rw [hb, Option.some.injEq] at hold
    exact hold ▸ ha

theorem phi_replaceArg {old : OperandId} {r : Register} {s : Linked Phi} (hs : T s.vars)
    (hold : A old) (ha : A r.id) : T (finalState (Phi.replaceArg old r s)).vars := by
  rw [Phi.replaceArg_apply]
  cases hk : s.insn.argIndex old with
  | none => exact hs
  | some k =>
    simp only
    cases s.insn.blockAt? k with
    | none => exact hs
    | some pred =>
      simp only
      cases hrep : Phi.replacement old r s with
      | error e => exact hs
      | ok r' =>
        simp only
        have hid : r'.id = r.id := (Phi.same_of_replacement hrep).1
        rcases Phi.argIndex_eq_some hk with ⟨b, hb, rfl⟩
        have hremoved : T (finalState (Phi.removeArgAt k s)).vars := by
          refine h.phi_removeArgAt hs fun c hc => ?_
          rw [hb, Option.some.injEq] at hc
          exact hc ▸ hold
        -- the binding comes after the removal, if that has not failed
        rw [bind_apply]
        cases hr : Phi.removeArgAt k s with
        | error e s₁ =>
          rw [hr] at hremoved
          exact hremoved
        | ok o s₁ =>
          rw [hr] at hremoved
          have hbound : T (finalState (atomically (Phi.bindingInserted k r' pred) s₁)).vars :=
            h.phi_insertBinding k pred (hid ▸ ha) s₁ hremoved
          simp only [bind_apply]
          cases hi : atomically (Phi.bindingInserted k r' pred) s₁ with
          | error e s₂ =>
            rw [hi] at hbound
            exact hbound
          | ok u s₂ =>
            rw [hi] at hbound
            exact hbound

theorem phi_unbindAll {s : Linked Phi} (hs : T s.vars) (ha : ∀ b ∈ s.insn.bindings, A b.arg.id) :
    T (finalState (Phi.unbindAll s)).vars := by
  have hkept : Keeps (fun s : Linked Phi => T s.vars ∧ ∀ b ∈ s.insn.bindings, A b.arg.id)
      Phi.unbindAll := by
    refine Phi.keeps_unbindAll fun k s hs => ⟨?_, ?_⟩
    · exact h.phi_removeArgAt hs.1 fun old hold => hs.2 old (List.mem_of_getElem? hold)
    · cases hold : s.insn.bindings[k]? with
      | none =>
        rw [Phi.removeArgAt_of_none hold]
        exact hs.2
      | some old =>
        rcases Phi.finalState_removeArgAt hold with ⟨t, heq, -⟩
        rw [heq]
        exact fun b hb => hs.2 b (List.mem_of_mem_eraseIdx hb)
  exact (hkept s ⟨hs, ha⟩).1

/-! ## Renaming -/

theorem moveReader {t t' : VarTable} {r : Register} {v : VarId} (ht : T t) (ha : A r.id)
    (hmove : Insn.readerMoved r v t = .ok t') : T t' := by
  rcases Insn.readerMoved_eq_ok.1 hmove with ⟨-, -, -, rfl⟩
  exact h.recordUse _ _ _ _ ha (h.dropUse _ _ _ ha ht)

theorem attachVar {k : Nat} {v : VarId} {s s' : Linked Insn} (ht : T s.vars)
    (ha : ∀ b, s.insn.args[k]? = some b → A b.id) (hok : Insn.varAttached k v s = .ok s') :
    T s'.vars := by
  obtain ⟨i, t⟩ := s
  cases i with
  | node n =>
    rcases Insn.varAttached_node_eq_ok.1 hok with ⟨r, t', hr, hmove, rfl⟩
    exact h.moveReader ht (ha _ hr) hmove
  | phi p =>
    rcases Insn.varAttached_phi_eq_ok.1 hok with ⟨b, t', hb, hmove, rfl⟩
    have harg : (Insn.phi p).args[k]? = some (.register b.arg) := by
      simp [Insn.args, Phi.args, hb]
    exact h.addConsumer _ (some v) p.id
      (h.refreshConsumers _ b.arg.var (h.moveReader ht (ha _ harg) hmove))

end KeptByReaders

end VarTable

end SsaForm
