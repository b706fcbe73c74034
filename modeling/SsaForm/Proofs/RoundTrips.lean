import SsaForm.Proofs.Attaching

/-!
# SsaForm.Proofs.RoundTrips — attaching and detaching again

An operand that was attached and is detached right away leaves no trace: the method is the one before
the attachment, the order of all uses and consumers included, and the handle that comes back is the
one that was given.

That the records come back rests on the invariant of the mutators. A detached instance has no use of
its variable, so the new use stands at the end and filtering by the instance takes away nothing else.
Looking at the consumers anew drops this phi exactly if the binding had listed it, and no other phi,
since every listed phi reads the variable in some other place.
-/

namespace SsaForm

open Edit

/-- A handle without an owner is given an owner and loses it again. -/
theorem Register.detached_ownedBy {r : Register} (h : r.owner = none) (i : InsnId) :
    (r.ownedBy i).detached = r := by
  obtain ⟨a, reg, type, var, owner⟩ := r
  cases h
  rfl

/-! ## The records of one variable -/

namespace Variable

variable {x : Variable} {U : OperandId → InsnId → Prop} {Q : InsnId → Prop}

/-- The use of an instance that had none is forgotten without a trace. -/
theorem UsesAre.dropUse_recordUse (h : x.UsesAre U) {a : OperandId} (hnew : ∀ j, ¬ U a j)
    (i : Option InsnId) : (x.recordUse ⟨a, i⟩).dropUse a = x := by
  have huses : (x.recordUse ⟨a, i⟩).uses = x.uses ++ [⟨a, i⟩] :=
    Site.upsert_of_new (h.operand_ne hnew)
  have hkept : x.uses.filter (fun s => s.operand != a) = x.uses := by
    refine List.filter_eq_self.2 fun s hs => ?_
    exact bne_iff_ne.2 (h.operand_ne hnew s hs)
  have hback : (x.recordUse ⟨a, i⟩).uses.filter (fun s => s.operand != a) = x.uses := by
    rw [huses, List.filter_append, hkept]
    simp
  unfold Variable.dropUse
  rw [hback]
  rfl

theorem dropUse_addConsumer (x : Variable) (p : InsnId) (a : OperandId) :
    (x.addConsumer p).dropUse a = (x.dropUse a).addConsumer p := by
  unfold addConsumer dropUse
  split <;> rfl

/-- Where exactly the users are listed, a consumer that is no user is dropped again. -/
theorem UsesAre.refreshConsumers_addConsumer (h : x.UsesAre U) (hQ : x.ConsumersAre Q)
    (hused : ∀ q, Q q → ∃ a, U a q) {p : InsnId} (hlisted : ∀ a, U a p → Q p) :
    (x.addConsumer p).refreshConsumers = x := by
  have hkept : x.consumers.filter x.usedIn = x.consumers := by
    refine List.filter_eq_self.2 fun q hq => h.usedIn_iff.2 (hused q ((hQ.mem q).1 hq))
  by_cases hp : p ∈ x.consumers
  · simp only [addConsumer, if_pos hp, refreshConsumers, hkept]
  · have hunused : x.usedIn p = false := by
      rw [← Bool.not_eq_true, h.usedIn_iff]
      rintro ⟨a, ha⟩
      exact hp ((hQ.mem p).2 (hlisted a ha))
    have husedIn : (x.addConsumer p).usedIn = x.usedIn := by
      funext q
      simp only [usedIn, uses_addConsumer]
    simp only [refreshConsumers, husedIn]
    simp [addConsumer, if_neg hp, hkept, hunused]

end Variable

namespace Method

variable {m : Method} {id : InsnId}

/-! ## The records of the table -/

/-- Nothing reads the variable of a free register through its instance. -/
theorem Coherent.not_reads_of_free (h : m.Coherent) {r : Register} (hfree : r.Free m.vars) {v : VarId}
    {x : Variable} (hv : r.var = some v) (hx : m.vars.get? v = some x) (k : InsnId) :
    ¬ m.Reads v r.id k :=
  (h.readers.uses v x hx).useSite_eq_none.1 (hfree.unused v x hv hx) k

theorem Coherent.dropUse_recordUse (h : m.Coherent) {a : Operand} (hfree : a.Free m.vars)
    (i : Option InsnId) :
    (m.vars.onVar a.var? (·.recordUse ⟨a.id, i⟩)).onVar a.var? (·.dropUse a.id) = m.vars := by
  cases a with
  | literal l => rfl
  | register r =>
    rw [VarTable.onVar_onVar]
    refine VarTable.onVar_eq_self fun v x hv hx => ?_
    exact (h.readers.uses v x hx).dropUse_recordUse (h.not_reads_of_free hfree hv hx) i

/-- A phi that comes to read a variable and ceases to do so leaves the table as it was. -/
theorem Coherent.release_attached (h : m.Coherent) {p : Phi} (hp : m.insn? id = some (.phi p))
    {r : Register} (hfree : r.Free m.vars) :
    (((m.vars.onVar r.var (·.recordUse ⟨r.id, some id⟩)).onVar r.var (·.addConsumer id)).onVar
      r.var (·.dropUse r.id)).onVar r.var (·.refreshConsumers) = m.vars := by
  simp only [VarTable.onVar_onVar]
  refine VarTable.onVar_eq_self fun v x hv hx => ?_
  have huses := h.readers.uses v x hx
  rw [Variable.dropUse_addConsumer,
    huses.dropUse_recordUse (h.not_reads_of_free hfree hv hx) (some id)]
  refine huses.refreshConsumers_addConsumer (h.readers.consumers v x hx) ?_ ?_
  · intro q hq
    exact (consumes_iff.1 hq).2
  · intro a ha
    exact consumes_iff.2 ⟨⟨p, hp⟩, a, ha⟩

/-! ## The instructions -/

/-- Removing the binding that was added last gives back the argument and the phi. -/
theorem Coherent.removeArgAt_argBound (h : m.Coherent) {p : Phi} (hp : m.insn? id = some (.phi p))
    {r : Register} {pred : BlockId} {s : Linked Phi}
    (hbound : Phi.argBound r pred ⟨p, m.vars⟩ = .ok s) :
    Phi.removeArgAt p.bindings.length s = .ok r ⟨p, m.vars⟩ := by
  have hid : p.id = id := (h.formed id _ hp).id_eq
  subst hid
  rcases Phi.argBound_eq_ok.1 hbound with ⟨-, -, hfree, rfl⟩
  have hlast : (p.bindings ++ [(⟨r.ownedBy p.id, pred⟩ : Binding)])[p.bindings.length]? =
      some ⟨r.ownedBy p.id, pred⟩ := List.getElem?_concat_length
  have hrest : (p.bindings ++ [(⟨r.ownedBy p.id, pred⟩ : Binding)]).eraseIdx p.bindings.length =
      p.bindings := by
    simp [List.eraseIdx_append_of_length_le]
  have hback : (r.ownedBy p.id).detached = r := Register.detached_ownedBy hfree.owner p.id
  rw [Phi.removeArgAt_of_known hlast (VarTable.knows_onVar.2 (VarTable.knows_onVar.2 hfree.known))]
  simp only [hrest, hback]
  exact congrArg (fun t => EStateM.Result.ok r (⟨p, t⟩ : Linked Phi)) (h.release_attached hp hfree)

/-- Removing the operand that was appended last gives back the node. -/
theorem Coherent.removeArg_argAdded (h : m.Coherent) {n : Node} (hn : m.insn? id = some (.node n))
    {a : Operand} {s : Linked Node} (hadded : Node.argAdded a ⟨n, m.vars⟩ = .ok s) :
    Node.removeArg a.id s = .ok true ⟨n, m.vars⟩ := by
  have hformed := Node.formedAt_addArg (h.formed id _ hn) hadded
  rcases Node.argAdded_eq_ok.1 hadded with ⟨-, hfree, rfl⟩
  have hlast : (n.args ++ [a.ownedBy n.id])[n.args.length]? = some (a.ownedBy n.id) :=
    List.getElem?_concat_length
  have hrest : (n.args ++ [a.ownedBy n.id]).eraseIdx n.args.length = n.args := by
    simp [List.eraseIdx_append_of_length_le]
  have hindex := Node.argIndex_of_getElem? hformed hlast
  rw [Operand.id_ownedBy] at hindex
  have hknown : m.vars.Knows (a.ownedBy n.id).var? := by
    rw [Operand.var?_ownedBy]
    exact hfree.known
  have hremove := Node.removeArgAt_of_known
    (s := ⟨{ n with args := n.args ++ [a.ownedBy n.id] },
      m.vars.onVar a.var? (·.recordUse ⟨a.id, some n.id⟩)⟩) hlast (VarTable.knows_onVar.2 hknown)
  simp only [hrest, Operand.var?_ownedBy, Operand.id_ownedBy,
    h.dropUse_recordUse hfree (some n.id)] at hremove
  rw [Node.removeArg_apply]
  simp only [hindex]
  exact run_map_eq_ok.2 ⟨_, hremove, rfl⟩

/-! ## The calls -/

variable {r : Register} {pred : BlockId} {a : Operand} {b : Answer} {s s' : Supply}

/-- An argument that was bound is the last one of the phi, and with its removal the phi and the records
are what they were. -/
theorem Coherent.bind_unbind (h : m.Coherent) (hoff : m.checks.afterMutation = false)
    (hok : (⟨.bindPhiArg id r pred, s⟩ : Call).verdict m = .ok b) :
    ∃ p, m.insn? id = some (.phi p) ∧ r.owner = none ∧
      let bound := (⟨.bindPhiArg id r pred, s⟩ : Call).next m
      let last : Call := ⟨.removePhiArgAt id p.bindings.length, s'⟩
      bound.insn? id = some (.phi { p with bindings := p.bindings ++ [⟨r.ownedBy id, pred⟩] }) ∧
        last.verdict bound = .ok (.operand (.register r)) ∧ last.next bound = m := by
  rcases call_of_ok id rfl hok with ⟨i, u, t, hi, hact, -, hnext⟩
  cases i with
  | node n => cases hact
  | phi p =>
    rcases (Insn.edit_phi_eq_ok _ _).1 hact with ⟨t, hbind, rfl⟩
    have hbound := Phi.run_bindArg.1 hbind
    have hremove := h.removeArgAt_argBound hi hbound
    have hafter := insn?_putInsn_self hi t.ofPhi
    have hlast := call_of_edit (c := ⟨.removePhiArgAt id p.bindings.length, s'⟩) rfl hafter
      hoff (Insn.edit_phi_of_ok _ _ hremove)
    rw [putInsn_putInsn] at hlast
    have hid : p.id = id := (h.formed id _ hi).id_eq
    subst hid
    rcases Phi.argBound_eq_ok.1 hbound with ⟨-, -, hfree, rfl⟩
    refine ⟨p, hi, hfree.owner, ?_⟩
    simp only [hnext]
    exact ⟨hafter, hlast.1, hlast.2.trans (putInsn_self hi)⟩

/-- So it is with an operand of a node. -/
theorem Coherent.add_remove (h : m.Coherent) (hoff : m.checks.afterMutation = false)
    (hok : (⟨.addArg id a, s⟩ : Call).verdict m = .ok b) :
    let added := (⟨.addArg id a, s⟩ : Call).next m
    let remove : Call := ⟨.removeArg id a, s'⟩
    remove.verdict added = .ok (.flag true) ∧ remove.next added = m := by
  rcases call_of_ok id rfl hok with ⟨i, u, t, hi, hact, -, hnext⟩
  cases i with
  | phi p => cases hact
  | node n =>
    rcases (Insn.edit_node_eq_ok _ _).1 hact with ⟨t, hadd, rfl⟩
    have hremove := h.removeArg_argAdded hi (Node.run_addArg.1 hadd)
    have hcall := call_of_edit (c := ⟨.removeArg id a, s'⟩) rfl (insn?_putInsn_self hi t.ofNode)
      hoff (Insn.edit_node_of_ok _ _ hremove)
    rw [putInsn_putInsn] at hcall
    simp only [hnext]
    exact ⟨hcall.1, hcall.2.trans (putInsn_self hi)⟩

/-- **Attaching and detaching again.** In a state that calls without failures have reached, and where
the method does not check itself: an argument that a phi has bound stands at its end, and removing it
there returns the handle that was given; an operand that a node has taken is found when it is removed.
Either way the method is the one before, with its records in the same order. -/
theorem attach_detach {checks : Checks} {history : List Call}
    (hok : Along (fun m c => ∃ b, c.verdict m = .ok b) { checks := checks } history)
    (hm : ({ checks := checks } : Method).after history = m)
    (hoff : m.checks.afterMutation = false) :
    (∀ phi r pred s s' b, (⟨.bindPhiArg phi r pred, s⟩ : Call).verdict m = .ok b →
      ∃ p, m.insn? phi = some (.phi p) ∧ r.owner = none ∧
        let bound := (⟨.bindPhiArg phi r pred, s⟩ : Call).next m
        let last : Call := ⟨.removePhiArgAt phi p.bindings.length, s'⟩
        bound.insn? phi =
            some (.phi { p with bindings := p.bindings ++ [⟨r.ownedBy phi, pred⟩] }) ∧
          last.verdict bound = .ok (.operand (.register r)) ∧ last.next bound = m) ∧
    ∀ node a s s' b, (⟨.addArg node a, s⟩ : Call).verdict m = .ok b →
      let added := (⟨.addArg node a, s⟩ : Call).next m
      let remove : Call := ⟨.removeArg node a, s'⟩
      remove.verdict added = .ok (.flag true) ∧ remove.next added = m := by
  have h : m.Coherent := hm ▸ coherent_after_of_ok hok
  refine ⟨fun phi r pred s s' b hbind => h.bind_unbind hoff hbind, ?_⟩
  intro node a s s' b hadd
  exact h.add_remove hoff hadd

/-- A variable feeds a phi from one block. Bound from a second one, another instance of it adds a use
and no consumer; with the instance gone, the variable is as it was. -/
theorem attach_detach_second_use :
    let q : Register := { id := ⟨1⟩, reg := 0, var := some ⟨0⟩ }
    let r : Register := { id := ⟨2⟩, reg := 0, var := some ⟨0⟩ }
    let history : List Call := [⟨.newVar 0 0, {}⟩, ⟨.newPhi 0, {}⟩, ⟨.bindPhiArg ⟨0⟩ q ⟨7⟩, {}⟩]
    let m := ({} : Method).after history
    let bind : Call := ⟨.bindPhiArg ⟨0⟩ r ⟨8⟩, {}⟩
    let last : Call := ⟨.removePhiArgAt ⟨0⟩ 1, {}⟩
    Along (fun m c => ∃ b, c.verdict m = .ok b) {} history ∧ m.checks.afterMutation = false ∧
      bind.verdict m = .ok .done ∧ (bind.next m).vars ≠ m.vars ∧
      last.verdict (bind.next m) = .ok (.operand (.register r)) ∧ last.next (bind.next m) = m := by
  intro q r history m bind last
  have hok : Along (fun m c => ∃ b, c.verdict m = .ok b) {} history :=
    ⟨⟨_, rfl⟩, ⟨_, rfl⟩, ⟨_, rfl⟩, trivial⟩
  have hverdict : bind.verdict m = .ok .done := rfl
  rcases (attach_detach hok rfl rfl).1 ⟨0⟩ r ⟨8⟩ {} {} .done hverdict with
    ⟨p, hp, -, -, hlast, hback⟩
  cases hp
  exact ⟨hok, rfl, hverdict, by decide, hlast, hback⟩

end Method

end SsaForm
