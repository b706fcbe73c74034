import SsaForm.Proofs.Attaching
import SsaForm.Proofs.Footprints
import SsaForm.Proofs.RecordOrder

/-!
# SsaForm.Proofs.Commuting — calls on different instructions commute

Two calls that change arguments of different instructions, and that are given or find different
instances there, may be made in either order (`commute`): each returns the same or fails with the
same fault, and the method is the same but for the order in which its variables list their readers.

* `exists_confined`: each such call is an edit that is confined to the instances it touches. So
  neither call sees what the other one does, and the instructions come out the same.
* The instructions determine what is recorded, as long as readings are recorded exactly. A call that
  fails to set an argument of a node leaves the old one there, without an owner and without a
  record; then it is the arguments with an owner that are recorded (`Coherent.attached_next`).
-/

namespace SsaForm

open Edit

/-! ## Calls on the arguments of one instruction -/

namespace Mutation

/-- The instruction of which the call changes arguments. -/
def argumentsOf? : Mutation → Option InsnId
  | .bindPhiArg id _ _ | .removePhiArg id _ | .addArg id _ | .setArg id _ _ | .removeArg id _
  | .replaceArg id _ _ | .attachVar id _ _ | .unbindInsn id => some id
  | _ => none

/-- The instances that the call is given, or that it finds in `i` where it acts. -/
def touches (i : Insn) : Mutation → List OperandId
  | .bindPhiArg _ r _ | .removePhiArg _ r => [r.id]
  | .addArg _ a | .removeArg _ a => [a.id]
  | .setArg _ k a => a.id :: (i.args[k]?.map Operand.id).toList
  | .replaceArg _ old new => [old.id, new.id]
  | .attachVar _ k _ => (i.args[k]?.map Operand.id).toList
  | .unbindInsn _ => i.args.map Operand.id
  | _ => []

end Mutation

theorem mem_touched {i : Insn} {k : Nat} {b : Operand} (h : i.args[k]? = some b) :
    b.id ∈ (i.args[k]?.map Operand.id).toList := by
  rw [h]
  exact List.mem_singleton_self _

theorem Call.exists_confined {c : Call} {id : InsnId} (h : c.mutation.argumentsOf? = some id)
    (i : Insn) :
    ∃ (α : Type) (f : α → Answer) (act : Edit (Linked Insn) α),
      c.edit = f <$> Method.verified (Method.editInsn id act) ∧
        Confined (c.mutation.touches i) i act := by
  unfold Call.edit
  cases hm : c.mutation with
  | bindPhiArg phi r pred =>
    cases hm ▸ h
    exact ⟨_, _, _, rfl, .onPhi id (Confined.phi_bindArg r pred)⟩
  | removePhiArg phi r =>
    cases hm ▸ h
    exact ⟨_, _, _, rfl, .onPhi id (Confined.phi_removeArg r.id)⟩
  | addArg id' a =>
    cases hm ▸ h
    exact ⟨_, _, _, rfl, .addArg a i⟩
  | setArg id' k a =>
    cases hm ▸ h
    exact ⟨_, _, _, rfl, .setArg List.mem_cons_self fun b hb =>
      List.mem_cons_of_mem _ (mem_touched hb)⟩
  | removeArg id' a =>
    cases hm ▸ h
    exact ⟨_, _, _, rfl, .removeArg a i⟩
  | replaceArg id' old new =>
    cases hm ▸ h
    exact ⟨_, _, _, rfl, .replaceArg old new i⟩
  | attachVar id' k v =>
    cases hm ▸ h
    exact ⟨_, _, _, rfl, .attachVar v fun b hb => mem_touched hb⟩
  | unbindInsn id' =>
    cases hm ▸ h
    exact ⟨_, _, _, rfl, .map _ (.unbindAll i)⟩
  | newVar | newNode | newPhi | bindPhi | removePhiArgAt | setResult | assignResult | removePhi
  | removePhis | setChecks =>
    rw [hm] at h
    cases h

namespace Method

variable {m : Method} {c d : Call} {x y : InsnId} {i j : Insn}

/-! ## Neither call sees the other -/

/-- What a call on the arguments of the live instruction `i` does, told by the table alone: its
verdict, and the instruction and the table that it leaves. Both look at the sites of touched
instances only. -/
structure Outcome (c : Call) (x : InsnId) (i : Insn)
    (out : VarTable → Except Fault Answer × Linked Insn) : Prop where
  verdict : ∀ m : Method, m.insn? x = some i → m.checks.afterMutation = false →
    c.verdict m = (out m.vars).1
  next : ∀ m : Method, m.insn? x = some i → c.next m = m.putInsn x (out m.vars).2
  blind : ∀ t t', VarTable.Same (Variable.sites (c.mutation.touches i)) t t' →
    (out t').1 = (out t).1 ∧ (out t').2.insn = (out t).2.insn
  kept : ∀ T, VarTable.KeptByReaders (· ∈ c.mutation.touches i) T → ∀ t, T t → T (out t).2.vars

theorem exists_outcome (hc : c.mutation.argumentsOf? = some x) (i : Insn) :
    ∃ out, Outcome c x i out := by
  rcases Call.exists_confined hc i with ⟨α, f, act, hedit, hconfined⟩
  refine ⟨fun t => ((Edit.verdict (act ⟨i, t⟩)).map f, finalState (act ⟨i, t⟩)), ?_, ?_, ?_,
    hconfined.kept⟩
  · exact fun m hi hoff => verdict_of_edit hedit hi hoff
  · exact fun m hi => next_of_edit hedit hi
  · intro t t' ht
    have hmatched := hconfined.matched t t' ht
    exact ⟨congrArg (Except.map f) hmatched.verdict, hmatched.finalState.insn⟩

/-- The sites of the other instances stay. -/
theorem same_sites_of_disjoint {l l' : List OperandId} (h : l.Disjoint l') (t : VarTable) :
    VarTable.KeptByReaders (· ∈ l) (VarTable.Same (Variable.sites l') t) := by
  refine VarTable.same_keptByReaders (fun x a i ha => ?_) (fun x a ha => ?_) (fun _ _ => ?_) t
  · refine Variable.sites_eq_iff.2 fun b hb => ?_
    rw [Variable.useSite_recordUse, if_neg]
    rintro rfl
    exact h ha hb
  · refine Variable.sites_eq_iff.2 fun b hb => ?_
    rw [Variable.useSite_dropUse, if_neg]
    rintro rfl
    exact h ha hb
  · exact Variable.sites_of_uses rfl

/-- A call leaves every other instruction as it is. -/
theorem Outcome.insn?_next {out : VarTable → Except Fault Answer × Linked Insn}
    (hc : Outcome c x i out) (hxy : x ≠ y) (hi : m.insn? x = some i) (hj : m.insn? y = some j) :
    (c.next m).insn? y = some j := by
  rw [hc.next m hi, insn?_putInsn hi, if_neg hxy]
  exact hj

/-- A call is not affected by one on another instruction that touches other instances. -/
theorem Outcome.unaffected {outc outd : VarTable → Except Fault Answer × Linked Insn}
    (hc : Outcome c x i outc) (hd : Outcome d y j outd) (hxy : x ≠ y) (hi : m.insn? x = some i)
    (hj : m.insn? y = some j) (hoff : m.checks.afterMutation = false)
    (hdisjoint : (c.mutation.touches i).Disjoint (d.mutation.touches j)) :
    d.verdict (c.next m) = d.verdict m ∧
      (outd (c.next m).vars).2.insn = (outd m.vars).2.insn ∧
      VarTable.Same Variable.description m.vars (d.next (c.next m)).vars := by
  have hj' := hc.insn?_next hxy hi hj
  have hnext := hc.next m hi
  have hoff' : (c.next m).checks.afterMutation = false := by
    rw [hnext]
    exact hoff
  have hsites : VarTable.Same (Variable.sites (d.mutation.touches j)) m.vars (c.next m).vars := by
    rw [hnext]
    exact hc.kept _ (same_sites_of_disjoint hdisjoint m.vars) m.vars (VarTable.Same.refl _)
  have hblind := hd.blind _ _ hsites
  refine ⟨?_, hblind.2, ?_⟩
  · rw [hd.verdict _ hj' hoff', hd.verdict m hj hoff, hblind.1]
  · rw [hd.next _ hj']
    refine hd.kept _ (VarTable.description_keptByReaders _ m.vars) _ ?_
    rw [hnext]
    exact hc.kept _ (VarTable.description_keptByReaders _ m.vars) _ (VarTable.Same.refl _)

end Method

/-! ## Arguments with an owner -/

/-- Of a list of good elements that has one bad element put in, the good ones. -/
theorem filter_set_eq_eraseIdx {α : Type} {good : α → Bool} {l : List α} {k : Nat} {a b : α}
    (ha : l[k]? = some a) (hl : ∀ c ∈ l, good c = true) (hb : good b = false) :
    (l.set k b).filter good = l.eraseIdx k := by
  have hk := (List.getElem?_eq_some_iff.1 ha).1
  have hfront : (l.take k).filter good = l.take k :=
    List.filter_eq_self.2 fun c hc => hl c (List.mem_of_mem_take hc)
  have hback : (l.drop (k + 1)).filter good = l.drop (k + 1) :=
    List.filter_eq_self.2 fun c hc => hl c (List.mem_of_mem_drop hc)
  rw [List.set_eq_take_append_cons_drop, if_pos hk, List.filter_append,
    List.filter_cons_of_neg (by simp [hb]), hfront, hback, List.eraseIdx_eq_take_drop_succ]

/-- Does the operand belong to the instruction? Nothing owns a literal, and it may be anywhere. -/
def Operand.belongsTo (id : InsnId) (a : Operand) : Bool :=
  a.register?.all fun r => r.owner == some id

/-- The instruction without those arguments of a node that do not belong to it. -/
def Insn.attached : Insn → Insn
  | node n => node { n with args := n.args.filter (·.belongsTo n.id) }
  | phi p => phi p

theorem Insn.attached_attached (i : Insn) : i.attached.attached = i.attached := by
  cases i with
  | node n => simp [attached, List.filter_filter]
  | phi p => rfl

namespace Method

variable {m : Method} {c d : Call} {x y : InsnId} {i j : Insn}

/-- The method with the arguments that have an owner. -/
def attached (m : Method) : Method := { m with slots := m.slots.map (Option.map Insn.attached) }

theorem attached_attached (m : Method) : m.attached.attached = m.attached := by
  simp only [attached, List.map_map]
  congr 2
  funext o
  cases o with
  | none => rfl
  | some i => exact congrArg some i.attached_attached

theorem insn?_attached (m : Method) (k : InsnId) :
    m.attached.insn? k = (m.insn? k).map Insn.attached := by
  simp only [insn?, attached, List.getElem?_map]
  rcases m.slots[k.index]? with _ | _ | i <;> rfl

theorem attached_putInsn (m : Method) (k : InsnId) (s : Linked Insn) :
    (m.putInsn k s).attached = m.attached.putInsn k ⟨s.insn.attached, s.vars⟩ := by
  simp only [attached, putInsn, List.map_set, Option.map_some]

/-- Where readings are recorded, every argument has its owner. -/
theorem Coherent.belongsTo (h : m.Coherent) {n : Node} (hn : m.insn? x = some (.node n))
    {a : Operand} (ha : a ∈ n.args) : a.belongsTo n.id = true := by
  cases a with
  | literal l => rfl
  | register r =>
    have howner := h.readers.owned x r ((holds_of_insn? hn).2 (Insn.mem_registers.2 ha))
    have hid : n.id = x := (h.formed x _ hn).id_eq
    simp [Operand.belongsTo, Operand.register?, howner, hid]

theorem Coherent.attached_insn (h : m.Coherent) (hi : m.insn? x = some i) : i.attached = i := by
  cases i with
  | phi p => rfl
  | node n => rw [Insn.attached, List.filter_eq_self.2 fun a ha => h.belongsTo hi ha]

theorem Coherent.attached_eq (h : m.Coherent) : m.attached = m := by
  have hslots : m.slots.map (Option.map Insn.attached) = m.slots := by
    refine List.ext_getElem? fun k => ?_
    have hk := m.insn?_attached ⟨k⟩
    rw [List.getElem?_map]
    cases ho : m.slots[k]? with
    | none => rfl
    | some o =>
      cases o with
      | none => rfl
      | some i =>
        have hi : m.insn? ⟨k⟩ = some i := by simp [insn?, ho]
        exact congrArg (fun i => some (some i)) (h.attached_insn hi)
  rw [attached, hslots]

/-- Setting an argument of a node leaves the readings recorded, at least of those arguments that
have an owner. -/
theorem Coherent.attached_setArg (h : m.Coherent) {n : Node} (hn : m.insn? x = some (.node n))
    (k : Nat) (a : Operand) :
    (m.putInsn x (finalState (Node.setArg k a ⟨n, m.vars⟩)).ofNode).attached.Coherent := by
  rcases Node.setArg_cases k a ⟨n, m.vars⟩ with
    ⟨e, heq⟩ | ⟨old, b, t, hold, -, ht, ⟨e, -, heq⟩ | ⟨-, -, -, heq⟩⟩
  · rw [heq]
    have hself : m.putInsn x (Linked.ofNode ⟨n, m.vars⟩) = m := putInsn_self hn
    rw [finalState, hself, h.attached_eq]
    exact h
  · -- the old argument has lost its owner and its record
    have hmem : old ∈ (Insn.node n).args := List.mem_of_getElem? hold
    have hdropped : t = m.vars.onVar old.var? (·.dropUse old.id) := by
      rcases ht with ⟨-, hunknown⟩ | ht
      · exact absurd (h.knows_arg hn hmem) hunknown
      · exact ht
    rw [heq]
    change (m.putInsn x ⟨.node { n with args := n.args.set k old.detached }, t⟩).attached.Coherent
    rw [attached_putInsn, h.attached_eq, hdropped]
    cases old with
    | literal l =>
      -- nothing has changed
      have hset : n.args.set k (Operand.literal l).detached = n.args := by
        rcases List.getElem?_eq_some_iff.1 hold with ⟨hlt, hget⟩
        change n.args.set k (.literal l) = n.args
        rw [← hget]
        exact List.set_getElem_self hlt
      have hself : m.putInsn x ⟨.node n, m.vars⟩ = m := putInsn_self hn
      rw [hset, h.attached_insn hn]
      exact hself.symm ▸ h
    | register r =>
      have herase : (n.args.set k (Operand.register r).detached).filter (·.belongsTo n.id) =
          n.args.eraseIdx k :=
        filter_set_eq_eraseIdx hold (fun b hb => h.belongsTo hn hb) rfl
      rw [Insn.attached, herase]
      exact h.eraseArg hn hold
  · have hcoherent := h.setNodeArg hn (k := k) (a := a) fun e he => by
      rw [heq] at he
      cases he
    rw [hcoherent.attached_eq]
    exact hcoherent

/-- Whatever call is made and however it ends, the readings of owned arguments are recorded. -/
theorem Coherent.attached_next (h : m.Coherent) (c : Call) : (c.next m).attached.Coherent := by
  by_cases hspoils : c.spoilsNode m = false
  · have hnext := h.next hspoils
    rw [hnext.attached_eq]
    exact hnext
  · -- the call has set or replaced an argument of a node
    have hsets : c.setsNodeArg m = true := by
      rw [Bool.not_eq_false, Call.spoilsNode, Bool.and_eq_true] at hspoils
      exact hspoils.1
    have hnode : ∀ id, (m.insn? id).any Insn.isNode = true → ∃ n, m.insn? id = some (.node n) := by
      intro id hid
      rcases hi : m.insn? id with _ | n | p
      · rw [hi] at hid
        cases hid
      · exact ⟨n, rfl⟩
      · rw [hi] at hid
        cases hid
    unfold Call.setsNodeArg at hsets
    cases hm : c.mutation with
    | setArg id k a =>
      rw [hm] at hsets
      rcases hnode id hsets with ⟨n, hn⟩
      have hnext : c.next m = m.putInsn id (finalState (Node.setArg k a ⟨n, m.vars⟩)).ofNode := by
        rw [Call.next_eq, Call.edit, hm, Mutation.onMethod, finalState_map, Method.setArg,
          finalState_verified, finalState_editInsn hn, Insn.setArg, Insn.finalState_edit_node]
      rw [hnext]
      exact h.attached_setArg hn k a
    | replaceArg id old new =>
      rw [hm] at hsets
      rcases hnode id hsets with ⟨n, hn⟩
      have hnext : c.next m =
          m.putInsn id (finalState (Node.replaceArg old.id new ⟨n, m.vars⟩)).ofNode := by
        rw [Call.next_eq, Call.edit, hm, Mutation.onMethod, finalState_map, Method.replaceArg,
          finalState_verified, finalState_editInsn hn]
        unfold Insn.replaceArg
        rw [Insn.finalState_edit_node]
      rw [hnext, Node.replaceArg_apply]
      cases n.argIndex old.id with
      | none =>
        have hself : m.putInsn id (Linked.ofNode ⟨n, m.vars⟩) = m := putInsn_self hn
        simp only [finalState, hself, h.attached_eq]
        exact h
      | some k =>
        simp only [finalState_map]
        exact h.attached_setArg hn k new
    | _ =>
      rw [hm] at hsets
      cases hsets

/-- A second call on another instruction does not meet what the first one has spoiled. -/
theorem Coherent.attached_next_next (h : m.Coherent)
    {outc outd : VarTable → Except Fault Answer × Linked Insn} (hc : Outcome c x i outc)
    (hd : Outcome d y j outd) (hxy : x ≠ y) (hi : m.insn? x = some i) (hj : m.insn? y = some j) :
    (d.next (c.next m)).attached.Coherent := by
  have hj' := hc.insn?_next hxy hi hj
  have hattached : (c.next m).attached.insn? y = some j := by
    rw [insn?_attached, hj', Option.map_some, h.attached_insn hj]
  have hcoherent := (h.attached_next c).attached_next d
  rw [hd.next _ hattached, attached_putInsn, attached_attached] at hcoherent
  rw [hd.next _ hj', attached_putInsn]
  exact hcoherent

/-! ## Commuting -/

/-- **Independent calls commute.** In a method that a run without failures has reached, take two
calls that change arguments of different live instructions. If they touch different instances, they
may be made in either order: each returns the same or fails with the same fault, and the method is
the same in the end but for the order in which its variables list their readers. -/
theorem commute {checks : Checks} {history : List Call}
    (hok : Along (fun m c => ∃ b, c.verdict m = .ok b) { checks := checks } history)
    (hm : ({ checks := checks } : Method).after history = m)
    (hoff : m.checks.afterMutation = false) (hxy : x ≠ y) (hi : m.insn? x = some i)
    (hj : m.insn? y = some j) (hc : c.mutation.argumentsOf? = some x)
    (hd : d.mutation.argumentsOf? = some y)
    (hdisjoint : (c.mutation.touches i).Disjoint (d.mutation.touches j)) :
    c.verdict (d.next m) = c.verdict m ∧ d.verdict (c.next m) = d.verdict m ∧
      (d.next (c.next m)).SameUpToOrder (c.next (d.next m)) := by
  have h : m.Coherent := hm ▸ coherent_after_of_ok hok
  rcases exists_outcome hc i with ⟨outc, hc⟩
  rcases exists_outcome hd j with ⟨outd, hd⟩
  rcases hc.unaffected hd hxy hi hj hoff hdisjoint with ⟨hverdictd, hinsnd, hsamed⟩
  rcases hd.unaffected hc hxy.symm hj hi hoff (List.disjoint_symm hdisjoint) with
    ⟨hverdictc, hinsnc, hsamec⟩
  have hcd := hd.next _ (hc.insn?_next hxy hi hj)
  have hdc := hc.next _ (hd.insn?_next hxy.symm hj hi)
  -- each instruction comes out the same, and they stand at different positions
  have hslots : (c.next (d.next m)).slots = (d.next (c.next m)).slots := by
    have hne : y.index ≠ x.index := fun heq => hxy (congrArg InsnId.mk heq.symm)
    calc (c.next (d.next m)).slots
      _ = (d.next m).slots.set x.index (some (outc m.vars).2.insn) := by rw [hdc, ← hinsnc]; rfl
      _ = (m.slots.set y.index (some (outd m.vars).2.insn)).set x.index
            (some (outc m.vars).2.insn) := by rw [hd.next m hj]; rfl
      _ = (m.slots.set x.index (some (outc m.vars).2.insn)).set y.index
            (some (outd m.vars).2.insn) := List.set_comm _ _ hne
      _ = (c.next m).slots.set y.index (some (outd m.vars).2.insn) := by rw [hc.next m hi]; rfl
      _ = (d.next (c.next m)).slots := by rw [hcd, ← hinsnd]; rfl
  have hchecks : (c.next (d.next m)).checks = (d.next (c.next m)).checks := by
    rw [hcd, hdc, hc.next m hi, hd.next m hj]
    rfl
  refine ⟨hverdictc, hverdictd, hslots, hchecks, ?_⟩
  -- both orders leave recorded what the same arguments with an owner read
  have hattached : (c.next (d.next m)).attached.slots = (d.next (c.next m)).attached.slots :=
    congrArg (List.map (Option.map Insn.attached)) hslots
  have hrecords : (d.next (c.next m)).attached.vars.SameRecords (c.next (d.next m)).attached.vars :=
    (h.attached_next_next hc hd hxy hi hj).sameRecords
      (h.attached_next_next hd hc hxy.symm hj hi) hattached (hsamed.symm.trans hsamec)
  exact hrecords

/-- A node and a phi read one variable. The node is given its argument once more, with a variable
that the table does not have, and fails when the record is gone; the phi loses its binding. -/
theorem commute_failure_with_removal :
    let r : Register := { id := ⟨1⟩, reg := 0, var := some ⟨0⟩ }
    let s : Register := { id := ⟨2⟩, reg := 0, var := some ⟨0⟩ }
    let history : List Call := [⟨.newVar 0 0, {}⟩, ⟨.newNode .const, {}⟩, ⟨.newPhi 0, {}⟩,
      ⟨.addArg ⟨0⟩ (.register r), {}⟩, ⟨.bindPhiArg ⟨1⟩ s ⟨7⟩, {}⟩]
    let m := ({} : Method).after history
    let c : Call := ⟨.setArg ⟨0⟩ 0 (.register (r.naming ⟨9⟩)), {}⟩
    let d : Call := ⟨.removePhiArg ⟨1⟩ s, {}⟩
    Along (fun m c => ∃ b, c.verdict m = .ok b) {} history ∧
      c.verdict m = .error (.unknownVariable ⟨9⟩) ∧ c.next m ≠ m ∧
      c.verdict (d.next m) = c.verdict m ∧ d.verdict (c.next m) = d.verdict m ∧
        (d.next (c.next m)).SameUpToOrder (c.next (d.next m)) := by
  intro r s history m c d
  have hok : Along (fun m c => ∃ b, c.verdict m = .ok b) {} history :=
    ⟨⟨_, rfl⟩, ⟨_, rfl⟩, ⟨_, rfl⟩, ⟨_, rfl⟩, ⟨_, rfl⟩, trivial⟩
  exact ⟨hok, rfl, by decide, commute hok rfl rfl (x := ⟨0⟩) (y := ⟨1⟩) (by decide) rfl rfl rfl rfl
    (List.disjoint_left.2 (by decide))⟩

end Method

end SsaForm
