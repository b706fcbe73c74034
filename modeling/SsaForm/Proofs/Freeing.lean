import SsaForm.Proofs.Atomicity
import SsaForm.Proofs.PhiRemoval

/-!
# SsaForm.Proofs.Freeing — removals that succeed and free what they remove

Nothing stands in the way of taking an operand out: an instruction holds only operands whose variables
are known, so there is always a record to take back. And what was taken out stands nowhere, as far as
attaching can tell. Its instance may be held by other instructions still, but they read other variables
through it (`Coherent.readOnlyIn_of_holds`), and it is only the variable of the handle that is asked.

* `Coherent.removeArg_insn` and `Coherent.unbindAll_insn` say that removals go through.
* `Attachable` says that an operand may be attached wherever it is not held already, and
  `Coherent.attachable_lost` that an operand which an instruction has lost is such.
-/

namespace SsaForm

open Edit

namespace Method

variable {m : Method} {id : InsnId} {i : Insn}

/-! ## Removals succeed -/

namespace Coherent

variable (h : m.Coherent)

include h

theorem removeArg_node {n : Node} (hn : m.insn? id = some (.node n)) (a : OperandId) :
    ∃ s, Node.removeArg a ⟨n, m.vars⟩ = .ok (n.holds a) s := by
  rw [Node.removeArg_apply]
  cases hindex : n.argIndex a with
  | none =>
    rw [Node.holds_eq_false.2 hindex]
    exact ⟨_, rfl⟩
  | some k =>
    rcases Node.argIndex_eq_some hindex with ⟨b, hb, -⟩
    have hremove := Node.removeArgAt_of_known (s := ⟨n, m.vars⟩) hb
      (h.knows_arg hn (List.mem_of_getElem? hb))
    simp only [Node.holds, hindex, Option.isSome_some]
    exact ⟨_, run_map_eq_ok.2 ⟨_, hremove, rfl⟩⟩

theorem removeArg_phi {p : Phi} (hp : m.insn? id = some (.phi p)) (a : OperandId) :
    ∃ s, Phi.removeArg a ⟨p, m.vars⟩ = .ok (p.holds a) s := by
  rw [Phi.removeArg_apply]
  cases hindex : p.argIndex a with
  | none =>
    rw [Phi.holds_eq_false.2 hindex]
    exact ⟨_, rfl⟩
  | some k =>
    rcases Phi.argIndex_eq_some hindex with ⟨b, hb, -⟩
    simp only [Phi.holds, hindex, Option.isSome_some]
    exact ⟨_, run_map_eq_ok.2 ⟨_, h.removeArgAt_of_getElem? hp hb, rfl⟩⟩

/-- Removing from the front as often as there are arguments never runs into an argument that cannot
be removed, since the method stays coherent on the way. -/
theorem unbindAll_node {n : Node} (hn : m.insn? id = some (.node n)) :
    ∃ l s, Node.unbindAll ⟨n, m.vars⟩ = .ok l s := by
  have hself : (m.putInsn id ⟨.node n, m.vars⟩).Coherent := (putInsn_self hn).symm ▸ h
  have hloop := mapM_of_steps (P := fun k s => (m.putInsn id s.ofNode).Coherent ∧
    k ≤ s.insn.args.length) (f := Node.removeArgAt 0) ?_ n.args
    (s := ⟨n, m.vars⟩) ⟨hself, Nat.le_refl _⟩
  · rcases hloop with ⟨l, s, hloop, -⟩
    exact ⟨l, s, hloop⟩
  · rintro k s ⟨hs, hlength⟩
    have hpos : 0 < s.insn.args.length := by omega
    have hnode : (m.putInsn id s.ofNode).insn? id = some (.node s.insn) :=
      insn?_putInsn_self hn s.ofNode
    have hfirst : s.insn.args[0]? = some s.insn.args[0] := List.getElem?_eq_getElem hpos
    have herased := hs.eraseArg hnode hfirst
    rw [putInsn_putInsn] at herased
    refine ⟨_, _, Node.removeArgAt_of_known hfirst (hs.knows_arg hnode (List.getElem_mem hpos)),
      herased, ?_⟩
    simp only [List.length_eraseIdx_of_lt hpos]
    omega

/-- On either kind of instruction, an operand is removed if it is there. -/
theorem removeArg_insn (hi : m.insn? id = some i) (a : Operand) :
    ∃ s, Insn.removeArg a ⟨i, m.vars⟩ = .ok (i.argIndex a).isSome s := by
  unfold Insn.removeArg
  cases i with
  | node n =>
    rcases h.removeArg_node hi a.id with ⟨s, hs⟩
    exact ⟨_, Insn.edit_node_of_ok _ _ hs⟩
  | phi p =>
    cases a with
    | literal l => exact ⟨⟨.phi p, m.vars⟩, rfl⟩
    | register r =>
      rcases h.removeArg_phi hi r.id with ⟨s, hs⟩
      exact ⟨_, Insn.edit_phi_of_ok _ _ hs⟩

theorem unbindAll_insn (hi : m.insn? id = some i) :
    ∃ l s, Insn.unbindAll ⟨i, m.vars⟩ = .ok l s := by
  unfold Insn.unbindAll
  cases i with
  | node n =>
    rcases h.unbindAll_node hi with ⟨l, s, hs⟩
    exact ⟨l, _, Insn.edit_node_of_ok _ _ hs⟩
  | phi p =>
    rcases h.unbindAll_phi hi with ⟨l, hs⟩
    exact ⟨_, _, Insn.edit_phi_of_ok _ _ (run_map_eq_ok.2 ⟨l, hs, rfl⟩)⟩

end Coherent

/-! ## What may be attached -/

/-- The operand may be attached right away: any node takes it that does not hold the instance, and if
it is a register, any phi binds it that neither holds the instance nor has the predecessor. -/
structure Attachable (m : Method) (a : Operand) : Prop where
  add : ∀ id n s, m.insn? id = some (.node n) → n.holds a.id = false →
    (⟨.addArg id a, s⟩ : Call).verdict m = .ok .done
  bind : ∀ id p r pred s, a = .register r → m.insn? id = some (.phi p) → p.holds r.id = false →
    pred ∉ p.preds → (⟨.bindPhiArg id r pred, s⟩ : Call).verdict m = .ok .done

theorem attachable_of_free (hoff : m.checks.afterMutation = false) {a : Operand}
    (hfree : a.Free m.vars) : m.Attachable a := by
  constructor
  · intro id n s hn hnew
    have hadd := Node.run_addArg (u := ()).2
      (Node.argAdded_eq_ok (s := ⟨n, m.vars⟩).2 ⟨Node.holds_eq_false.1 hnew, hfree, rfl⟩)
    exact (call_of_edit (c := ⟨.addArg id a, s⟩) rfl hn hoff (Insn.edit_node_of_ok _ _ hadd)).1
  · rintro id p r pred s rfl hp hnew hpred
    have hbind := Phi.run_bindArg (u := ()).2
      (Phi.argBound_eq_ok (s := ⟨p, m.vars⟩).2 ⟨hpred, Phi.holds_eq_false.1 hnew, hfree, rfl⟩)
    exact (call_of_edit (c := ⟨.bindPhiArg id r pred, s⟩) rfl hp hoff
      (Insn.edit_phi_of_ok _ _ hbind)).1

/-- Among the readers of the variable that a held register names, its holder is the only one that
reads it through this instance. -/
theorem Coherent.readOnlyIn_of_holds (h : m.Coherent) {r : Register} (hr : m.Holds id r) :
    m.ReadOnlyIn id r := by
  intro v k hv hk
  rcases VarTable.exists_get? (h.readers.known id r hr v hv) with ⟨x, hx⟩
  exact (h.readers.uses v x hx).unique hk ⟨r, hr, rfl, hv⟩

/-- What an instruction held and has lost may be attached again. -/
theorem Coherent.attachable_lost (h : m.Coherent) (hoff : m.checks.afterMutation = false)
    (hi : m.insn? id = some i) {s : Linked Insn} (hnext : (m.putInsn id s).Coherent) {b : Operand}
    (hb : b ∈ i.args) (hknown : s.vars.Knows b.var?) (hgone : ∀ c ∈ s.insn.args, c.id ≠ b.id) :
    (m.putInsn id s).Attachable b.detached := by
  refine attachable_of_free (m := m.putInsn id s) hoff ?_
  cases b with
  | literal l => trivial
  | register r =>
    have hheld : m.Holds id r := (holds_of_insn? hi).2 (Insn.mem_registers.2 hb)
    exact (hnext.free_detached_iff hi hgone).2 ⟨hknown, h.readOnlyIn_of_holds hheld⟩

/-- The argument that was removed from a phi may be attached. -/
theorem Coherent.removePhiArgAt_frees (h : m.Coherent) (hoff : m.checks.afterMutation = false)
    {p : Phi} (hp : m.insn? id = some (.phi p)) {k : Nat} {b : Binding}
    (hb : p.bindings[k]? = some b) (s : Supply) :
    let c : Call := ⟨.removePhiArgAt id k, s⟩
    c.verdict m = .ok (.operand (.register b.arg.detached)) ∧
      (c.next m).Attachable (.register b.arg.detached) := by
  have hremove := h.removeArgAt_of_getElem? hp hb
  have hcall := call_of_edit (c := ⟨.removePhiArgAt id k, s⟩) rfl hp hoff
    (Insn.edit_phi_of_ok _ _ hremove)
  refine ⟨hcall.1, ?_⟩
  rw [hcall.2]
  have hheld : Operand.register b.arg ∈ (Insn.phi p).args := by
    exact List.mem_map.2 ⟨b.arg, List.mem_map.2 ⟨b, List.mem_of_getElem? hb, rfl⟩, rfl⟩
  refine h.attachable_lost hoff hp (h.eraseBinding hp hb) hheld
    (VarTable.knows_onVar.2 (h.knows_arg hp hheld)) fun c hc => ?_
  exact ((mem_phi_eraseIdx (h.formed id _ hp) hb c).1 hc).2

/-- Setting an argument returns the one that stood there. It may be attached if another instance was
put in its place. -/
theorem Coherent.setArg_frees (h : m.Coherent) (hoff : m.checks.afterMutation = false) {k : Nat}
    {a : Operand} {s : Supply} {b : Answer}
    (hok : (⟨.setArg id k a, s⟩ : Call).verdict m = .ok b) :
    ∃ n c, m.insn? id = some (.node n) ∧ n.args[k]? = some c ∧ b = .operand c.detached ∧
      (c.id ≠ a.id → ((⟨.setArg id k a, s⟩ : Call).next m).Attachable c.detached) := by
  have hcoherent := h.next (spoilsNode_of_ok hok)
  rcases call_of_ok id rfl hok with ⟨i, old, t, hi, hact, rfl, hnext⟩
  cases i with
  | phi p => cases hact
  | node n =>
    rcases (Insn.edit_node_eq_ok _ _).1 hact with ⟨t, hset, rfl⟩
    rcases Node.setArg_of_ok hset with ⟨c, hc, rfl, rfl⟩
    refine ⟨n, c, hi, hc, rfl, fun hother => ?_⟩
    rw [hnext] at hcoherent ⊢
    have hheld : c ∈ (Insn.node n).args := List.mem_of_getElem? hc
    refine h.attachable_lost hoff hi hcoherent hheld
      (VarTable.knows_onVar.2 (VarTable.knows_onVar.2 (h.knows_arg hi hheld))) fun d hd => ?_
    rcases (mem_set_iff_mem_eraseIdx hc).1 hd with hrest | rfl
    · exact ((mem_node_eraseIdx (h.formed id _ hi) hc d).1 hrest).2
    · rw [Operand.id_ownedBy]
      exact hother.symm

/-! ## Runs -/

/-- **Removing succeeds and frees.** Take a state that calls without failures have reached, in a method
that does not check itself. Removing an operand from a live instruction succeeds and tells whether it
was there, and so does removing all of them, a binding in range or a whole phi. The argument that
comes back with a binding may be attached right away. Setting an argument, if it succeeds, returns the
one that stood there, and that may be attached if another instance was put in its place. -/
theorem removal_frees {checks : Checks} {history : List Call}
    (hok : Along (fun m c => ∃ b, c.verdict m = .ok b) { checks := checks } history)
    (hm : ({ checks := checks } : Method).after history = m)
    (hoff : m.checks.afterMutation = false) (s : Supply) :
    (∀ id i, m.insn? id = some i →
      (∀ a, (⟨.removeArg id a, s⟩ : Call).verdict m = .ok (.flag (i.argIndex a).isSome)) ∧
        (⟨.unbindInsn id, s⟩ : Call).verdict m = .ok .done) ∧
    (∀ id p, m.insn? id = some (.phi p) →
      (∀ r, (⟨.removePhiArg id r, s⟩ : Call).verdict m = .ok (.flag (p.holds r.id))) ∧
        (∀ k b, p.bindings[k]? = some b →
          let c : Call := ⟨.removePhiArgAt id k, s⟩
          c.verdict m = .ok (.operand (.register b.arg.detached)) ∧
            (c.next m).Attachable (.register b.arg.detached)) ∧
        (⟨.removePhi id, s⟩ : Call).verdict m = .ok (.phi { p with bindings := [] })) ∧
    ∀ id k a b, (⟨.setArg id k a, s⟩ : Call).verdict m = .ok b →
      ∃ n c, m.insn? id = some (.node n) ∧ n.args[k]? = some c ∧ b = .operand c.detached ∧
        (c.id ≠ a.id → ((⟨.setArg id k a, s⟩ : Call).next m).Attachable c.detached) := by
  have hremovable := phisRemovable_after hok hm hoff
  have h : m.Coherent := hremovable.coherent
  refine ⟨fun id i hi => ⟨fun a => ?_, ?_⟩, fun id p hp => ⟨fun r => ?_, fun k b hb => ?_, ?_⟩, ?_⟩
  · rcases h.removeArg_insn hi a with ⟨t, ht⟩
    exact (call_of_edit (c := ⟨.removeArg id a, s⟩) rfl hi hoff ht).1
  · rcases h.unbindAll_insn hi with ⟨l, t, ht⟩
    have hdiscard : (discard Insn.unbindAll : Edit (Linked Insn) Unit) ⟨i, m.vars⟩ = .ok () t :=
      run_map_eq_ok.2 ⟨l, ht, rfl⟩
    exact (call_of_edit (c := ⟨.unbindInsn id, s⟩) rfl hi hoff hdiscard).1
  · rcases h.removeArg_phi hp r.id with ⟨t, ht⟩
    exact (call_of_edit (c := ⟨.removePhiArg id r, s⟩) rfl hp hoff (Insn.edit_phi_of_ok _ _ ht)).1
  · exact h.removePhiArgAt_frees hoff hp hb s
  · exact (Call.outcome_of_ok (c := ⟨.removePhi id, s⟩) rfl (hremovable.removePhi_eq hp)).1
  · intro id k a b hset
    exact h.setArg_frees hoff hset

/-- A phi and a node hold one instance, which has come to read another variable in each. The phi gives
it up, and a second node takes the handle that comes back. -/
theorem removal_frees_shared_instance :
    let h : Register := { id := ⟨1⟩, reg := 0 }
    let r : Register := { id := ⟨1⟩, reg := 0, var := some ⟨0⟩ }
    let q : Register := { id := ⟨1⟩, reg := 0, var := some ⟨1⟩, owner := some ⟨1⟩ }
    let history : List Call := [⟨.newVar 0 0, {}⟩, ⟨.newVar 0 1, {}⟩, ⟨.newPhi 0, {}⟩,
      ⟨.newNode .const, {}⟩, ⟨.newNode .const, {}⟩, ⟨.bindPhiArg ⟨0⟩ h ⟨7⟩, {}⟩,
      ⟨.addArg ⟨1⟩ (.register h), {}⟩, ⟨.attachVar ⟨0⟩ 0 ⟨0⟩, {}⟩, ⟨.attachVar ⟨1⟩ 0 ⟨1⟩, {}⟩]
    let m := ({} : Method).after history
    let remove : Call := ⟨.removePhiArgAt ⟨0⟩ 0, {}⟩
    let add : Call := ⟨.addArg ⟨2⟩ (.register r), {}⟩
    Along (fun m c => ∃ b, c.verdict m = .ok b) {} history ∧ m.checks.afterMutation = false ∧
      m.Holds ⟨1⟩ q ∧ remove.verdict m = .ok (.operand (.register r)) ∧
      add.verdict (remove.next m) = .ok .done := by
  intro h r q history m remove add
  have hok : Along (fun m c => ∃ b, c.verdict m = .ok b) {} history :=
    ⟨⟨_, rfl⟩, ⟨_, rfl⟩, ⟨_, rfl⟩, ⟨_, rfl⟩, ⟨_, rfl⟩, ⟨_, rfl⟩, ⟨_, rfl⟩, ⟨_, rfl⟩, ⟨_, rfl⟩,
      trivial⟩
  have hoff : m.checks.afterMutation = false := by decide
  have hphi : m.insn? ⟨0⟩ = some (.phi
      { id := ⟨0⟩, result := { id := ⟨0⟩, reg := 0, owner := some ⟨0⟩ },
        bindings := [⟨r.ownedBy ⟨0⟩, ⟨7⟩⟩] }) := by decide
  have hnode : m.insn? ⟨1⟩ = some (.node
      { id := ⟨1⟩, opcode := .const, args := [.register q] }) := by decide
  have hfrees := ((removal_frees (m := m) hok rfl hoff {}).2.1 ⟨0⟩ _ hphi).2.1 0 ⟨r.ownedBy ⟨0⟩, ⟨7⟩⟩ rfl
  have hempty : (remove.next m).insn? ⟨2⟩ = some (.node { id := ⟨2⟩, opcode := .const }) := by
    decide
  exact ⟨hok, hoff, (holds_of_insn? hnode).2 List.mem_cons_self, hfrees.1,
    hfrees.2.add ⟨2⟩ _ {} hempty rfl⟩

end Method

end SsaForm
