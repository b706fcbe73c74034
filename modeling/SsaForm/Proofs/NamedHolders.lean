import SsaForm.Proofs.Attaching

/-!
# SsaForm.Proofs.NamedHolders — does the instruction that a refusal names hold the instance?

A call that offers an operand, or gives one a variable, can be refused with the fault that the instance
is bound, and the fault names an instruction. Of the sources of that name (`Insn.Blocks`) two are read
off the present state, with which the records agree. The third is the owner in a handle, which nothing
keeps up to date: a handle that was read from an instruction names it also after the instance was
removed from there, and after it was attached elsewhere.

* `Call.TruthfulOn` says that a refusal names an instruction which holds the instance.
* `Call.Consults` are the calls in which it is the owner of the handle that is named.
* `Coherent.names_of_alreadyBound` finds for every refusal that the name is right or is such an owner.
* `truthful_reached_iff` puts the two together for the states that calls without failures reach.
-/

namespace SsaForm

open Edit

/-- Does the call put an operand into an instruction, or give one of its arguments a variable? -/
def Mutation.attaches : Mutation → Bool
  | .bindPhiArg _ _ _ | .addArg _ _ | .setArg _ _ _ | .replaceArg _ _ _ | .attachVar _ _ _ => true
  | _ => false

namespace Method

/-- The live instruction `k` holds the instance, as an argument or as its result. -/
def HoldsInstance (m : Method) (k : InsnId) (a : OperandId) : Prop :=
  ∃ i ∈ m.insn? k, (∃ b ∈ i.args, b.id = a) ∨ ∃ r ∈ i.result?, r.id = a

instance (m : Method) (k : InsnId) (a : OperandId) : Decidable (m.HoldsInstance k a) :=
  inferInstanceAs (Decidable (∃ i ∈ m.insn? k, (∃ b ∈ i.args, b.id = a) ∨ ∃ r ∈ i.result?, r.id = a))

end Method

namespace Call

/-- If the call is refused because an instance is bound, the instruction that the fault names holds
the instance, before the call and after it. -/
def TruthfulOn (c : Call) (m : Method) : Prop :=
  ∀ a k, c.verdict m = .error (.alreadyBound a k) →
    m.HoldsInstance k a ∧ (c.next m).HoldsInstance k a

/-- It comes down to the handle whether the call is refused: the register is offered where it could be
taken, it names no variable that is missing, and the instruction does not hold the instance itself. -/
structure Consults (c : Call) (m : Method) (r : Register) : Prop where
  offered : m.Offered r c
  known : m.vars.Knows r.var
  absent : ∀ id i, c.mutation.offers? = some (id, .register r) → m.insn? id = some i →
    ∀ b ∈ i.args, b.id ≠ r.id

/-- What is known of an instruction that a refusal names: it holds the instance, before the call and
after it, or it is the owner that a handle on the instance names. -/
inductive Names (c : Call) (m : Method) (a : OperandId) (k : InsnId) : Prop where
  | holder (hbefore : m.HoldsInstance k a) (hafter : (c.next m).HoldsInstance k a) : Names c m a k
  | owner {r : Register} (hr : c.Consults m r) (hid : r.id = a) (howner : r.owner = some k) :
    Names c m a k

end Call

namespace Method

variable {m : Method} {c : Call} {id : InsnId} {i : Insn} {a : OperandId} {k : InsnId}

/-! ## Where an instance is found -/

theorem holdsInstance_of_mem_args (hi : m.insn? id = some i) (ha : ∃ b ∈ i.args, b.id = a) :
    m.HoldsInstance id a :=
  ⟨i, hi, Or.inl ha⟩

theorem holdsInstance_of_reads {v : VarId} (h : m.Reads v a k) : m.HoldsInstance k a := by
  rcases h with ⟨r, ⟨i, hi, hr⟩, hid, -⟩
  exact holdsInstance_of_mem_args hi ⟨.register r, Insn.mem_registers.1 hr, hid⟩

/-- The other instructions hold what they held. -/
theorem HoldsInstance.putInsn (h : m.HoldsInstance k a) (hi : m.insn? id = some i) (hk : k ≠ id)
    (s : Linked Insn) : (m.putInsn id s).HoldsInstance k a := by
  rcases h with ⟨j, hj, ha⟩
  refine ⟨j, ?_, ha⟩
  rw [insn?_putInsn hi, if_neg hk.symm]
  exact hj

/-- Where readings are recorded, what is recorded of an instance is where it is read. -/
theorem Coherent.reads_of_useSite (h : m.Coherent) {v : VarId} {x : Variable}
    (hx : m.vars.get? v = some x) (hsite : x.useSite a = some k) : m.Reads v a k :=
  (h.readers.uses v x hx).useSite_eq_some.1 hsite

/-- A holder reads the instance, unless the handle names it. -/
theorem Coherent.owner_or_reads (h : m.Coherent) {r : Register}
    (hholder : r.holder m.vars = .ok (some k)) :
    r.owner = some k ∨ r.owner = none ∧ ∃ v, m.Reads v r.id k := by
  rcases (Register.holder_eq_some.1 hholder).2 with howner | ⟨hnone, v, x, -, hx, hsite⟩
  · exact Or.inl howner
  · exact Or.inr ⟨hnone, v, h.reads_of_useSite hx hsite⟩

/-! ## Refusals at once and later -/

/-- An instruction that is in the way before anything has changed. -/
theorem Coherent.names_of_blocks (h : m.Coherent) {o : Operand}
    (hoffers : c.mutation.offers? = some (id, o)) (hi : m.insn? id = some i)
    (hoffered : ∀ r, o = .register r → (∀ b ∈ i.args, b.id ≠ r.id) → m.Offered r c)
    (hblocks : i.Blocks m.vars o k) (hnext : c.next m = m) : c.Names m o.id k := by
  have hstays : m.HoldsInstance k o.id → c.Names m o.id k := fun hk => .holder hk (hnext.symm ▸ hk)
  cases hblocks with
  | self hheld =>
    rw [(h.formed id i hi).id_eq] at hstays ⊢
    exact hstays (holdsInstance_of_mem_args hi hheld)
  | @holder r _ habsent hr hholder =>
    subst hr
    rcases h.owner_or_reads hholder with howner | ⟨-, v, hreads⟩
    · have hconsults : c.Consults m r := by
        refine ⟨hoffered r rfl habsent, (Register.holder_eq_some.1 hholder).1, ?_⟩
        intro id' i' hoffers' hi'
        rw [hoffers] at hoffers'
        cases hoffers'
        rw [hi] at hi'
        cases hi'
        exact habsent
      exact .owner hconsults rfl howner
    · exact hstays (holdsInstance_of_reads hreads)

/-- An instruction that is in the way when an argument has been removed to make room: the handle names
no owner by then, and the instance is gone from where it is to stand, so another instruction reads
it. -/
theorem Coherent.names_of_holder {s s' : Linked Insn} (h : (m.putInsn id s).Coherent)
    (hi : m.insn? id = some i) {r : Register} (howner : r.owner = none)
    (hgone : ∀ b ∈ s.insn.args, b.id ≠ r.id) (hholder : r.holder s.vars = .ok (some k))
    (hnext : c.next m = m.putInsn id s') : c.Names m r.id k := by
  rcases h.owner_or_reads hholder with hk | ⟨-, v, hreads⟩
  · rw [howner] at hk
    cases hk
  · have hk : k ≠ id := by
      rintro rfl
      rcases (reads_putInsn_self hi).1 hreads with ⟨q, hq, hid, -⟩
      exact hgone _ (Insn.mem_registers.1 hq) hid
    have hbefore := holdsInstance_of_reads ((reads_putInsn_of_ne hi hk).1 hreads)
    refine .holder hbefore ?_
    rw [hnext]
    exact hbefore.putInsn hi hk s'

/-- An argument of a node is set, or replaced, which comes to the same. -/
theorem Coherent.names_of_setArg (h : m.Coherent) {n : Node} (hn : m.insn? id = some (.node n))
    {o : Operand} (hoffers : c.mutation.offers? = some (id, o))
    (hoffered : ∀ r, o = .register r → (∀ b ∈ n.args, b.id ≠ r.id) → m.Offered r c) {index : Nat}
    {s : Linked Node} (hset : Node.setArg index o ⟨n, m.vars⟩ = .error (.alreadyBound a k) s)
    (hnext : c.next m = m.putInsn id s.ofNode) : c.Names m a k := by
  rcases Node.setArg_eq_alreadyBound hset with
    ⟨rfl, rfl, hblocks⟩ | ⟨old, o', hold, hrep, hattach⟩
  · exact h.names_of_blocks hoffers hn hoffered hblocks (hnext.trans (putInsn_self hn))
  · rcases Operand.attached_eq_alreadyBound.1 hattach with ⟨r, rfl, rfl, hholder⟩
    have hmem := mem_node_eraseIdx (h.formed id _ hn) hold
    -- the operand was accepted as a handle on the argument that made room, or because it is free
    rcases Node.replacement_eq_ok.1 hrep with ⟨hindex, hdetached⟩ | ⟨hindex, hfree, rfl⟩
    · cases o with
      | literal l => cases hdetached
      | register q =>
        cases hdetached
        rcases Node.argIndex_eq_some hindex with ⟨b, hb, hid⟩
        rw [hold, Option.some.injEq] at hb
        subst hb
        exact (h.eraseArg hn hold).names_of_holder hn rfl
          (fun b hb heq => ((hmem b).1 hb).2 (heq.trans hid.symm)) hholder hnext
    · exact (h.eraseArg hn hold).names_of_holder hn (Register.Free.owner hfree)
        (fun b hb => Node.argIndex_eq_none.1 hindex b ((hmem b).1 hb).1) hholder hnext

/-- An argument of a phi is replaced. -/
theorem Coherent.names_of_replaceArg (h : m.Coherent) {p : Phi} (hp : m.insn? id = some (.phi p))
    {r : Register} (hoffers : c.mutation.offers? = some (id, .register r)) {old : OperandId}
    (hoffered : p.argIndex old ≠ none → (∀ b ∈ (Insn.phi p).args, b.id ≠ r.id) → m.Offered r c)
    {s : Linked Phi} (hreplace : Phi.replaceArg old r ⟨p, m.vars⟩ = .error (.alreadyBound a k) s)
    (hnext : c.next m = m.putInsn id s.ofPhi) : c.Names m a k := by
  rcases Phi.replaceArg_eq_alreadyBound hreplace with
    ⟨rfl, hold, rfl, hblocks⟩ | ⟨index, pred, r', o, s₁, hindex, hrep, hremove, hins⟩
  · refine h.names_of_blocks hoffers hp ?_ hblocks (hnext.trans (putInsn_self hp))
    intro q hq habsent
    cases hq
    exact hoffered hold habsent
  · rcases Phi.argIndex_eq_some hindex with ⟨b, hb, hid⟩
    rw [h.removeArgAt_of_getElem? hp hb] at hremove
    cases hremove
    rcases Phi.blocks_of_bindingInserted hins with ⟨-, rfl, hblocks⟩
    have hmem := mem_phi_eraseIdx (h.formed id _ hp) hb
    -- the register was accepted as a handle on the argument that made room, or because it is free
    have haccepted : r'.owner = none ∧
        ∀ c ∈ (Insn.phi { p with bindings := p.bindings.eraseIdx index }).args, c.id ≠ r'.id := by
      rcases Phi.replacement_eq_ok.1 hrep with ⟨-, ⟨hsame, rfl⟩ | ⟨-, hnone, hfree, rfl⟩⟩
      · exact ⟨rfl, fun c hc heq => ((hmem c).1 hc).2 (heq.trans (hsame.trans hid.symm))⟩
      · have hfalse : p.holds r'.id = false := Phi.holds_eq_false.2 hnone
        refine ⟨hfree.owner, fun c hc => ?_⟩
        exact Phi.forall_ne_of_not_holds (Bool.eq_false_iff.1 hfalse) c ((hmem c).1 hc).1
    cases hblocks with
    | self hheld =>
      rcases hheld with ⟨c, hc, heq⟩
      exact absurd heq (haccepted.2 c hc)
    | holder habsent hr hholder =>
      cases hr
      exact (h.eraseBinding hp hb).names_of_holder hp haccepted.1 haccepted.2 hholder hnext

/-! ## Calls -/

/-- A call that is refused because an instance is bound owes the fault to the edit of the instruction,
for the check finds other faults. -/
theorem call_of_alreadyBound {α : Type} {f : α → Answer} (id : InsnId) {act : Edit (Linked Insn) α}
    (hedit : c.edit = f <$> verified (editInsn id act))
    (hv : c.verdict m = .error (.alreadyBound a k)) :
    ∃ i s, m.insn? id = some i ∧ act ⟨i, m.vars⟩ = .error (.alreadyBound a k) s ∧
      c.next m = m.putInsn id s := by
  rw [Call.verdict_eq, hedit, verdict_map, map_eq_error] at hv
  have hfault : verdict (editInsn id act m) = .error (.alreadyBound a k) := by
    rw [verified_apply] at hv
    cases hact : editInsn id act m with
    | error e s =>
      rw [hact] at hv
      exact hv
    | ok b s =>
      simp only [hact] at hv
      cases hcheck : s.recheck with
      | ok u =>
        rw [hcheck] at hv
        cases hv
      | error e =>
        rw [hcheck] at hv
        cases hv
        exact (failsIn_recheck (F := Fault.NamesNoHolder) Fault.unknownVariable_namesNoHolder
          (fun _ => trivial) s _ hcheck).elim
  cases hi : m.insn? id with
  | none =>
    rw [editInsn_of_none hi] at hfault
    cases hfault
  | some i =>
    rw [verdict_editInsn hi, verdict_eq_error] at hfault
    exact ⟨i, _, rfl, hfault, next_of_edit hedit hi⟩

/-- Every refusal names a holder of the instance or the owner in a handle on it. -/
theorem Coherent.names_of_alreadyBound (h : m.Coherent) (hc : c.mutation.attaches = true)
    (hv : c.verdict m = .error (.alreadyBound a k)) : c.Names m a k := by
  obtain ⟨c, supply⟩ := c
  cases c with
  | bindPhiArg phi r pred =>
    rcases call_of_alreadyBound phi rfl hv with ⟨i, s, hi, hact, hnext⟩
    cases i with
    | node n => cases hact
    | phi p =>
      rcases (Insn.edit_phi_eq_error _ _).1 hact with ⟨s, hbind, rfl⟩
      rw [Phi.bindArg_eq, run_atomically_eq_error] at hbind
      rcases hbind with ⟨hbind, rfl⟩
      rcases Phi.blocks_of_bindingInserted hbind with ⟨hpred, rfl, hblocks⟩
      refine h.names_of_blocks (o := .register r) rfl hi ?_ hblocks (hnext.trans (putInsn_self hi))
      intro q hq _
      cases hq
      exact .bindPhiArg supply hi hpred
  | addArg id o =>
    rcases call_of_alreadyBound id rfl hv with ⟨i, s, hi, hact, hnext⟩
    cases i with
    | phi p => cases hact
    | node n =>
      rcases (Insn.edit_node_eq_error _ _).1 hact with ⟨s, hadd, rfl⟩
      rw [Node.addArg_eq, run_atomically_eq_error] at hadd
      rcases hadd with ⟨hadd, rfl⟩
      rcases Node.blocks_of_argAdded hadd with ⟨rfl, hblocks⟩
      refine h.names_of_blocks rfl hi ?_ hblocks (hnext.trans (putInsn_self hi))
      rintro r rfl _
      exact .addArg supply hi
  | setArg id index o =>
    rcases call_of_alreadyBound id rfl hv with ⟨i, s, hi, hact, hnext⟩
    cases i with
    | phi p => cases hact
    | node n =>
      rcases (Insn.edit_node_eq_error _ _).1 hact with ⟨s, hset, rfl⟩
      refine h.names_of_setArg hi rfl ?_ hset hnext
      rintro r rfl habsent
      exact .setArg supply hi fun b hb => habsent b (List.mem_of_getElem? hb)
  | replaceArg id old o =>
    rcases call_of_alreadyBound id rfl hv with ⟨i, s, hi, hact, hnext⟩
    unfold Insn.replaceArg at hact
    cases i with
    | node n =>
      rcases (Insn.edit_node_eq_error _ _).1 hact with ⟨s, hreplace, rfl⟩
      rw [Node.replaceArg_apply] at hreplace
      cases hindex : n.argIndex old.id with
      | none =>
        rw [hindex] at hreplace
        cases hreplace
      | some index =>
        simp only [hindex, run_map_eq_error] at hreplace
        refine h.names_of_setArg hi rfl ?_ hreplace hnext
        rintro r rfl habsent
        rcases Node.argIndex_eq_some hindex with ⟨b, hb, hid⟩
        refine .replaceArgNode supply hi ?_ (hid ▸ habsent b (List.mem_of_getElem? hb))
        rw [hindex]
        exact Option.some_ne_none index
    | phi p =>
      rcases (Insn.edit_phi_eq_error _ _).1 hact with ⟨s, hreplace, rfl⟩
      cases old with
      | literal l => cases hreplace
      | register q =>
        cases o with
        | literal l => cases hreplace
        | register r =>
          refine h.names_of_replaceArg hi rfl ?_ hreplace hnext
          intro hold habsent
          have hheld : p.holds q.id = true := Option.isSome_iff_ne_none.2 hold
          rcases Phi.holds_iff_exists_arg.1 hheld with ⟨b, hb, hid⟩
          exact .replaceArgPhi supply hi hold (hid ▸ habsent b hb)
  | attachVar id index v =>
    rcases call_of_alreadyBound id rfl hv with ⟨i, s, hi, hact, hnext⟩
    rw [Insn.attachVar_eq, run_atomically_eq_error] at hact
    rcases hact with ⟨hattach, rfl⟩
    rcases Insn.useSite_of_varAttached hattach with ⟨x, hx, hsite⟩
    have hbefore := holdsInstance_of_reads (h.reads_of_useSite hx hsite)
    refine .holder hbefore ?_
    rw [hnext, putInsn_self hi]
    exact hbefore
  | _ => cases hc

end Method

/-- A handle that is consulted is refused on account of the owner that it names. -/
theorem Call.Consults.refused {m : Method} {c : Call} {r : Register} {k : InsnId}
    (hr : c.Consults m r) (howner : r.owner = some k) :
    c.verdict m = .error (.alreadyBound r.id k) ∧ c.next m = m := by
  have hholder := Register.holder_owned howner hr.known
  rcases hr.offered.refused hholder with ⟨id, i, j, hoffers, hi, hblocks, hcall⟩
  have habsent := hr.absent id i hoffers hi
  cases hblocks with
  | self hheld =>
    rcases hheld with ⟨b, hb, hid⟩
    exact absurd hid (habsent b hb)
  | holder _ heq hholder' =>
    cases heq
    rw [hholder, Except.ok.injEq, Option.some.injEq] at hholder'
    exact hholder' ▸ hcall

namespace Method

/-! ## Runs -/

/-- **The name in a refusal.** Take a state that calls without failures have reached, and a call that
attaches an operand or gives one a variable. A handle that is consulted and names an owner is refused
with that name, and nothing changes. The name of an instruction in a refusal is that of a holder if and
only if no handle is consulted whose owner has lost the instance. -/
theorem truthful_reached_iff {checks : Checks} {history : List Call} {m : Method} {c : Call}
    (hok : Along (fun m c => ∃ b, c.verdict m = .ok b) { checks := checks } history)
    (hm : ({ checks := checks } : Method).after history = m) (hc : c.mutation.attaches = true) :
    (∀ r k, c.Consults m r → r.owner = some k →
        c.verdict m = .error (.alreadyBound r.id k) ∧ c.next m = m) ∧
      (c.TruthfulOn m ↔
        ∀ r k, c.Consults m r → r.owner = some k → m.HoldsInstance k r.id) := by
  have h : m.Coherent := hm ▸ coherent_after_of_ok hok
  refine ⟨fun r k hr howner => hr.refused howner, ?_, ?_⟩
  · intro htrue r k hr howner
    exact (htrue r.id k (hr.refused howner).1).1
  · intro hcurrent a k hv
    cases h.names_of_alreadyBound hc hv with
    | holder hbefore hafter => exact ⟨hbefore, hafter⟩
    | @owner r hr hid howner =>
      have hbefore := hcurrent r k hr howner
      rw [hid] at hbefore
      rw [(hr.refused howner).2]
      exact ⟨hbefore, hbefore⟩

/-- An argument has moved from one node to another. A third node refuses it, and names the second one:
by the records if the handle is one from before it was attached, and by the owner if the handle was
read from where it stands. -/
theorem truthful_reached_iff_moved :
    let r : Register := { id := ⟨0⟩, reg := 0, var := some ⟨0⟩ }
    let history : List Call := [⟨.newVar 0 0, {}⟩, ⟨.newNode .const, {}⟩, ⟨.newNode .const, {}⟩,
      ⟨.newNode .const, {}⟩, ⟨.addArg ⟨0⟩ (.register r), {}⟩,
      ⟨.removeArg ⟨0⟩ (.register (r.ownedBy ⟨0⟩)), {}⟩, ⟨.addArg ⟨1⟩ (.register r), {}⟩]
    let m := ({} : Method).after history
    let c : Call := ⟨.addArg ⟨2⟩ (.register r), {}⟩
    let d : Call := ⟨.addArg ⟨2⟩ (.register (r.ownedBy ⟨1⟩)), {}⟩
    Along (fun m c => ∃ b, c.verdict m = .ok b) {} history ∧
      c.mutation.attaches = true ∧ c.TruthfulOn m ∧ c.verdict m = .error (.alreadyBound ⟨0⟩ ⟨1⟩) ∧
      d.mutation.attaches = true ∧ d.TruthfulOn m ∧ d.verdict m = .error (.alreadyBound ⟨0⟩ ⟨1⟩) ∧
      d.next m = m := by
  intro r history m c d
  have hok : Along (fun m c => ∃ b, c.verdict m = .ok b) {} history :=
    ⟨⟨_, rfl⟩, ⟨_, rfl⟩, ⟨_, rfl⟩, ⟨_, rfl⟩, ⟨_, rfl⟩, ⟨_, rfl⟩, ⟨_, rfl⟩, trivial⟩
  have hnode : m.insn? ⟨2⟩ = some (.node { id := ⟨2⟩, opcode := .const }) := rfl
  have hold := truthful_reached_iff (c := c) hok rfl rfl
  have hcurrent := truthful_reached_iff (c := d) hok rfl rfl
  have hconsults : d.Consults m (r.ownedBy ⟨1⟩) := by
    refine ⟨.addArg {} hnode, VarTable.knows_some.2 (by decide), ?_⟩
    rintro id i ⟨⟩ hi b hb
    cases hi
    cases hb
  have hrefused := hcurrent.1 _ ⟨1⟩ hconsults rfl
  refine ⟨hok, rfl, hold.2.2 ?_, rfl, rfl, hcurrent.2.2 ?_, hrefused.1, hrefused.2⟩
  · rintro q k hq howner
    rcases hq.offered.exists_offers with ⟨id, hoffers⟩
    cases hoffers
    cases howner
  · rintro q k hq howner
    rcases hq.offered.exists_offers with ⟨id, hoffers⟩
    cases hoffers
    cases howner
    decide

/-- The argument has moved from the first node to the second one, and is offered to the third one
through a handle that was read from the first. The refusal names the first node, which has lost the
instance. -/
theorem former_holder_named :
    let r : Register := { id := ⟨0⟩, reg := 0, var := some ⟨0⟩ }
    let history : List Call := [⟨.newVar 0 0, {}⟩, ⟨.newNode .const, {}⟩, ⟨.newNode .const, {}⟩,
      ⟨.newNode .const, {}⟩, ⟨.addArg ⟨0⟩ (.register r), {}⟩,
      ⟨.removeArg ⟨0⟩ (.register (r.ownedBy ⟨0⟩)), {}⟩, ⟨.addArg ⟨1⟩ (.register r), {}⟩]
    let m := ({} : Method).after history
    let c : Call := ⟨.addArg ⟨2⟩ (.register (r.ownedBy ⟨0⟩)), {}⟩
    Along (fun m c => ∃ b, c.verdict m = .ok b) {} history ∧
      (({} : Method).after (history.take 5)).Holds ⟨0⟩ (r.ownedBy ⟨0⟩) ∧
      c.mutation.attaches = true ∧ c.verdict m = .error (.alreadyBound ⟨0⟩ ⟨0⟩) ∧
      ¬ m.HoldsInstance ⟨0⟩ ⟨0⟩ ∧ m.HoldsInstance ⟨1⟩ ⟨0⟩ ∧ ¬ c.TruthfulOn m := by
  intro r history m c
  have hok : Along (fun m c => ∃ b, c.verdict m = .ok b) {} history :=
    ⟨⟨_, rfl⟩, ⟨_, rfl⟩, ⟨_, rfl⟩, ⟨_, rfl⟩, ⟨_, rfl⟩, ⟨_, rfl⟩, ⟨_, rfl⟩, trivial⟩
  have hlost : ¬ m.HoldsInstance ⟨0⟩ ⟨0⟩ := by decide
  refine ⟨hok, ⟨_, rfl, by decide⟩, rfl, rfl, hlost, by decide, fun htrue => ?_⟩
  exact hlost (htrue ⟨0⟩ ⟨0⟩ rfl).1

end Method

end SsaForm
