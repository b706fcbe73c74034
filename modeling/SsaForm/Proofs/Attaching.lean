import SsaForm.Proofs.Places
import SsaForm.Proofs.Refusals

/-!
# SsaForm.Proofs.Attaching — one instance, one place

Whether an instance that is offered stands somewhere already is found out from both ends, by the owner
of the handle and by the records of the variable that the handle names. The two together see every
holder but one: an argument that was given another variable after the handle was taken. Such a handle
is outdated (`Method.Outdated`), and offering it attaches the instance a second time.

* `Taken` says what an instruction is after it has taken an operand, by whichever mutator, and
  `Coherent.taken` that each call which takes what it is offered leads to it.
* `Exclusive.next` keeps instances apart along calls that succeed and attach nothing outdated, and
  `Exclusive.not_stale` is its converse.
* `Coherent.refused` says what happens to a handle that shows that its instance is held.
* `onePlace_reached_iff` carries the three along a run.
-/

namespace SsaForm

open Edit

namespace Method

variable {m : Method} {id : InsnId} {i : Insn}

/-! ## Taking an operand -/

/-- What an instruction `i` has become when it has taken an operand, perhaps in the place of another:
it holds that operand, and else what it held before; and no other instruction was recorded to read
the variable of the operand through its instance. -/
structure Taken (m : Method) (id : InsnId) (a : Operand) (i j : Insn) : Prop where
  self : a.ownedBy id ∈ j.args
  rest : ∀ b ∈ j.args, b ∈ i.args ∨ b = a.ownedBy id
  unread : ∀ v k, a.var? = some v → k ≠ id → ¬ m.Reads v a.id k

/-- Where an operand is free, whatever happens to one instruction, the others do not read its variable
through its instance. -/
theorem Coherent.unread_of_free {s : Linked Insn} (h : (m.putInsn id s).Coherent)
    (hi : m.insn? id = some i) {a : Operand} (hfree : a.Free s.vars) {v : VarId} {k : InsnId}
    (hv : a.var? = some v) (hk : k ≠ id) : ¬ m.Reads v a.id k := by
  intro hread
  cases a with
  | literal l => cases hv
  | register r =>
    rcases VarTable.exists_get? (hfree.known v hv) with ⟨x, hx⟩
    have hnone := (h.readers.uses v x hx).useSite_eq_none.1 (hfree.unused v x hv hx)
    exact hnone k ((reads_putInsn_of_ne hi hk).2 hread)

theorem Coherent.taken_addArg (h : m.Coherent) {n : Node} (hn : m.insn? id = some (.node n))
    {a : Operand} {s : Linked Node} (hok : Node.argAdded a ⟨n, m.vars⟩ = .ok s) :
    m.Taken id a (.node n) (.node s.insn) := by
  have hid : n.id = id := (h.formed id _ hn).id_eq
  subst hid
  rcases Node.argAdded_eq_ok.1 hok with ⟨-, hfree, rfl⟩
  have hself : (m.putInsn n.id ⟨.node n, m.vars⟩).Coherent := (putInsn_self hn).symm ▸ h
  refine ⟨List.mem_append_right _ (List.mem_singleton_self _), fun b hb => ?_, fun v k hv hk => ?_⟩
  · exact (List.mem_append.1 hb).imp_right List.mem_singleton.1
  · exact hself.unread_of_free hn hfree hv hk

theorem Coherent.taken_setArg (h : m.Coherent) {n : Node} (hn : m.insn? id = some (.node n))
    {a old : Operand} {k : Nat} {s : Linked Node}
    (hok : Node.setArg k a ⟨n, m.vars⟩ = .ok old s) : m.Taken id a (.node n) (.node s.insn) := by
  have hid : n.id = id := (h.formed id _ hn).id_eq
  subst hid
  rcases Node.setArg_cases k a ⟨n, m.vars⟩ with
    ⟨e, heq⟩ | ⟨old', b, t, hold, hrep, -, ⟨e, -, heq⟩ | ⟨-, rfl, hfree, heq⟩⟩
  · rw [heq] at hok
    cases hok
  · rw [heq] at hok
    cases hok
  · rw [heq] at hok
    cases hok
    -- the operand is taken as it is, or without the owner that it names
    rcases Node.same_of_replacement hrep with ⟨hid, hvar, howned⟩
    refine ⟨?_, fun c hc => ?_, fun v j hv hj => ?_⟩
    · rw [← howned]
      exact (mem_set_iff_mem_eraseIdx hold).2 (Or.inr rfl)
    · rw [← howned]
      exact ((mem_set_iff_mem_eraseIdx hold).1 hc).imp_left List.mem_of_mem_eraseIdx
    · rw [← hid]
      exact (h.eraseArg hn hold).unread_of_free hn hfree (hvar.trans hv) hj

/-- A phi takes a binding, at once or after it has lost one. -/
theorem Coherent.taken_insertBinding {p q : Phi} {t : VarTable}
    (h : (m.putInsn id ⟨.phi q, t⟩).Coherent) (hp : m.insn? id = some (.phi p))
    (hsub : (Insn.phi q).args ⊆ (Insn.phi p).args) {k : Nat} {r : Register} {pred : BlockId}
    {s : Linked Phi} (hk : k ≤ q.bindings.length)
    (hok : Phi.bindingInserted k r pred ⟨q, t⟩ = .ok s) :
    m.Taken id (.register r) (.phi p) (.phi s.insn) := by
  have hid : q.id = id := (h.formed id _ (insn?_putInsn_self hp _)).id_eq
  subst hid
  rcases Phi.bindingInserted_eq_ok.1 hok with ⟨-, -, hfree, rfl⟩
  refine ⟨(mem_args_insertIdx hk _).2 (Or.inr rfl), fun b hb => ?_, fun v j hv hj => ?_⟩
  · exact ((mem_args_insertIdx hk b).1 hb).imp_left fun hq => hsub hq
  · exact h.unread_of_free (a := .register r) hp hfree hv hj

theorem Coherent.taken_bindArg (h : m.Coherent) {p : Phi} (hp : m.insn? id = some (.phi p))
    {r : Register} {pred : BlockId} {s : Linked Phi}
    (hok : Phi.argBound r pred ⟨p, m.vars⟩ = .ok s) :
    m.Taken id (.register r) (.phi p) (.phi s.insn) := by
  have hself : (m.putInsn id ⟨.phi p, m.vars⟩).Coherent := (putInsn_self hp).symm ▸ h
  exact hself.taken_insertBinding hp (List.Subset.refl _) (Nat.le_refl _) hok

theorem Coherent.taken_replaceArg_phi (h : m.Coherent) {p : Phi} (hp : m.insn? id = some (.phi p))
    {old : OperandId} {r : Register} {s : Linked Phi}
    (hok : Phi.replaceArg old r ⟨p, m.vars⟩ = .ok true s) :
    m.Taken id (.register r) (.phi p) (.phi s.insn) := by
  rcases Phi.replaceArg_eq_ok.1 hok with
    ⟨-, hfalse, -⟩ | ⟨k, pred, r', o, s₁, hindex, -, hrep, hremove, hins, -⟩
  · cases hfalse
  · rcases Phi.argIndex_eq_some hindex with ⟨b, hb, -⟩
    rw [h.removeArgAt_of_getElem? hp hb] at hremove
    cases hremove
    -- the phi that takes the register has lost the binding of the old one
    have hsub : (Insn.phi { p with bindings := p.bindings.eraseIdx k }).args ⊆
        (Insn.phi p).args := by
      rw [args_eraseIdx]
      exact List.eraseIdx_subset
    have htaken := (h.eraseBinding hp hb).taken_insertBinding hp hsub (le_length_eraseIdx hb) hins
    rcases Phi.replacement_eq_ok.1 hrep with ⟨-, ⟨-, rfl⟩ | ⟨-, -, -, rfl⟩⟩
    · exact ⟨htaken.self, htaken.rest, htaken.unread⟩
    · exact htaken

theorem Coherent.taken_replaceArg (h : m.Coherent) (hi : m.insn? id = some i) {old a : Operand}
    {s : Linked Insn} (hok : Insn.replaceArg old a ⟨i, m.vars⟩ = .ok true s) :
    m.Taken id a i s.insn := by
  unfold Insn.replaceArg at hok
  cases i with
  | node n =>
    rcases (Insn.edit_node_eq_ok _ _).1 hok with ⟨s, hreplace, rfl⟩
    rcases Node.replaceArg_eq_ok.1 hreplace with ⟨-, hfalse, -⟩ | ⟨k, o, -, hset, -⟩
    · cases hfalse
    · exact h.taken_setArg hi hset
  | phi p =>
    rcases (Insn.edit_phi_eq_ok _ _).1 hok with ⟨s, hreplace, rfl⟩
    cases old with
    | literal l => cases hreplace
    | register q =>
      cases a with
      | literal l => cases hreplace
      | register r => exact h.taken_replaceArg_phi hi hreplace

/-- Where there is nothing to replace, nothing changes. -/
theorem insn_replaceArg_eq_false {old a : Operand} {s s' : Linked Insn}
    (hok : Insn.replaceArg old a s = .ok false s') : s' = s := by
  obtain ⟨i, t⟩ := s
  unfold Insn.replaceArg at hok
  cases i with
  | node n =>
    rcases (Insn.edit_node_eq_ok _ _).1 hok with ⟨s, hreplace, rfl⟩
    rcases Node.replaceArg_eq_ok.1 hreplace with ⟨-, -, rfl⟩ | ⟨k, o, -, -, htrue⟩
    · rfl
    · cases htrue
  | phi p =>
    rcases (Insn.edit_phi_eq_ok _ _).1 hok with ⟨s, hreplace, rfl⟩
    cases old with
    | literal l =>
      cases hreplace
      rfl
    | register q =>
      cases a with
      | literal l =>
        cases hreplace
        rfl
      | register r =>
        rcases Phi.replaceArg_eq_ok.1 hreplace with
          ⟨-, -, rfl⟩ | ⟨_, _, _, _, _, -, -, -, -, -, htrue⟩
        · rfl
        · cases htrue

/-! ## Calls that offer an operand -/

end Method

/-- The operand that a call offers, and the instruction to which. -/
def Mutation.offers? : Mutation → Option (InsnId × Operand)
  | .bindPhiArg phi r _ => some (phi, .register r)
  | .addArg id a | .setArg id _ a | .replaceArg id _ a => some (id, a)
  | _ => none

/-- Does the call bind an argument that it makes itself? -/
def Mutation.bindsNew : Mutation → Bool
  | .bindPhi _ _ => true
  | _ => false

namespace Call

/-- A register that the call offers names a variable. -/
def Named (c : Call) : Prop :=
  ∀ id r, c.mutation.offers? = some (id, .register r) → r.var ≠ none

/-- An argument that the call makes is one that no instruction holds. -/
def DrawsUnheld (c : Call) (m : Method) : Prop :=
  c.mutation.bindsNew = true → m.Unheld c.supply.draw.1

end Call

/-- An instruction other than `id` holds the instance of the handle under another variable than the
handle names. -/
def Method.Outdated (m : Method) (id : InsnId) (r : Register) : Prop :=
  ∃ k s, k ≠ id ∧ m.Holds k s ∧ s.id = r.id ∧ s.var ≠ r.var

/-- The call attaches an outdated handle, or would. A call that finds nothing to replace attaches
nothing. -/
def Call.Stale (c : Call) (m : Method) : Prop :=
  c.verdict m ≠ .ok (.flag false) ∧
    ∃ id r, c.mutation.offers? = some (id, .register r) ∧ m.Outdated id r

instance (c : Call) : Decidable c.Named :=
  decidable_of_iff (∀ o ∈ c.mutation.offers?, ∀ r ∈ o.2.register?, r.var ≠ none) <| by
    constructor
    · intro h id r hr
      exact h _ hr r rfl
    · rintro h ⟨id, a⟩ ho r hr
      cases a with
      | literal l => cases hr
      | register q =>
        cases hr
        exact h id r ho

instance (c : Call) (m : Method) : Decidable (c.DrawsUnheld m) :=
  inferInstanceAs (Decidable (c.mutation.bindsNew = true → m.Unheld c.supply.draw.1))

/-- Whether a handle is outdated can be read off the slots. -/
instance (m : Method) (id : InsnId) (r : Register) : Decidable (m.Outdated id r) :=
  decidable_of_iff (∃ k ∈ List.range m.slots.length, (⟨k⟩ : InsnId) ≠ id ∧
      ∃ i ∈ m.insn? ⟨k⟩, ∃ s ∈ i.registers, s.id = r.id ∧ s.var ≠ r.var) <| by
    constructor
    · rintro ⟨k, -, hk, i, hi, s, hs, heq, hvar⟩
      exact ⟨⟨k⟩, s, hk, ⟨i, hi, hs⟩, heq, hvar⟩
    · rintro ⟨⟨k⟩, s, hk, ⟨i, hi, hs⟩, heq, hvar⟩
      have hlt : k < m.slots.length := by
        rw [Method.insn?, Option.join_eq_some_iff] at hi
        exact (List.getElem?_eq_some_iff.1 hi).1
      exact ⟨k, List.mem_range.2 hlt, hk, i, hi, s, hs, heq, hvar⟩

instance (c : Call) (m : Method) : Decidable (c.Stale m) :=
  decidable_of_iff (c.verdict m ≠ .ok (.flag false) ∧
      ∃ o ∈ c.mutation.offers?, ∃ r ∈ o.2.register?, m.Outdated o.1 r) <| by
    refine and_congr_right fun _ => ?_
    constructor
    · rintro ⟨⟨id, a⟩, ho, r, hr, hout⟩
      cases a with
      | literal l => cases hr
      | register q =>
        cases hr
        exact ⟨id, r, ho, hout⟩
    · rintro ⟨id, r, ho, hout⟩
      exact ⟨(id, .register r), ho, r, rfl, hout⟩

namespace Method

variable {m : Method} {id : InsnId} {i : Insn}

/-- A call that succeeds and does not report that there was nothing to replace takes what it offers. -/
theorem Coherent.taken (h : m.Coherent) {c : Call} {a : Operand} {b : Answer}
    (hoffers : c.mutation.offers? = some (id, a)) (hok : c.verdict m = .ok b)
    (hdone : b ≠ .flag false) :
    ∃ i s, m.insn? id = some i ∧ c.next m = m.putInsn id s ∧ m.Taken id a i s.insn := by
  obtain ⟨c, supply⟩ := c
  cases c with
  | bindPhiArg phi r pred =>
    cases hoffers
    rcases call_of_ok id rfl hok with ⟨i, u, s, hi, hact, -, hnext⟩
    refine ⟨i, s, hi, hnext, ?_⟩
    cases i with
    | node n => cases hact
    | phi p =>
      rcases (Insn.edit_phi_eq_ok _ _).1 hact with ⟨s, hbind, rfl⟩
      exact h.taken_bindArg hi (Phi.run_bindArg.1 hbind)
  | addArg id a =>
    cases hoffers
    rcases call_of_ok id rfl hok with ⟨i, u, s, hi, hact, -, hnext⟩
    refine ⟨i, s, hi, hnext, ?_⟩
    cases i with
    | node n =>
      rcases (Insn.edit_node_eq_ok _ _).1 hact with ⟨s, hadd, rfl⟩
      exact h.taken_addArg hi (Node.run_addArg.1 hadd)
    | phi p => cases hact
  | setArg id k a =>
    cases hoffers
    rcases call_of_ok id rfl hok with ⟨i, old, s, hi, hact, -, hnext⟩
    refine ⟨i, s, hi, hnext, ?_⟩
    cases i with
    | node n =>
      rcases (Insn.edit_node_eq_ok _ _).1 hact with ⟨s, hset, rfl⟩
      exact h.taken_setArg hi hset
    | phi p => cases hact
  | replaceArg id old a =>
    cases hoffers
    rcases call_of_ok id rfl hok with ⟨i, flag, s, hi, hact, rfl, hnext⟩
    refine ⟨i, s, hi, hnext, ?_⟩
    have htrue : flag = true := by
      cases flag with
      | true => rfl
      | false => exact absurd rfl hdone
    subst htrue
    exact h.taken_replaceArg hi hact
  | _ => cases hoffers

/-- What a call offers to an instruction that has nothing to replace is left aside. -/
theorem next_of_replaced_nothing {c : Call} {o : InsnId × Operand}
    (hoffers : c.mutation.offers? = some o) (hok : c.verdict m = .ok (.flag false)) :
    c.next m = m := by
  obtain ⟨c, supply⟩ := c
  cases c with
  | bindPhiArg phi r pred =>
    rcases call_of_ok phi rfl hok with ⟨i, u, s, -, -, hanswer, -⟩
    cases hanswer
  | addArg id a =>
    rcases call_of_ok id rfl hok with ⟨i, u, s, -, -, hanswer, -⟩
    cases hanswer
  | setArg id k a =>
    rcases call_of_ok id rfl hok with ⟨i, old, s, -, -, hanswer, -⟩
    cases hanswer
  | replaceArg id old a =>
    rcases call_of_ok id rfl hok with ⟨i, flag, s, hi, hact, hanswer, hnext⟩
    cases hanswer
    rw [hnext, insn_replaceArg_eq_false hact]
    exact putInsn_self hi
  | _ => cases hoffers

/-- An operand that no other instruction holds is taken without being shared. -/
theorem Exclusive.take (h : m.Exclusive) (hi : m.insn? id = some i) {a : Operand} {s : Linked Insn}
    (htaken : m.Taken id a i s.insn)
    (hother : ∀ r, a = .register r → ∀ k q, k ≠ id → m.Holds k q → q.id ≠ r.id) :
    (m.putInsn id s).Exclusive := by
  refine h.putInsn hi fun q hq => ?_
  rcases htaken.rest _ (Insn.mem_registers.1 hq) with hold | hself
  · exact Or.inl ⟨q, Insn.mem_registers.2 hold, rfl⟩
  · cases a with
    | literal l => cases hself
    | register r =>
      cases hself
      by_cases hhere : ∃ s ∈ i.registers, s.id = r.id
      · exact Or.inl hhere
      · refine Or.inr fun k s hs heq => ?_
        by_cases hk : k = id
        · subst hk
          exact hhere ⟨s, (holds_of_insn? hi).1 hs, heq⟩
        · exact hother r rfl k s hk hs heq

/-- A handle that names a variable was taken, so no record betrayed a holder; what can hold the
instance elsewhere is an argument that reads another variable. -/
theorem Taken.elsewhere {r : Register} {j : Insn} (h : m.Taken id (.register r) i j)
    (hnamed : r.var ≠ none) (hcurrent : ¬ m.Outdated id r) (k : InsnId) (q : Register) (hk : k ≠ id)
    (hq : m.Holds k q) : q.id ≠ r.id := by
  intro heq
  rcases Option.ne_none_iff_exists'.1 hnamed with ⟨v, hv⟩
  by_cases hvar : q.var = r.var
  · exact h.unread v k hv hk ⟨q, hq, heq, hvar.trans hv⟩
  · exact hcurrent ⟨k, q, hk, hq, heq, hvar⟩

/-- Renaming an argument leaves the instances where they are. -/
theorem exists_register_of_attachVar {k : Nat} {v : VarId} {t : VarTable} {s : Linked Insn}
    (hok : Insn.varAttached k v ⟨i, t⟩ = .ok s) :
    ∀ r ∈ s.insn.registers, ∃ q ∈ i.registers, q.id = r.id := by
  intro r hr
  cases i with
  | node n =>
    rcases Insn.varAttached_node_eq_ok.1 hok with ⟨q, t', hq, -, rfl⟩
    rcases List.mem_or_eq_of_mem_set (Insn.mem_registers.1 hr) with hold | hnew
    · exact ⟨r, Insn.mem_registers.2 hold, rfl⟩
    · cases hnew
      exact ⟨q, Insn.mem_registers.2 (List.mem_of_getElem? hq), rfl⟩
  | phi p =>
    rcases Insn.varAttached_phi_eq_ok.1 hok with ⟨b, t', hb, -, rfl⟩
    rcases List.mem_map.1 hr with ⟨d, hd, rfl⟩
    rcases List.mem_or_eq_of_mem_set hd with hd | rfl
    · exact ⟨d.arg, List.mem_map.2 ⟨d, hd, rfl⟩, rfl⟩
    · exact ⟨b.arg, List.mem_map.2 ⟨b, List.mem_of_getElem? hb, rfl⟩, rfl⟩

/-- A call that offers nothing shares nothing. -/
theorem Exclusive.next_of_offers_none (hex : m.Exclusive) (h : m.Coherent) {c : Call} {b : Answer}
    (hnone : c.mutation.offers? = none) (hok : c.verdict m = .ok b) (hdraws : c.DrawsUnheld m) :
    (c.next m).Exclusive := by
  obtain ⟨c, supply⟩ := c
  have hremove := exclusive_keptByRemovals
  have hedit := Call.next_eq ⟨c, supply⟩ m
  cases c with
  | newVar reg version => exact hex
  | newNode op => exact hex.grown rfl
  | newPhi reg => exact hex.grown rfl
  | bindPhi phi pred =>
    rcases call_of_ok phi rfl hok with ⟨i, r, s, hi, hact, -, hnext⟩
    cases i with
    | node n => cases hact
    | phi p =>
      rcases (Insn.edit_phi_eq_ok _ _).1 hact with ⟨s, hbind, rfl⟩
      have htaken := h.taken_bindArg hi (Phi.argBound_of_bind hbind)
      rw [hnext]
      refine hex.take hi htaken ?_
      rintro r hr k q - hq
      cases hr
      exact hdraws rfl k q hq
  | removePhiArg phi r => exact hedit ▸ keeps_map (hremove.keeps_removePhiArg phi r) m hex
  | removePhiArgAt phi k => exact hedit ▸ keeps_map (hremove.keeps_removePhiArgAt phi k) m hex
  | removeArg id a => exact hedit ▸ keeps_map (hremove.keeps_removeArg id a) m hex
  | unbindInsn id => exact hedit ▸ keeps_map (hremove.keeps_unbindInsn id) m hex
  | removePhi phi => exact hedit ▸ keeps_map (hremove.keeps_removePhi phi) m hex
  | removePhis phis => exact hedit ▸ keeps_map (hremove.keeps_removePhis phis) m hex
  | setChecks checks => exact hex
  | setResult id r =>
    rcases call_of_ok id rfl hok with ⟨i, u, s, hi, hact, -, hnext⟩
    rw [hnext]
    cases i with
    | phi p => cases hact
    | node n =>
      rcases (Insn.edit_node_eq_ok _ _).1 hact with ⟨s, hset, rfl⟩
      rcases Node.resultSet_eq_ok.1 (Node.run_setResult.1 hset) with ⟨-, -, rfl⟩
      exact hex.sub hi fun r hr => ⟨r, hr, rfl⟩
  | assignResult id v =>
    rcases call_of_ok id rfl hok with ⟨i, u, s, hi, hact, -, hnext⟩
    rw [hnext]
    rcases Insn.resultAssigned_eq_ok.1 (Insn.run_assignResult.1 hact) with ⟨-, r, -, -, rfl⟩
    cases i with
    | node n => exact hex.sub hi fun r hr => ⟨r, hr, rfl⟩
    | phi p => exact hex.sub hi fun r hr => ⟨r, hr, rfl⟩
  | attachVar id k v =>
    rcases call_of_ok id rfl hok with ⟨i, u, s, hi, hact, -, hnext⟩
    rw [hnext]
    exact hex.sub hi (exists_register_of_attachVar (Insn.run_attachVar.1 hact))
  | _ => cases hnone

/-- A call that succeeds and attaches nothing outdated shares nothing. -/
theorem Exclusive.next (hex : m.Exclusive) (h : m.Coherent) {c : Call} {b : Answer}
    (hok : c.verdict m = .ok b) (hnamed : c.Named) (hdraws : c.DrawsUnheld m)
    (hstale : ¬ c.Stale m) : (c.next m).Exclusive := by
  cases hoffers : c.mutation.offers? with
  | none => exact hex.next_of_offers_none h hoffers hok hdraws
  | some o =>
    obtain ⟨id, a⟩ := o
    by_cases hdone : b = .flag false
    · subst hdone
      rw [next_of_replaced_nothing hoffers hok]
      exact hex
    · rcases h.taken hoffers hok hdone with ⟨i, s, hi, hnext, htaken⟩
      rw [hnext]
      refine hex.take hi htaken ?_
      rintro r rfl
      refine htaken.elsewhere (hnamed id r hoffers) fun hout => hstale ⟨?_, id, r, hoffers, hout⟩
      rw [hok]
      intro heq
      cases heq
      exact hdone rfl

/-- A call that succeeds and attaches an outdated handle shares its instance. -/
theorem Exclusive.not_stale {c : Call} {b : Answer} (hex : (c.next m).Exclusive) (h : m.Coherent)
    (hok : c.verdict m = .ok b) : ¬ c.Stale m := by
  rintro ⟨hdone, id, r, hoffers, k, q, hk, hq, heq, -⟩
  have hdone' : b ≠ .flag false := by
    rintro rfl
    exact hdone hok
  rcases h.taken hoffers hok hdone' with ⟨i, s, hi, hnext, htaken⟩
  rw [hnext] at hex
  -- the instance is held where it was, and now by the instruction that has taken it
  have hthere : (m.putInsn id s).Holds k q := by
    rw [holds_putInsn hi, if_neg hk.symm]
    exact hq
  have hhere : (m.putInsn id s).Holds id (r.ownedBy id) := by
    rw [holds_putInsn hi, if_pos rfl]
    exact Insn.mem_registers.2 htaken.self
  exact hk (hex k id q (r.ownedBy id) hthere hhere heq)

/-! ## Calls that are refused -/

/-- What is held can be seen from the handle: it names an owner, or an argument on the same instance
reads the variable that it names. -/
inductive Shows (m : Method) (r : Register) : Prop where
  | owner (hknown : m.vars.Knows r.var) (howner : r.owner ≠ none) : Shows m r
  | reader {v : VarId} {k : InsnId} (hvar : r.var = some v) (hread : m.Reads v r.id k) : Shows m r

/-- The instruction `k` is the owner that the handle names, or it holds the instance. -/
def Place (m : Method) (r : Register) (k : InsnId) : Prop :=
  r.owner = some k ∨ ∃ i, m.insn? k = some i ∧ ∃ a ∈ i.args, a.id = r.id

/-- From one end or the other, a holder is found. -/
theorem Coherent.holder_of_shows (h : m.Coherent) {r : Register} (hr : m.Shows r) :
    ∃ k, m.Place r k ∧ r.holder m.vars = .ok (some k) := by
  cases hr with
  | owner hknown howner =>
    rcases Option.ne_none_iff_exists'.1 howner with ⟨k, hk⟩
    exact ⟨k, Or.inl hk, Register.holder_owned hk hknown⟩
  | @reader v k hvar hread =>
    rcases hread with ⟨s, hs, hid, hv⟩
    rcases VarTable.exists_get? (h.readers.known k s hs v hv) with ⟨x, hx⟩
    have hsite := (h.readers.uses v x hx).useSite_eq_some.2 ⟨s, hs, hid, hv⟩
    cases howner : r.owner with
    | none =>
      rcases hs with ⟨i, hi, hs⟩
      refine ⟨k, Or.inr ⟨i, hi, _, Insn.mem_registers.1 hs, hid⟩, ?_⟩
      simp only [Register.holder, hvar, VarTable.find_eq_ok.2 hx, howner, Except.map,
        Option.none_or, hsite]
    | some j =>
      refine ⟨j, Or.inl howner, Register.holder_owned howner ?_⟩
      rw [hvar]
      exact VarTable.knows_some.2 (VarTable.mem_of_get? hx)

/-- The register is offered to a live instruction that would take it if it were detached: a phi that
does not bind the predecessor, a node, or either where it holds the argument to be replaced. -/
inductive Offered (m : Method) (r : Register) : Call → Prop where
  | bindPhiArg {phi : InsnId} {p : Phi} {pred : BlockId} (s : Supply)
    (hphi : m.insn? phi = some (.phi p)) (hpred : pred ∉ p.preds) :
    Offered m r ⟨.bindPhiArg phi r pred, s⟩
  | addArg {insn : InsnId} {n : Node} (s : Supply) (hnode : m.insn? insn = some (.node n)) :
    Offered m r ⟨.addArg insn (.register r), s⟩
  | setArg {insn : InsnId} {n : Node} {k : Nat} (s : Supply)
    (hnode : m.insn? insn = some (.node n)) (hother : ∀ b, n.args[k]? = some b → b.id ≠ r.id) :
    Offered m r ⟨.setArg insn k (.register r), s⟩
  | replaceArgNode {insn : InsnId} {n : Node} {old : Operand} (s : Supply)
    (hnode : m.insn? insn = some (.node n)) (hold : n.argIndex old.id ≠ none)
    (hother : old.id ≠ r.id) : Offered m r ⟨.replaceArg insn old (.register r), s⟩
  | replaceArgPhi {phi : InsnId} {p : Phi} {old : Register} (s : Supply)
    (hphi : m.insn? phi = some (.phi p)) (hold : p.argIndex old.id ≠ none)
    (hother : old.id ≠ r.id) : Offered m r ⟨.replaceArg phi (.register old) (.register r), s⟩

theorem Offered.exists_offers {r : Register} {c : Call} (hc : m.Offered r c) :
    ∃ id, c.mutation.offers? = some (id, .register r) := by
  cases hc <;> exact ⟨_, rfl⟩

/-- What is offered but has a holder is refused, and nothing changes. -/
theorem Offered.refused {r : Register} {c : Call} (hc : m.Offered r c) {k : InsnId}
    (hholder : r.holder m.vars = .ok (some k)) :
    ∃ id i j, c.mutation.offers? = some (id, .register r) ∧ m.insn? id = some i ∧
      i.Blocks m.vars (.register r) j ∧ c.verdict m = .error (.alreadyBound r.id j) ∧
      c.next m = m := by
  have hknown := (Register.holder_eq_some.1 hholder).1
  have hdetached := Register.ensureDetached_eq_alreadyBound.2 ⟨rfl, hholder⟩
  -- the instruction itself comes before the holder
  have hblocks : ∀ {i : Insn} {here : Bool}, (here = true ↔ ∃ a ∈ i.args, a.id = r.id) →
      i.Blocks m.vars (.register r) (if here then i.id else k) := by
    intro i here hheld
    cases here with
    | true => exact .self (hheld.1 rfl)
    | false =>
      refine .holder (fun a ha hid => ?_) rfl hholder
      cases hheld.2 ⟨a, ha, hid⟩
  cases hc with
  | @bindPhiArg phi p pred s hphi hpred =>
    exact ⟨phi, _, _, rfl, hphi, hblocks Phi.holds_iff_exists_arg,
      call_of_error rfl hphi (Insn.edit_phi_of_error _ _ (Phi.bindArg_of_error
        (Phi.bindingInserted_refused hpred hdetached)))⟩
  | @addArg insn n s hnode =>
    exact ⟨insn, _, _, rfl, hnode, hblocks Node.holds_iff,
      call_of_error rfl hnode (Insn.edit_node_of_error _ _ (Node.addArg_of_error
        (Node.argAdded_refused hdetached)))⟩
  | @setArg insn n index s hnode hother =>
    have hindex : n.argIndex r.id ≠ some index := by
      intro hindex
      rcases Node.argIndex_eq_some hindex with ⟨b, hb, hid⟩
      exact hother b hb hid
    exact ⟨insn, _, _, rfl, hnode, hblocks Node.holds_iff,
      call_of_error rfl hnode (Insn.edit_node_of_error _ _ (Node.setArg_refused
        (Node.replacement_refused hindex hdetached)))⟩
  | @replaceArgNode insn n old s hnode hold hother =>
    have hreplace := Node.replaceArg_refused (s := ⟨n, m.vars⟩) hold hother hdetached
    exact ⟨insn, _, _, rfl, hnode, hblocks Node.holds_iff,
      call_of_error rfl hnode (Insn.edit_node_of_error _ _ hreplace)⟩
  | @replaceArgPhi phi p old s hphi hold hother =>
    have hreplace := Phi.replaceArg_refused (s := ⟨p, m.vars⟩) hold hknown hother hdetached
    exact ⟨phi, _, _, rfl, hphi, hblocks Phi.holds_iff_exists_arg,
      call_of_error rfl hphi
        (Insn.edit_phi_of_error (Node.replaceArg old.id (.register r)) _ hreplace)⟩

/-- **Refusal.** Where the handle shows that its instance is held, no instruction takes it: the call
names a place of the instance and changes nothing. -/
theorem Coherent.refused (h : m.Coherent) {r : Register} (hr : m.Shows r) {c : Call}
    (hc : m.Offered r c) :
    ∃ k, m.Place r k ∧ c.verdict m = .error (.alreadyBound r.id k) ∧ c.next m = m := by
  rcases h.holder_of_shows hr with ⟨k, hplace, hholder⟩
  rcases hc.refused hholder with ⟨id, i, j, -, hi, hblocks, hcall⟩
  refine ⟨j, ?_, hcall⟩
  cases hblocks with
  | self hheld => exact Or.inr ⟨i, (h.formed id i hi).id_eq ▸ hi, hheld⟩
  | holder _ hr hholder' =>
    cases hr
    rw [hholder, Except.ok.injEq, Option.some.injEq] at hholder'
    exact hholder' ▸ hplace

/-! ## Runs -/

/-- Each call of such a run keeps readings recorded, which is what it takes to keep instances apart. -/
theorem exclusive_after {checks : Checks} {history : List Call}
    (hok : Along (fun m c => ∃ b, c.verdict m = .ok b) { checks := checks } history)
    (hnamed : ∀ c ∈ history, c.Named)
    (hdraws : Along (fun m c => c.DrawsUnheld m) { checks := checks } history)
    (hcurrent : Along (fun m c => ¬ c.Stale m) { checks := checks } history) :
    (({ checks := checks } : Method).after history).Exclusive := by
  have hnames : Along (fun _ c => c.Named) { checks := checks } history := by
    refine along_iff.2 fun front c rest hsplit => hnamed c ?_
    rw [← hsplit]
    exact List.mem_append_right _ List.mem_cons_self
  have hall := along_and.2 ⟨along_and.2 ⟨hok, hnames⟩, along_and.2 ⟨hdraws, hcurrent⟩⟩
  have hempty : ({ checks := checks } : Method).Exclusive := by
    rintro i j r s ⟨k, hk, -⟩
    cases hk
  refine (invariant_after (P := fun m => m.Coherent ∧ m.Exclusive) ?_
    ⟨coherent_empty checks, hempty⟩ hall).2
  rintro m c ⟨hcoherent, hexclusive⟩ ⟨⟨⟨b, hb⟩, hname⟩, hdraw, hstale⟩
  exact ⟨hcoherent.next (spoilsNode_of_ok hb), hexclusive.next hcoherent hb hname hdraw hstale⟩

theorem coherent_after_of_ok {checks : Checks} {history : List Call}
    (hok : Along (fun m c => ∃ b, c.verdict m = .ok b) { checks := checks } history) :
    (({ checks := checks } : Method).after history).Coherent := by
  refine invariant_after ?_ (coherent_empty checks) hok
  rintro m c hm ⟨b, hb⟩
  exact hm.next (spoilsNode_of_ok hb)

/-- **One instance, one place.** Take a run without failures in which every register that is offered
names a variable. In every reached state each instance stands at one position at most, if and only if
no call attached an outdated handle. And in every reached state, wherever a handle shows that its
instance is held, offering it is refused with the place and changes nothing. -/
theorem onePlace_reached_iff {checks : Checks} {history : List Call}
    (hok : Along (fun m c => ∃ b, c.verdict m = .ok b) { checks := checks } history)
    (hnamed : ∀ c ∈ history, c.Named)
    (hdraws : Along (fun m c => c.DrawsUnheld m) { checks := checks } history) :
    ((∀ front back, front ++ back = history →
        (({ checks := checks } : Method).after front).OnePlace) ↔
      Along (fun m c => ¬ c.Stale m) { checks := checks } history) ∧
    ∀ front back, front ++ back = history →
      ∀ m, m = ({ checks := checks } : Method).after front → ∀ r, m.Shows r →
        ∀ c, m.Offered r c →
          ∃ k, m.Place r k ∧ c.verdict m = .error (.alreadyBound r.id k) ∧ c.next m = m := by
  have hcoherent : ∀ front back, front ++ back = history →
      (({ checks := checks } : Method).after front).Coherent := by
    intro front back hsplit
    rw [← hsplit, along_append] at hok
    exact coherent_after_of_ok hok.1
  refine ⟨⟨?_, ?_⟩, ?_⟩
  · intro hreached
    refine along_iff.2 fun front c rest hsplit => ?_
    -- the call has succeeded, and the state after it holds each instance once
    have hnext : front ++ [c] ++ rest = history := by
      rw [List.append_assoc]
      exact hsplit
    have hone := hreached (front ++ [c]) rest hnext
    rw [(hcoherent (front ++ [c]) rest hnext).formed.onePlace_iff, after_append] at hone
    rcases along_iff.1 hok front c rest hsplit with ⟨b, hb⟩
    exact hone.not_stale (hcoherent front (c :: rest) hsplit) hb
  · intro hcurrent front back hsplit
    rw [(hcoherent front back hsplit).formed.onePlace_iff]
    rw [← hsplit, along_append] at hok hdraws hcurrent
    have hnames : ∀ c ∈ front, c.Named := by
      intro c hc
      exact hnamed c (hsplit ▸ List.mem_append_left back hc)
    exact exclusive_after hok.1 hnames hdraws.1 hcurrent.1
  · rintro front back hsplit m rfl r hr c hc
    exact (hcoherent front back hsplit).refused hr hc

/-- An argument is renamed, put back under its new name, removed, and bound to a phi through a handle
that names the new variable. Before it was renamed, the phi refused it. -/
theorem onePlace_reached_iff_moved :
    let r : Register := { id := ⟨0⟩, reg := 0, var := some ⟨0⟩ }
    let history : List Call := [⟨.newVar 0 0, {}⟩, ⟨.newVar 0 1, {}⟩, ⟨.newNode .const, {}⟩,
      ⟨.newPhi 0, ⟨1⟩⟩, ⟨.addArg ⟨0⟩ (.register { id := ⟨0⟩, reg := 0, var := some ⟨0⟩ }), {}⟩,
      ⟨.attachVar ⟨0⟩ 0 ⟨1⟩, {}⟩,
      ⟨.setArg ⟨0⟩ 0 (.register { id := ⟨0⟩, reg := 0, var := some ⟨1⟩ }), {}⟩,
      ⟨.removeArg ⟨0⟩ (.register { id := ⟨0⟩, reg := 0, var := some ⟨1⟩ }), {}⟩,
      ⟨.bindPhiArg ⟨1⟩ { id := ⟨0⟩, reg := 0, var := some ⟨1⟩ } ⟨7⟩, {}⟩]
    let m := ({} : Method).after (history.take 5)
    let c : Call := ⟨.bindPhiArg ⟨1⟩ r ⟨7⟩, {}⟩
    Along (fun m c => ∃ b, c.verdict m = .ok b) {} history ∧ (∀ c ∈ history, c.Named) ∧
      Along (fun m c => c.DrawsUnheld m) {} history ∧
      (∀ front back, front ++ back = history → (({} : Method).after front).OnePlace) ∧
      m.Shows r ∧ m.Offered r c ∧
      ∃ k, m.Place r k ∧ c.verdict m = .error (.alreadyBound r.id k) ∧ c.next m = m := by
  intro r history m c
  have hok : Along (fun m c => ∃ b, c.verdict m = .ok b) {} history :=
    ⟨⟨_, rfl⟩, ⟨_, rfl⟩, ⟨_, rfl⟩, ⟨_, rfl⟩, ⟨_, rfl⟩, ⟨_, rfl⟩, ⟨_, rfl⟩, ⟨_, rfl⟩, ⟨_, rfl⟩, trivial⟩
  have hnamed : ∀ c ∈ history, c.Named := by decide
  have hdraws : Along (fun m c => c.DrawsUnheld m) {} history := by decide
  have hholds : m.Holds ⟨0⟩ (r.ownedBy ⟨0⟩) := ⟨_, rfl, by decide⟩
  have hshows : m.Shows r := .reader rfl ⟨_, hholds, rfl, rfl⟩
  have hoffered : m.Offered r c := .bindPhiArg {} rfl List.not_mem_nil
  have hone := onePlace_reached_iff hok hnamed hdraws
  have hrefused := hone.2 (history.take 5) (history.drop 5) (List.take_append_drop 5 history) m rfl
  exact ⟨hok, hnamed, hdraws, hone.1.2 (by decide), hshows, hoffered,
    hrefused r hshows c hoffered⟩

/-- An argument that was renamed is attached again through the handle that named its first variable.
Each call succeeds. -/
theorem placed_twice :
    let r : Register := { id := ⟨0⟩, reg := 0, var := some ⟨0⟩ }
    let history : List Call := [⟨.newVar 0 0, {}⟩, ⟨.newVar 0 1, {}⟩, ⟨.newNode .const, {}⟩,
      ⟨.newNode .const, {}⟩, ⟨.addArg ⟨0⟩ (.register r), {}⟩, ⟨.attachVar ⟨0⟩ 0 ⟨1⟩, {}⟩,
      ⟨.addArg ⟨1⟩ (.register r), {}⟩]
    Along (fun m c => ∃ b, c.verdict m = .ok b) {} history ∧ (∀ c ∈ history, c.Named) ∧
      Along (fun m c => c.DrawsUnheld m) {} history ∧
      ¬ (({} : Method).after history).OnePlace := by
  intro r history
  refine ⟨⟨⟨_, rfl⟩, ⟨_, rfl⟩, ⟨_, rfl⟩, ⟨_, rfl⟩, ⟨_, rfl⟩, ⟨_, rfl⟩, ⟨_, rfl⟩, trivial⟩, ?_, ?_, ?_⟩
  · decide
  · decide
  · decide

end Method

end SsaForm
