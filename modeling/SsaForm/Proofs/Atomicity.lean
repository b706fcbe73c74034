import SsaForm.Proofs.Attaching
import SsaForm.Proofs.Footprints
import SsaForm.Proofs.PhiLists

/-!
# SsaForm.Proofs.Atomicity — replacements that fail

Putting an operand in the place of another takes the old one out before the new one is attached. What
could stand in the way is looked at first, but for one case: a handle on the very instance that is to
be replaced need not be detached. It may name another variable than the attached argument does, and a
copy of the instance may read that variable in another instruction, or the table may lack it. Then the
old argument is out when the new one turns out not to be free.

* `Edit.AtomicAt` and `Call.AtomicOn` say that a failure changes nothing.
* `Coherent.free_detached_iff` says when an instance that was taken out may be attached again.
* `setArg_atomicOn_iff` and `replaceBound_atomicOn_iff` tell which replacements are atomic, on nodes
  and on phis.
-/

namespace SsaForm

open Edit

/-! ## Failures that change nothing -/

namespace Edit

variable {σ α β : Type} {act : Edit σ α} {s s₁ : σ}

/-- Run on `s`, the edit changes nothing if it fails. -/
def AtomicAt (act : Edit σ α) (s : σ) : Prop := ∀ e s', act s = .error e s' → s' = s

theorem atomicAt_of_ok {a : α} (h : act s = .ok a s₁) : AtomicAt act s := by
  intro e s' he
  rw [h] at he
  cases he

theorem atomicAt_of_error {e : Fault} (h : act s = .error e s₁) : AtomicAt act s ↔ s₁ = s := by
  constructor
  · intro hatomic
    exact hatomic e s₁ h
  · intro heq f s' hf
    rw [h] at hf
    cases hf
    exact heq

theorem atomicAt_congr {act' : Edit σ α} (h : act s = act' s) :
    AtomicAt act s ↔ AtomicAt act' s := by
  rw [AtomicAt, h]
  rfl

theorem atomicAt_map {f : α → β} : AtomicAt (f <$> act) s ↔ AtomicAt act s := by
  cases h : act s with
  | ok a s' =>
    have hmap : (f <$> act) s = .ok (f a) s' := run_map_eq_ok.2 ⟨a, h, rfl⟩
    exact iff_of_true (atomicAt_of_ok hmap) (atomicAt_of_ok h)
  | error e s' => rw [atomicAt_of_error (map_of_error h), atomicAt_of_error h]

/-- Where a first step has changed something, a second one that changes all or nothing must not
fail. -/
theorem atomicAt_then {a : α} {f : α → σ → Except Fault σ} {g : α → β} (h : act s = .ok a s₁) :
    AtomicAt (act >>= fun a => atomically (f a) >>= fun _ => pure (g a)) s ↔
      s₁ = s ∨ ∃ s', f a s₁ = .ok s' := by
  have hrun : (act >>= fun a => atomically (f a) >>= fun _ => pure (g a)) s = _ := bind_of_ok h
  cases hf : f a s₁ with
  | ok s' =>
    rw [bind_of_ok (atomically_of_ok hf)] at hrun
    exact iff_of_true (atomicAt_of_ok hrun) (Or.inr ⟨s', rfl⟩)
  | error e =>
    rw [bind_of_error (atomically_of_error hf)] at hrun
    refine (atomicAt_of_error hrun).trans (or_iff_left ?_).symm
    rintro ⟨s', hs'⟩
    cases hs'

end Edit

namespace Insn

variable {α : Type} {onNode : Edit (Linked Node) α} {onPhi : Edit (Linked Phi) α} {t : VarTable}

theorem atomicAt_edit_node {n : Node} :
    AtomicAt (edit onNode onPhi) ⟨.node n, t⟩ ↔ AtomicAt onNode ⟨n, t⟩ := by
  cases h : onNode ⟨n, t⟩ with
  | ok a s => exact iff_of_true (atomicAt_of_ok (edit_node_of_ok _ _ h)) (atomicAt_of_ok h)
  | error e s =>
    rw [atomicAt_of_error (edit_node_of_error _ _ h), atomicAt_of_error h]
    obtain ⟨n', t'⟩ := s
    simp [Linked.ofNode]

theorem atomicAt_edit_phi {p : Phi} :
    AtomicAt (edit onNode onPhi) ⟨.phi p, t⟩ ↔ AtomicAt onPhi ⟨p, t⟩ := by
  cases h : onPhi ⟨p, t⟩ with
  | ok a s => exact iff_of_true (atomicAt_of_ok (edit_phi_of_ok _ _ h)) (atomicAt_of_ok h)
  | error e s =>
    rw [atomicAt_of_error (edit_phi_of_error _ _ h), atomicAt_of_error h]
    obtain ⟨p', t'⟩ := s
    simp [Linked.ofPhi]

end Insn

/-- A failure of the call changes nothing. -/
def Call.AtomicOn (c : Call) (m : Method) : Prop := ∀ e, c.verdict m = .error e → c.next m = m

namespace Method

variable {m : Method} {id : InsnId} {i : Insn}

/-- Putting something else back changes the method. -/
theorem putInsn_eq_self_iff (hi : m.insn? id = some i) {s : Linked Insn} :
    m.putInsn id s = m ↔ s = ⟨i, m.vars⟩ := by
  constructor
  · intro h
    have hinsn := insn?_putInsn_self hi s
    rw [h, hi, Option.some.injEq] at hinsn
    have hvars : s.vars = m.vars := congrArg Method.vars h
    obtain ⟨j, t⟩ := s
    cases hinsn
    cases hvars
    rfl
  · rintro rfl
    exact putInsn_self hi

/-- In a method that does not check itself, a call that edits one instruction is as atomic as the
edit. -/
theorem atomicOn_iff_edit {α : Type} {c : Call} {f : α → Answer} {act : Edit (Linked Insn) α}
    (hedit : c.edit = f <$> verified (editInsn id act)) (hi : m.insn? id = some i)
    (hoff : m.checks.afterMutation = false) : c.AtomicOn m ↔ AtomicAt act ⟨i, m.vars⟩ := by
  rw [Call.AtomicOn, next_of_edit hedit hi, verdict_of_edit hedit hi hoff, putInsn_eq_self_iff hi]
  cases h : act ⟨i, m.vars⟩ with
  | ok a s => simp [verdict, Except.map, atomicAt_of_ok h]
  | error e s => simp [verdict, finalState, Except.map, atomicAt_of_error h]

/-! ## Attaching an instance again -/

/-- No instruction but `id` reads the variable that the handle names through its instance. -/
def ReadOnlyIn (m : Method) (id : InsnId) (r : Register) : Prop :=
  ∀ v k, r.var = some v → m.Reads v r.id k → k = id

/-- An instance that an instruction does not hold any more may be attached again, without its former
owner, as long as nothing else reads the variable that the handle names through it. -/
theorem Coherent.free_detached_iff {s : Linked Insn} (h : (m.putInsn id s).Coherent)
    (hi : m.insn? id = some i) {r : Register} (hgone : ∀ b ∈ s.insn.args, b.id ≠ r.id) :
    r.detached.Free s.vars ↔ s.vars.Knows r.var ∧ m.ReadOnlyIn id r := by
  constructor
  · intro hfree
    refine ⟨hfree.known, fun v k hv hread => ?_⟩
    by_contra hk
    exact h.unread_of_free (a := .register r.detached) hi hfree hv hk hread
  · rintro ⟨hknown, honly⟩
    refine ⟨rfl, hknown, fun v x hv hx => ?_⟩
    refine (h.readers.uses v x hx).useSite_eq_none.2 fun k hread => ?_
    by_cases hk : k = id
    · subst hk
      rcases (reads_putInsn_self hi).1 hread with ⟨q, hq, hid, -⟩
      exact hgone _ (Insn.mem_registers.1 hq) hid
    · exact hk (honly v k hv ((reads_putInsn_of_ne hi hk).1 hread))

/-- Where every reading is recorded, nothing reads a variable that the table lacks. -/
theorem Coherent.readOnlyIn_of_not_knows (h : m.Coherent) {r : Register}
    (hr : ¬ m.vars.Knows r.var) : m.ReadOnlyIn id r := by
  rintro v k hv ⟨q, hq, -, hqv⟩
  refine absurd ?_ hr
  rw [hv, ← hqv]
  exact h.readers.known k q hq

end Method

/-- A use less leaves a free register free. -/
theorem Register.Free.of_dropUse {r : Register} {t : VarTable} (h : r.Free t) (v : Option VarId)
    {a : OperandId} {f : Variable → Variable} (hf : ∀ x, (f x).uses = (x.dropUse a).uses) :
    r.Free (t.onVar v f) := by
  refine ⟨h.owner, VarTable.knows_onVar.2 h.known, fun w y hw hy => ?_⟩
  rw [VarTable.get?_onVar, Option.map_eq_some_iff] at hy
  rcases hy with ⟨x, hx, rfl⟩
  have hunused := h.unused w x hw hx
  by_cases hv : v = some w
  · have hsite : (f x).useSite r.id = (x.dropUse a).useSite r.id := by
      simp only [Variable.useSite, hf]
    rw [if_pos hv, hsite, Variable.useSite_dropUse, hunused, ite_self]
  · rw [if_neg hv]
    exact hunused

theorem Operand.Free.of_dropUse {b : Operand} {t : VarTable} (h : b.Free t) (v : Option VarId)
    (a : OperandId) : b.Free (t.onVar v (·.dropUse a)) := by
  cases b with
  | literal l => trivial
  | register r => exact Register.Free.of_dropUse h v fun _ => rfl

/-! ## Nodes -/

namespace Node

theorem vacate_of_known {k : Nat} {s : Linked Node} {old : Operand}
    (hold : s.insn.args[k]? = some old) (hv : s.vars.Knows old.var?) :
    vacate k s = .ok old.detached
      { insn := { s.insn with args := s.insn.args.set k old.detached },
        vars := s.vars.onVar old.var? (·.dropUse old.id) } := by
  simp only [vacate, hold, Operand.release_eq_ok.2 ⟨hv, rfl⟩]

end Node

/-- With a binding gone, a phi is not what it was. -/
theorem Phi.erased_ne {p : Phi} {k : Nat} {b : Binding}
    (hb : p.bindings[k]? = some b) (t t' : VarTable) :
    (⟨{ p with bindings := p.bindings.eraseIdx k }, t'⟩ : Linked Phi) ≠ ⟨p, t⟩ := by
  intro heq
  have hlength : (p.bindings.eraseIdx k).length = p.bindings.length :=
    congrArg (fun s : Linked Phi => s.insn.bindings.length) heq
  have hk := (List.getElem?_eq_some_iff.1 hb).1
  rw [List.length_eraseIdx_of_lt hk] at hlength
  omega

namespace Method

variable {m : Method} {id : InsnId}

/-- The operand `a` may take the place of `b` in the instruction `id`, as far as the late check goes:
it is no handle on the register `b`, or one that names a known variable which nothing else reads
through the instance. -/
def MayReplace (m : Method) (id : InsnId) (a b : Operand) : Prop :=
  ∀ r s, a = .register r → b = .register s → r.id = s.id →
    m.vars.Knows r.var ∧ m.ReadOnlyIn id r

theorem mayReplace_of_ne {a b : Operand} (h : a.id ≠ b.id) : m.MayReplace id a b := by
  rintro r s rfl rfl hid
  exact absurd hid h

/-- Vacating a position changes a node unless a literal stands there. -/
theorem Coherent.vacated_eq_iff (h : m.Coherent) {n : Node} (hn : m.insn? id = some (.node n))
    {k : Nat} {old : Operand} (hold : n.args[k]? = some old) :
    (⟨{ n with args := n.args.set k old.detached }, m.vars.onVar old.var? (·.dropUse old.id)⟩ :
      Linked Node) = ⟨n, m.vars⟩ ↔ ∀ s, old ≠ .register s := by
  cases old with
  | literal l =>
    have hset : n.args.set k (.literal l) = n.args := by
      rcases List.getElem?_eq_some_iff.1 hold with ⟨hk, heq⟩
      rw [← heq]
      exact List.set_getElem_self hk
    refine iff_of_true ?_ fun s hs => nomatch hs
    simp only [Operand.detached, Operand.mapRegister, hset]
    rfl
  | register s =>
    refine iff_of_false (fun heq => ?_) fun hne => hne s rfl
    -- the register that stands there has an owner
    have hargs : n.args.set k (.register s.detached) = n.args :=
      congrArg (fun t : Linked Node => t.insn.args) heq
    have hs : n.args[k]? = some (.register s.detached) := by
      rw [← hargs, List.getElem?_set_self (List.getElem?_eq_some_iff.1 hold).1]
    rw [hold, Option.some.injEq, Operand.register.injEq] at hs
    have howner := h.readers.owned id s
      ((holds_of_insn? hn).2 (Insn.mem_registers.2 (List.mem_of_getElem? hold)))
    rw [hs] at howner
    cases howner

/-- An accepted operand is free once the position was vacated, or nothing has changed by then, exactly
if it may take the place of what stood there. -/
theorem Coherent.vacated_or_free_iff (h : m.Coherent) {n : Node}
    (hn : m.insn? id = some (.node n)) {k : Nat} {a b old : Operand}
    (hold : n.args[k]? = some old) (hrep : Node.replacement k a ⟨n, m.vars⟩ = .ok b) :
    (∀ s, old ≠ .register s) ∨ b.Free (m.vars.onVar old.var? (·.dropUse old.id)) ↔
      m.MayReplace id a old := by
  rcases Node.replacement_eq_ok.1 hrep with ⟨hindex, rfl⟩ | ⟨hindex, hfree, rfl⟩
  · -- the operand is a handle on what stands at the position
    rcases Node.argIndex_eq_some hindex with ⟨c, hc, hid⟩
    rw [hold, Option.some.injEq] at hc
    subst hc
    cases a with
    | literal l => exact iff_of_true (Or.inr trivial) fun r s hr => nomatch hr
    | register r =>
      cases old with
      | literal l => exact iff_of_true (Or.inl fun s hs => nomatch hs) fun r s _ hs => nomatch hs
      | register s =>
        have hsame : s.id = r.id := hid
        have hgone : ∀ b ∈ (Insn.node { n with args := n.args.eraseIdx k }).args, b.id ≠ r.id :=
          fun b hb => hsame ▸ ((mem_node_eraseIdx (h.formed id _ hn) hold b).1 hb).2
        have hfree := (h.eraseArg hn hold).free_detached_iff hn hgone
        rw [VarTable.knows_onVar] at hfree
        constructor
        · rintro (hne | hr) r' s' hr' hs' -
          · exact absurd rfl (hne s)
          · cases hr'
            exact hfree.1 hr
        · intro hmay
          exact Or.inr (hfree.2 (hmay r s rfl rfl hid.symm))
  · refine iff_of_true (Or.inr (hfree.of_dropUse _ _)) (mayReplace_of_ne ?_)
    exact (Node.argIndex_eq_none.1 hindex old (List.mem_of_getElem? hold)).symm

/-- Setting an argument of a node is atomic exactly if the operand may take the place of the one that
stands there. -/
theorem Coherent.atomicAt_setArg_iff (h : m.Coherent) {n : Node}
    (hn : m.insn? id = some (.node n)) (k : Nat) (a : Operand) :
    AtomicAt (Node.setArg k a) ⟨n, m.vars⟩ ↔ ∀ b, n.args[k]? = some b → m.MayReplace id a b := by
  cases hrep : Node.replacement k a ⟨n, m.vars⟩ with
  | error e =>
    refine iff_of_true ((atomicAt_of_error (Node.setArg_refused hrep)).2 rfl) fun b hb => ?_
    refine mayReplace_of_ne fun hid => ?_
    -- a handle on what stands at the position would have been accepted
    have hindex := Node.argIndex_of_getElem? (h.formed id _ hn) hb
    rw [← hid] at hindex
    rw [Node.replacement_eq_ok.2 (Or.inl ⟨hindex, rfl⟩)] at hrep
    cases hrep
  | ok b =>
    rw [atomicAt_congr (Node.setArg_of_replacement hrep)]
    cases hold : n.args[k]? with
    | none =>
      have hvac : Node.vacate k ⟨n, m.vars⟩ = .error (.indexOutOfRange k) ⟨n, m.vars⟩ := by
        simp only [Node.vacate, hold]
      refine iff_of_true ((atomicAt_of_error (bind_of_error hvac)).2 rfl) ?_
      intro b hb
      cases hb
    | some old =>
      have hvac := Node.vacate_of_known (s := ⟨n, m.vars⟩) hold
        (h.knows_arg hn (List.mem_of_getElem? hold))
      refine (atomicAt_then (f := fun _ => Node.occupied k b) (g := fun old => old) hvac).trans ?_
      simp only [h.vacated_eq_iff hn hold, Node.occupied_eq_ok, exists_and_left, exists_eq,
        and_true, Option.some.injEq, forall_eq', h.vacated_or_free_iff hn hold hrep]

theorem Coherent.atomicAt_replaceArg_iff (h : m.Coherent) {n : Node}
    (hn : m.insn? id = some (.node n)) (old : OperandId) (a : Operand) :
    AtomicAt (Node.replaceArg old a) ⟨n, m.vars⟩ ↔
      ∀ b ∈ n.args, b.id = old → m.MayReplace id a b := by
  have happly := Node.replaceArg_apply old a ⟨n, m.vars⟩
  cases hindex : n.argIndex old with
  | none =>
    simp only [hindex] at happly
    exact iff_of_true (atomicAt_of_ok happly) fun b hb hid =>
      absurd hid (Node.argIndex_eq_none.1 hindex b hb)
  | some k =>
    simp only [hindex] at happly
    rw [atomicAt_congr happly, atomicAt_map, h.atomicAt_setArg_iff hn]
    constructor
    · intro hmay b hb hid
      -- the instance stands at one position only
      rcases List.mem_iff_getElem?.1 hb with ⟨j, hj⟩
      have hindex' := Node.argIndex_of_getElem? (h.formed id _ hn) hj
      rw [hid, hindex, Option.some.injEq] at hindex'
      exact hmay b (hindex' ▸ hj)
    · intro hmay b hb
      rcases Node.argIndex_eq_some hindex with ⟨c, hc, hid⟩
      rw [hb, Option.some.injEq] at hc
      exact hmay b (List.mem_of_getElem? hb) (hc ▸ hid)

/-! ## Phis -/

/-- Where a binding was removed, a register that the phi does not bind elsewhere takes its place if it
is free. -/
theorem Coherent.insertBinding_erased_iff (h : m.Coherent) {p : Phi}
    (hp : m.insn? id = some (.phi p)) {k : Nat} {b : Binding} (hb : p.bindings[k]? = some b)
    {r : Register} (hr : p.holds r.id = true → r.id = b.arg.id) {t : VarTable} :
    (∃ s, Phi.bindingInserted k r b.pred
      ⟨{ p with bindings := p.bindings.eraseIdx k }, t⟩ = .ok s) ↔ r.Free t := by
  have hpred := not_mem_preds_eraseIdx (h.formed id _ hp) hb
  have hindex : Phi.argIndex { p with bindings := p.bindings.eraseIdx k } r.id = none := by
    refine Phi.argIndex_eq_none.2 fun q hq hid => ?_
    have hgone := (mem_phi_eraseIdx (h.formed id _ hp) hb (.register q)).1
    rcases hgone (List.mem_map.2 ⟨q, hq, rfl⟩) with ⟨hmem, hne⟩
    have hheld : p.holds r.id = true :=
      Phi.holds_iff.2 ⟨q, Insn.mem_registers.2 hmem, hid⟩
    exact hne (hid.trans (hr hheld))
  simp [Phi.bindingInserted_eq_ok, hpred, hindex]

/-- Replacing an argument of a phi is atomic unless the new one is a handle on the old one that names
a variable which another instruction reads through the instance. -/
theorem Coherent.atomicAt_replaceBound_iff (h : m.Coherent) {p : Phi}
    (hp : m.insn? id = some (.phi p)) (old : OperandId) (r : Register) :
    AtomicAt (Phi.replaceArg old r) ⟨p, m.vars⟩ ↔
      (r.id = old → p.holds old = true → m.ReadOnlyIn id r) := by
  have happly := Phi.replaceArg_apply old r ⟨p, m.vars⟩
  cases hindex : p.argIndex old with
  | none =>
    simp only [hindex] at happly
    refine iff_of_true (atomicAt_of_ok happly) fun _ hheld => ?_
    rw [Phi.holds, hindex] at hheld
    cases hheld
  | some k =>
    rcases Phi.argIndex_eq_some hindex with ⟨b, hb, rfl⟩
    have hblock : p.blockAt? k = some b.pred := by
      rw [Phi.blockAt?, hb]
      rfl
    have hheld : p.holds b.arg.id = true := by
      rw [Phi.holds, hindex]
      rfl
    simp only [hindex, hblock] at happly
    cases hrep : Phi.replacement b.arg.id r ⟨p, m.vars⟩ with
    | error e =>
      rw [hrep] at happly
      refine iff_of_true ((atomicAt_of_error happly).2 rfl) fun hsame _ => ?_
      refine h.readOnlyIn_of_not_knows fun hknown => ?_
      rw [Phi.replacement_eq_ok.2 ⟨hknown, Or.inl ⟨hsame, rfl⟩⟩] at hrep
      cases hrep
    | ok r' =>
      simp only [hrep] at happly
      rw [atomicAt_congr happly, atomicAt_then (f := fun _ => Phi.bindingInserted k r' b.pred)
        (g := fun _ => true) (h.removeArgAt_of_getElem? hp hb), or_iff_right (Phi.erased_ne hb _ _)]
      rcases Phi.replacement_eq_ok.1 hrep with ⟨hknown, ⟨hsame, rfl⟩ | ⟨hne, hnone, hfree, rfl⟩⟩
      · rw [h.insertBinding_erased_iff (r := r.detached) hp hb fun _ => hsame]
        have hgone : ∀ c ∈ (Insn.phi { p with bindings := p.bindings.eraseIdx k }).args,
            c.id ≠ r.id := fun c hc => hsame ▸ ((mem_phi_eraseIdx (h.formed id _ hp) hb c).1 hc).2
        rw [(h.eraseBinding hp hb).free_detached_iff hp hgone, VarTable.knows_onVar]
        constructor
        · intro hr _ _
          exact hr.2
        · intro honly
          exact ⟨hknown, honly hsame hheld⟩
      · have hnot : p.holds r'.id ≠ true := by
          rw [Phi.holds, hnone]
          exact Bool.false_ne_true
        rw [h.insertBinding_erased_iff hp hb fun hh => absurd hh hnot]
        exact iff_of_true (hfree.of_dropUse _ fun _ => rfl) fun hsame => absurd hsame hne

/-! ## Runs -/

section Runs

variable {checks : Checks} {history : List Call}

/-- **Setting an argument, all or nothing.** In a state that calls without failures have reached, and
that does not check itself, a failure to put an operand in the place of an argument of a live node
changes nothing, exactly if the operand may take that place: it is not a handle on the argument, or it
names a known variable which no other instruction reads through the instance. -/
theorem setArg_atomicOn_iff
    (hok : Along (fun m c => ∃ b, c.verdict m = .ok b) { checks := checks } history)
    (hm : ({ checks := checks } : Method).after history = m)
    (hoff : m.checks.afterMutation = false) {n : Node} (hn : m.insn? id = some (.node n))
    (a : Operand) (s : Supply) :
    (∀ k, (⟨.setArg id k a, s⟩ : Call).AtomicOn m ↔
        ∀ b, n.args[k]? = some b → m.MayReplace id a b) ∧
      ∀ old : Operand, (⟨.replaceArg id old a, s⟩ : Call).AtomicOn m ↔
        ∀ b ∈ n.args, b.id = old.id → m.MayReplace id a b := by
  have h : m.Coherent := hm ▸ coherent_after_of_ok hok
  refine ⟨fun k => ?_, fun old => ?_⟩
  · have hedit : (⟨.setArg id k a, s⟩ : Call).edit =
        Answer.operand <$> verified (editInsn id (Insn.setArg k a)) := rfl
    rw [atomicOn_iff_edit hedit hn hoff]
    exact Insn.atomicAt_edit_node.trans (h.atomicAt_setArg_iff hn k a)
  · have hedit : (⟨.replaceArg id old a, s⟩ : Call).edit =
        Answer.flag <$> verified (editInsn id (Insn.replaceArg old a)) := rfl
    rw [atomicOn_iff_edit hedit hn hoff]
    exact Insn.atomicAt_edit_node.trans (h.atomicAt_replaceArg_iff hn old.id a)

/-- Two nodes read two variables. The first one is given the argument of the second one and refuses
it; nothing has changed. -/
theorem setArg_atomicOn_iff_held :
    let r : Register := { id := ⟨0⟩, reg := 0, var := some ⟨0⟩ }
    let q : Register := { id := ⟨1⟩, reg := 0, var := some ⟨1⟩ }
    let history : List Call := [⟨.newVar 0 0, {}⟩, ⟨.newVar 0 1, {}⟩, ⟨.newNode .const, {}⟩,
      ⟨.newNode .const, {}⟩, ⟨.addArg ⟨0⟩ (.register r), {}⟩, ⟨.addArg ⟨1⟩ (.register q), {}⟩]
    let m := ({} : Method).after history
    let c : Call := ⟨.setArg ⟨0⟩ 0 (.register q), {}⟩
    let d : Call := ⟨.replaceArg ⟨0⟩ (.register r) (.register q), {}⟩
    Along (fun m c => ∃ b, c.verdict m = .ok b) {} history ∧ m.checks.afterMutation = false ∧
      c.verdict m = .error (.alreadyBound ⟨1⟩ ⟨1⟩) ∧ c.next m = m ∧
      d.verdict m = .error (.alreadyBound ⟨1⟩ ⟨1⟩) ∧ d.next m = m := by
  intro r q history m c d
  have hok : Along (fun m c => ∃ b, c.verdict m = .ok b) {} history :=
    ⟨⟨_, rfl⟩, ⟨_, rfl⟩, ⟨_, rfl⟩, ⟨_, rfl⟩, ⟨_, rfl⟩, ⟨_, rfl⟩, trivial⟩
  have hnode : m.insn? ⟨0⟩ = some (.node
      { id := ⟨0⟩, opcode := .const, args := [.register (r.ownedBy ⟨0⟩)] }) := rfl
  have hatomic := setArg_atomicOn_iff hok rfl rfl hnode (.register q) {}
  refine ⟨hok, rfl, rfl, (hatomic.1 0).2 ?_ _ rfl, rfl, (hatomic.2 (.register r)).2 ?_ _ rfl⟩
  · intro b hb
    cases hb
    exact mayReplace_of_ne (by decide)
  · intro b hb _
    cases List.mem_singleton.1 hb
    exact mayReplace_of_ne (by decide)

/-- Two nodes hold one instance, which has come to read another variable in each. The first one is
given the handle of the second one in the place of its own. It fails, and its argument has lost its
owner and its record. -/
theorem own_argument_released :
    let h : Register := { id := ⟨0⟩, reg := 0 }
    let q : Register := { id := ⟨0⟩, reg := 0, var := some ⟨1⟩, owner := some ⟨1⟩ }
    let history : List Call := [⟨.newVar 0 0, {}⟩, ⟨.newVar 0 1, {}⟩, ⟨.newNode .const, {}⟩,
      ⟨.newNode .const, {}⟩, ⟨.addArg ⟨0⟩ (.register h), {}⟩, ⟨.addArg ⟨1⟩ (.register h), {}⟩,
      ⟨.attachVar ⟨0⟩ 0 ⟨0⟩, {}⟩, ⟨.attachVar ⟨1⟩ 0 ⟨1⟩, {}⟩]
    let m := ({} : Method).after history
    let c : Call := ⟨.setArg ⟨0⟩ 0 (.register q), {}⟩
    Along (fun m c => ∃ b, c.verdict m = .ok b) {} history ∧ m.checks.afterMutation = false ∧
      m.Holds ⟨1⟩ q ∧ c.verdict m = .error (.alreadyBound ⟨0⟩ ⟨1⟩) ∧
      (c.next m).insn? ⟨0⟩ ≠ m.insn? ⟨0⟩ ∧ (c.next m).vars ≠ m.vars := by
  intro h q history m c
  have hok : Along (fun m c => ∃ b, c.verdict m = .ok b) {} history :=
    ⟨⟨_, rfl⟩, ⟨_, rfl⟩, ⟨_, rfl⟩, ⟨_, rfl⟩, ⟨_, rfl⟩, ⟨_, rfl⟩, ⟨_, rfl⟩, ⟨_, rfl⟩, trivial⟩
  have hnode : m.insn? ⟨1⟩ = some (.node
      { id := ⟨1⟩, opcode := .const, args := [.register q] }) := by decide
  exact ⟨hok, rfl, (holds_of_insn? hnode).2 List.mem_cons_self, by decide, by decide, by decide⟩

/-- **Replacing a bound argument, all or nothing.** In a state that calls without failures have
reached, a failure to replace an argument of a live phi changes nothing, exactly if the new register
is not a handle on that argument, or no other instruction reads the variable that it names through the
instance. A method that does not check itself is as atomic as the phi. -/
theorem replaceBound_atomicOn_iff
    (hok : Along (fun m c => ∃ b, c.verdict m = .ok b) { checks := checks } history)
    (hm : ({ checks := checks } : Method).after history = m) {p : Phi}
    (hp : m.insn? id = some (.phi p)) :
    (∀ old r, AtomicAt (Phi.replaceArg old r) ⟨p, m.vars⟩ ↔
        (r.id = old → p.holds old = true → m.ReadOnlyIn id r)) ∧
      (m.checks.afterMutation = false → ∀ old new s,
        ((⟨.replaceArg id old new, s⟩ : Call).AtomicOn m ↔
          ∀ q r, old = .register q → new = .register r → r.id = q.id → p.holds q.id = true →
            m.ReadOnlyIn id r)) := by
  have h : m.Coherent := hm ▸ coherent_after_of_ok hok
  refine ⟨fun old r => h.atomicAt_replaceBound_iff hp old r, fun hoff old new s => ?_⟩
  have hedit : (⟨.replaceArg id old new, s⟩ : Call).edit =
      Answer.flag <$> verified (editInsn id (Insn.replaceArg old new)) := rfl
  rw [atomicOn_iff_edit hedit hp hoff]
  unfold Insn.replaceArg
  rw [Insn.atomicAt_edit_phi]
  cases old with
  | literal l => exact iff_of_true (atomicAt_of_ok rfl) fun q r hq => nomatch hq
  | register q =>
    cases new with
    | literal l => exact iff_of_true (atomicAt_of_ok rfl) fun q r _ hr => nomatch hr
    | register r =>
      rw [h.atomicAt_replaceBound_iff hp]
      constructor
      · rintro honly q' r' hq hr
        cases hq
        cases hr
        exact honly
      · intro honly
        exact honly q r rfl rfl

/-- A phi is given, in the place of its argument, one that a node holds, and refuses it; nothing has
changed. -/
theorem replaceBound_atomicOn_iff_held :
    let r : Register := { id := ⟨1⟩, reg := 0, var := some ⟨0⟩ }
    let q : Register := { id := ⟨2⟩, reg := 0, var := some ⟨0⟩ }
    let history : List Call := [⟨.newVar 0 0, {}⟩, ⟨.newPhi 0, {}⟩, ⟨.newNode .const, {}⟩,
      ⟨.bindPhiArg ⟨0⟩ r ⟨7⟩, {}⟩, ⟨.addArg ⟨1⟩ (.register q), {}⟩]
    let m := ({} : Method).after history
    let c : Call := ⟨.replaceArg ⟨0⟩ (.register r) (.register q), {}⟩
    Along (fun m c => ∃ b, c.verdict m = .ok b) {} history ∧ m.checks.afterMutation = false ∧
      c.verdict m = .error (.alreadyBound ⟨2⟩ ⟨1⟩) ∧ c.next m = m := by
  intro r q history m c
  have hok : Along (fun m c => ∃ b, c.verdict m = .ok b) {} history :=
    ⟨⟨_, rfl⟩, ⟨_, rfl⟩, ⟨_, rfl⟩, ⟨_, rfl⟩, ⟨_, rfl⟩, trivial⟩
  have hverdict : c.verdict m = .error (.alreadyBound ⟨2⟩ ⟨1⟩) := rfl
  have hphi : m.insn? ⟨0⟩ = some (.phi
      { id := ⟨0⟩, result := { id := ⟨0⟩, reg := 0, owner := some ⟨0⟩ },
        bindings := [⟨r.ownedBy ⟨0⟩, ⟨7⟩⟩] }) := rfl
  have hatomic : c.AtomicOn m := by
    refine ((replaceBound_atomicOn_iff hok rfl hphi).2 rfl (.register r) (.register q) {}).2 ?_
    rintro q' r' hq hr hid -
    cases hq
    cases hr
    exact absurd hid (by decide)
  exact ⟨hok, rfl, hverdict, hatomic _ hverdict⟩

/-- A phi and a node hold one instance, which has come to read another variable in each. The phi is
given the handle of the node in the place of its own. It fails, and the binding is gone. -/
theorem own_binding_lost :
    let h : Register := { id := ⟨1⟩, reg := 0 }
    let r : Register := { id := ⟨1⟩, reg := 0, var := some ⟨0⟩, owner := some ⟨0⟩ }
    let q : Register := { id := ⟨1⟩, reg := 0, var := some ⟨1⟩, owner := some ⟨1⟩ }
    let history : List Call := [⟨.newVar 0 0, {}⟩, ⟨.newVar 0 1, {}⟩, ⟨.newPhi 0, {}⟩,
      ⟨.newNode .const, {}⟩, ⟨.bindPhiArg ⟨0⟩ h ⟨7⟩, {}⟩, ⟨.addArg ⟨1⟩ (.register h), {}⟩,
      ⟨.attachVar ⟨0⟩ 0 ⟨0⟩, {}⟩, ⟨.attachVar ⟨1⟩ 0 ⟨1⟩, {}⟩]
    let m := ({} : Method).after history
    let c : Call := ⟨.replaceArg ⟨0⟩ (.register r) (.register q), {}⟩
    Along (fun m c => ∃ b, c.verdict m = .ok b) {} history ∧ m.checks.afterMutation = false ∧
      m.Holds ⟨0⟩ r ∧ m.Holds ⟨1⟩ q ∧ c.verdict m = .error (.alreadyBound ⟨1⟩ ⟨1⟩) ∧
      (c.next m).insn? ⟨0⟩ ≠ m.insn? ⟨0⟩ ∧ (c.next m).vars ≠ m.vars := by
  intro h r q history m c
  have hok : Along (fun m c => ∃ b, c.verdict m = .ok b) {} history :=
    ⟨⟨_, rfl⟩, ⟨_, rfl⟩, ⟨_, rfl⟩, ⟨_, rfl⟩, ⟨_, rfl⟩, ⟨_, rfl⟩, ⟨_, rfl⟩, ⟨_, rfl⟩, trivial⟩
  have hphi : m.insn? ⟨0⟩ = some (.phi
      { id := ⟨0⟩, result := { id := ⟨0⟩, reg := 0, owner := some ⟨0⟩ },
        bindings := [⟨r, ⟨7⟩⟩] }) := by decide
  have hnode : m.insn? ⟨1⟩ = some (.node
      { id := ⟨1⟩, opcode := .const, args := [.register q] }) := by decide
  refine ⟨hok, rfl, (holds_of_insn? hphi).2 List.mem_cons_self,
    (holds_of_insn? hnode).2 List.mem_cons_self, by decide, by decide, by decide⟩

end Runs

end Method

end SsaForm
