import SsaForm.Proofs.PhiRemoval

/-!
# SsaForm.Proofs.Replacement — one operand in the place of another

A node overwrites the argument, a phi removes a binding and inserts another one at its index. What comes
of it is the same: the operand stands where the old one stood (`Insn.ReplacedAt`), and the records
have given up the reading by the one and taken on the reading by the other (`Method.Exchanged`). This
also holds where the two are handles on one instance, name the same variable, or the old variable is
read by other arguments as well.

The instruction is evaluated for each kind on its own. What the records are then need not be: they
are those of the readings before and after, in every method that is coherent.
-/

namespace SsaForm

open Edit

/-! ## The instruction -/

/-- The instruction `j` is `i` with the operand over the argument at `k`. A phi has kept its
predecessors, and either kind whatever is not an argument. -/
structure Insn.ReplacedAt (id : InsnId) (k : Nat) (a : Operand) (i j : Insn) : Prop where
  args : j.args = i.args.set k (a.ownedBy id)
  preds : j.phi?.map Phi.preds = i.phi?.map Phi.preds
  ident : j.id = i.id
  opcode : j.opcode = i.opcode
  result : j.result? = i.result?
  attributes : j.attributes = i.attributes

namespace Insn

theorem ReplacedAt.isPhi_eq {id : InsnId} {k : Nat} {a : Operand} {i j : Insn}
    (h : ReplacedAt id k a i j) : j.isPhi = i.isPhi := by
  have hkind := congrArg Option.isSome h.preds
  rwa [Option.isSome_map, Option.isSome_map] at hkind

theorem replacedAt_node (n : Node) (k : Nat) (a : Operand) :
    ReplacedAt n.id k a (.node n) (.node { n with args := n.args.set k (a.ownedBy n.id) }) :=
  ⟨rfl, rfl, rfl, rfl, rfl, rfl⟩

theorem replacedAt_phi {p : Phi} {k : Nat} {b : Binding} (hb : p.bindings[k]? = some b)
    (r : Register) :
    ReplacedAt p.id k (.register r) (.phi p)
      (.phi { p with bindings := p.bindings.set k ⟨r.ownedBy p.id, b.pred⟩ }) := by
  have hpreds : (p.bindings.set k ⟨r.ownedBy p.id, b.pred⟩).map (·.pred) =
      p.bindings.map (·.pred) := map_set_of_key_eq hb rfl
  refine ⟨?_, congrArg some hpreds, rfl, rfl, rfl, rfl⟩
  simp only [args, Phi.args, List.map_map, List.map_set]
  rfl

/-- The operand at the position of an instance is that instance. -/
theorem id_of_argIndex {i : Insn} {a b : Operand} {k : Nat} (h : i.argIndex a = some k)
    (hb : i.args[k]? = some b) : b.id = a.id := by
  cases i with
  | node n =>
    rcases Node.argIndex_eq_some h with ⟨c, hc, hid⟩
    rw [show n.args[k]? = some b from hb, Option.some.injEq] at hc
    exact hc ▸ hid
  | phi p =>
    cases a with
    | literal l => cases h
    | register r =>
      rcases Phi.argIndex_eq_some h with ⟨c, hc, hid⟩
      rw [args, List.getElem?_map, Phi.args, List.getElem?_map, hc] at hb
      cases hb
      exact hid

/-- There is nothing to replace where the instance is not held, and on a phi where a literal is
named. -/
theorem replaceArg_eq_false_iff {source new : Operand} {i : Insn} {t : VarTable} :
    (∃ s, replaceArg source new ⟨i, t⟩ = .ok false s) ↔ i.argIndex source = none ∨
      i.isPhi = true ∧ (source.isRegister = false ∨ new.isRegister = false) := by
  unfold replaceArg
  cases i with
  | node n =>
    simp only [edit_node_eq_ok, Node.replaceArg_eq_ok]
    constructor
    · rintro ⟨_, _, ⟨hnone, -, rfl⟩ | ⟨k, o, -, -, hfalse⟩, rfl⟩
      · exact Or.inl hnone
      · cases hfalse
    · rintro (hnone | ⟨hphi, -⟩)
      · exact ⟨_, _, Or.inl ⟨hnone, trivial, rfl⟩, rfl⟩
      · cases hphi
  | phi p =>
    simp only [edit_phi_eq_ok]
    cases source with
    | literal l => exact iff_of_true ⟨_, _, rfl, rfl⟩ (Or.inl rfl)
    | register q =>
      cases new with
      | literal l => exact iff_of_true ⟨_, _, rfl, rfl⟩ (Or.inr ⟨rfl, Or.inr rfl⟩)
      | register r =>
        simp only [Phi.replaceArg_eq_ok]
        constructor
        · rintro ⟨_, _, ⟨hnone, -, rfl⟩ | ⟨_, _, _, _, _, -, -, -, -, -, hfalse⟩, rfl⟩
          · exact Or.inl hnone
          · cases hfalse
        · rintro (hnone | ⟨-, hq | hr⟩)
          · exact ⟨_, _, Or.inl ⟨hnone, trivial, rfl⟩, rfl⟩
          · cases hq
          · cases hr

end Insn

/-! ## The records -/

namespace Variable

/-- What a variable `v` records when `new` has come into the place of `old` in the instruction
`id`. -/
structure Exchanged (v : VarId) (id : InsnId) (old new : Operand) (x y : Variable) : Prop where
  description : y.description = x.description
  uses : ∀ s, s ∈ y.uses ↔
    (s ∈ x.uses ∧ ¬ (old.var? = some v ∧ s = ⟨old.id, some id⟩)) ∨
      (new.var? = some v ∧ s = ⟨new.id, some id⟩)
  consumers : y.consumers.filter (· != id) = x.consumers.filter (· != id)

/-- The description is the same, and apart from `id` no consumer has come and those that are left have
kept their order. -/
structure Moved (id : InsnId) (x y : Variable) : Prop where
  description : y.description = x.description
  consumers : (y.consumers.filter (· != id)).Sublist (x.consumers.filter (· != id))

variable {id : InsnId} {x y z : Variable}

theorem Moved.refl (id : InsnId) (x : Variable) : x.Moved id x := ⟨rfl, List.Sublist.refl _⟩

theorem Moved.trans (h : x.Moved id y) (h' : y.Moved id z) : x.Moved id z :=
  ⟨h'.description.trans h.description, h'.consumers.trans h.consumers⟩

theorem Thinned.moved (h : x.Thinned y) (id : InsnId) : x.Moved id y :=
  ⟨h.description, h.consumers.filter _⟩

theorem moved_dropUse (id : InsnId) (x : Variable) (a : OperandId) : x.Moved id (x.dropUse a) :=
  ⟨rfl, List.Sublist.refl _⟩

theorem moved_recordUse (id : InsnId) (x : Variable) (s : Site) : x.Moved id (x.recordUse s) :=
  ⟨rfl, List.Sublist.refl _⟩

theorem moved_addConsumer (id : InsnId) (x : Variable) : x.Moved id (x.addConsumer id) := by
  constructor
  · unfold addConsumer
    split <;> rfl
  · rw [consumers_addConsumer]
    split
    · exact List.Sublist.refl _
    · rw [List.filter_append]
      simp

end Variable

namespace VarTable

variable {id : InsnId} {t s : VarTable}

/-- The variables are the same ones, and none has changed further than that. -/
structure Moved (id : InsnId) (t s : VarTable) : Prop where
  mem : ∀ v, v ∈ s ↔ v ∈ t
  moved : ∀ v x y, t.get? v = some x → s.get? v = some y → x.Moved id y

theorem Moved.refl (id : InsnId) (t : VarTable) : t.Moved id t := by
  refine ⟨fun _ => Iff.rfl, fun v x y hx hy => ?_⟩
  rw [hx, Option.some.injEq] at hy
  rw [← hy]
  exact .refl id x

theorem Moved.onVar (h : t.Moved id s) (w : Option VarId) {f : Variable → Variable}
    (hf : ∀ x : Variable, x.Moved id (f x)) : t.Moved id (s.onVar w f) := by
  refine ⟨fun v => mem_onVar.trans (h.mem v), fun v x y hx hy => ?_⟩
  rw [get?_onVar, Option.map_eq_some_iff] at hy
  rcases hy with ⟨z, hz, rfl⟩
  have hxz := h.moved v x z hx hz
  by_cases hv : w = some v
  · rw [if_pos hv]
    exact hxz.trans (hf z)
  · rw [if_neg hv]
    exact hxz

end VarTable

namespace Method

variable {m m' : Method} {id : InsnId} {i j : Insn}

/-- What a method has become in which `new` has come into the place of `old` in the instruction `id`,
which is now `j`: nothing else has changed but the records of these two readings, and the variables
list the instruction exactly if it is a phi that reads them now. -/
structure Exchanged (m m' : Method) (id : InsnId) (old new : Operand) (j : Insn) : Prop where
  insn : m'.insn? id = some j
  others : ∀ k, k ≠ id → m'.insn? k = m.insn? k
  checks : m'.checks = m.checks
  known : ∀ v, v ∈ m'.vars ↔ v ∈ m.vars
  records : ∀ v x y, m.vars.get? v = some x → m'.vars.get? v = some y →
    x.Exchanged v id old new y ∧ (id ∈ y.consumers ↔ j.isPhi = true ∧ v ∈ j.usedVars)

/-- The registers that are held after a replacement are those from before, without the old one, and
the new one. -/
theorem mem_registers_replaced {k : Nat} {old new : Operand} (hi : i.WellFormed id)
    (hold : i.args[k]? = some old) (h : Insn.ReplacedAt id k new i j) {r : Register} :
    r ∈ j.registers ↔ (r ∈ i.registers ∧ r.id ≠ old.id) ∨ .register r = new.ownedBy id := by
  rw [Insn.mem_registers, Insn.mem_registers, h.args, mem_set_iff_mem_eraseIdx hold,
    mem_eraseIdx_iff_key hi.distinct hold]
  rfl

/-- Who reads what after a replacement. -/
theorem Coherent.reads_replaced (h : m.Coherent) (hi : m.insn? id = some i) {k : Nat}
    {old new : Operand} (hold : i.args[k]? = some old) {s : Linked Insn}
    (hj : Insn.ReplacedAt id k new i s.insn) (v : VarId) (a : OperandId) (q : InsnId) :
    (m.putInsn id s).Reads v a q ↔
      (m.Reads v a q ∧ ¬ (old.var? = some v ∧ a = old.id ∧ q = id)) ∨
        (new.var? = some v ∧ a = new.id ∧ q = id) := by
  by_cases hq : q = id
  · subst hq
    have hformed := h.formed q i hi
    rw [reads_putInsn_self hi, reads_of_insn? hi]
    simp only [mem_registers_replaced hformed hold hj, and_true]
    constructor
    · rintro ⟨r, ⟨hr, hne⟩ | hnew, rfl, hv⟩
      · exact Or.inl ⟨⟨r, hr, rfl, hv⟩, fun hgone => hne hgone.2⟩
      · right
        rw [← Operand.var?_ownedBy new q, ← Operand.id_ownedBy new q, ← hnew]
        exact ⟨hv, rfl⟩
    · rintro (⟨⟨r, hr, rfl, hv⟩, hkept⟩ | ⟨hv, rfl⟩)
      · refine ⟨r, Or.inl ⟨hr, fun hid => hkept ⟨?_, hid⟩⟩, rfl, hv⟩
        -- the argument with the identity of the old one is the old one
        have hsame : Operand.register r = old :=
          List.inj_on_of_nodup_map hformed.distinct (Insn.mem_registers.1 hr)
            (List.mem_of_getElem? hold) hid
        rw [← hsame]
        exact hv
      · cases new with
        | literal l => cases hv
        | register r => exact ⟨r.ownedBy q, Or.inr rfl, rfl, hv⟩
  · rw [reads_putInsn_of_ne hi hq]
    simp [hq]

/-- In a coherent method, the records follow from the readings. -/
theorem Coherent.exchanged (h : m.Coherent) (hi : m.insn? id = some i) {k : Nat}
    {old new : Operand} (hold : i.args[k]? = some old) {s : Linked Insn}
    (hj : Insn.ReplacedAt id k new i s.insn) (h' : (m.putInsn id s).Coherent)
    (hmoved : m.vars.Moved id s.vars) : m.Exchanged (m.putInsn id s) id old new s.insn := by
  have hreads := h.reads_replaced hi hold hj
  refine ⟨insn?_putInsn_self hi s, fun q hq => ?_, rfl, hmoved.mem, ?_⟩
  · rw [insn?_putInsn hi, if_neg hq.symm]
  · intro v x y hx hy
    have huses := (h.readers.uses v x hx).mem
    have huses' := (h'.readers.uses v y hy).mem
    have hconsumers := h.readers.consumers v x hx
    have hconsumers' := (h'.readers.consumers v y hy).mem
    have hxy := hmoved.moved v x y hx hy
    refine ⟨⟨hxy.description, fun u => ?_, ?_⟩, ?_⟩
    · obtain ⟨a, o⟩ := u
      simp only [huses, huses', hreads, Site.mk.injEq]
      constructor
      · rintro ⟨q, rfl, ⟨hread, hkept⟩ | ⟨hv, rfl, rfl⟩⟩
        · refine Or.inl ⟨⟨q, rfl, hread⟩, ?_⟩
          rintro ⟨hv, ha, hq⟩
          exact hkept ⟨hv, ha, Option.some.inj hq⟩
        · exact Or.inr ⟨hv, rfl, rfl⟩
      · rintro (⟨⟨q, rfl, hread⟩, hkept⟩ | ⟨hv, rfl, rfl⟩)
        · refine ⟨q, rfl, Or.inl ⟨hread, ?_⟩⟩
          rintro ⟨hv, ha, rfl⟩
          exact hkept ⟨hv, ha, rfl⟩
        · exact ⟨id, rfl, Or.inr ⟨hv, rfl, rfl⟩⟩
    · -- the other consumers are the same ones, and none was added
      refine eq_filter_of_sublist (hxy.consumers.trans List.filter_sublist) hconsumers.nodup
        fun q => ?_
      rw [List.mem_filter, hconsumers', hconsumers.mem, bne_iff_ne]
      refine and_congr_left fun hq => ?_
      rw [consumes_iff, consumes_iff, isPhi_putInsn hi hj.isPhi_eq]
      exact and_congr_right fun _ => exists_congr fun a => reads_putInsn_of_ne hi hq
    · have hself := insn?_putInsn_self hi s
      rw [hconsumers', Consumes, isPhi_of_insn? hself, Insn.usedVars, List.mem_filterMap]
      simp only [holds_of_insn? hself]

/-! ## Evaluating the replacement -/

theorem Coherent.replaceArg_node (h : m.Coherent) {n : Node} (hn : m.insn? id = some (.node n))
    {source : OperandId} {new : Operand} {s : Linked Node}
    (hok : Node.replaceArg source new ⟨n, m.vars⟩ = .ok true s) :
    ∃ k old, n.argIndex source = some k ∧ n.args[k]? = some old ∧
      Insn.ReplacedAt id k new (.node n) (.node s.insn) ∧
      m.vars.Moved id s.vars := by
  have hid : n.id = id := (h.formed id _ hn).id_eq
  subst hid
  rcases Node.replaceArg_eq_ok.1 hok with ⟨-, hfalse, -⟩ | ⟨k, o, hindex, hset, -⟩
  · cases hfalse
  · rcases Node.setArg_of_ok hset with ⟨old, hold, -, rfl⟩
    refine ⟨k, old, hindex, hold, Insn.replacedAt_node n k new, ?_⟩
    have hdropped := (VarTable.Moved.refl n.id m.vars).onVar old.var? fun x =>
      x.moved_dropUse n.id old.id
    exact hdropped.onVar new.var? fun x => x.moved_recordUse n.id ⟨new.id, some n.id⟩

theorem Coherent.replaceArg_phi (h : m.Coherent) {p : Phi} (hp : m.insn? id = some (.phi p))
    {source : OperandId} {r : Register} {s : Linked Phi}
    (hok : Phi.replaceArg source r ⟨p, m.vars⟩ = .ok true s) :
    ∃ k old, p.argIndex source = some k ∧ (Insn.phi p).args[k]? = some old ∧
      Insn.ReplacedAt id k (.register r) (.phi p) (.phi s.insn) ∧
      m.vars.Moved id s.vars := by
  have hid : p.id = id := (h.formed id _ hp).id_eq
  subst hid
  rcases Phi.replaceArg_eq_ok.1 hok with
    ⟨-, hfalse, -⟩ | ⟨k, pred, r', o, s₁, hindex, hblock, hrep, hremove, hins, -⟩
  · cases hfalse
  · rcases Phi.argIndex_eq_some hindex with ⟨b, hb, -⟩
    rw [h.removeArgAt_of_getElem? hp hb] at hremove
    cases hremove
    have hpred : pred = b.pred := by
      simpa [Phi.blockAt?, hb, eq_comm] using hblock
    have hold : (Insn.phi p).args[k]? = some (.register b.arg) := by
      simp [Insn.args, Phi.args, hb]
    -- the register is bound as it is, or without the owner that it names
    have howned : r'.ownedBy p.id = r.ownedBy p.id := (Phi.same_of_replacement hrep).2.2 p.id
    have hset : (p.bindings.eraseIdx k).insertIdx k ⟨r'.ownedBy p.id, pred⟩ =
        p.bindings.set k ⟨r.ownedBy p.id, b.pred⟩ := by
      rw [List.insertIdx_eraseIdx_self, howned, hpred]
      exact Nat.ne_of_lt (List.getElem?_eq_some_iff.1 hb).1
    rcases Phi.bindingInserted_eq_ok.1 hins with ⟨-, -, -, rfl⟩
    refine ⟨k, _, hindex, hold, ?_, ?_⟩
    · simp only [hset]
      exact Insn.replacedAt_phi hb r
    · have hunbound := (VarTable.Moved.refl p.id m.vars).onVar b.arg.var fun x =>
        (x.thinned_unbind b.arg.id).moved p.id
      have hrecorded := hunbound.onVar r'.var fun x => x.moved_recordUse p.id ⟨r'.id, some p.id⟩
      exact hrecorded.onVar r'.var fun x => x.moved_addConsumer p.id

theorem Coherent.replaceArg_insn (h : m.Coherent) (hi : m.insn? id = some i) {source new : Operand}
    {s : Linked Insn} (hok : Insn.replaceArg source new ⟨i, m.vars⟩ = .ok true s) :
    ∃ k old, i.argIndex source = some k ∧ i.args[k]? = some old ∧
      Insn.ReplacedAt id k new i s.insn ∧ m.vars.Moved id s.vars := by
  unfold Insn.replaceArg at hok
  cases i with
  | node n =>
    rcases (Insn.edit_node_eq_ok _ _).1 hok with ⟨t, hreplace, rfl⟩
    exact h.replaceArg_node hi hreplace
  | phi p =>
    rcases (Insn.edit_phi_eq_ok _ _).1 hok with ⟨t, hreplace, rfl⟩
    cases source with
    | literal l => cases hreplace
    | register q =>
      cases new with
      | literal l => cases hreplace
      | register r => exact h.replaceArg_phi hi hreplace

/-! ## Runs -/

/-- **One operand in the place of another.** Take a live instruction in a state that calls without
failures have reached, in a method that does not check itself. If replacing an argument reports that it
was there, the operand stands at its position and nothing has changed but what that says and the
records of the two readings. Replacing reports that there was nothing to replace exactly if the
instance is not held or a phi is given a literal on either side, and then nothing has changed. -/
theorem replacement_positional {checks : Checks} {history : List Call}
    (hok : Along (fun m c => ∃ b, c.verdict m = .ok b) { checks := checks } history)
    (hm : ({ checks := checks } : Method).after history = m)
    (hoff : m.checks.afterMutation = false) (hi : m.insn? id = some i) (source new : Operand)
    (s : Supply) :
    let c : Call := ⟨.replaceArg id source new, s⟩
    (c.verdict m = .ok (.flag true) →
      ∃ k old j, i.argIndex source = some k ∧ i.args[k]? = some old ∧ old.id = source.id ∧
        Insn.ReplacedAt id k new i j ∧ m.Exchanged (c.next m) id old new j) ∧
    (c.verdict m = .ok (.flag false) ↔ i.argIndex source = none ∨
      i.isPhi = true ∧ (source.isRegister = false ∨ new.isRegister = false)) ∧
    (c.verdict m = .ok (.flag false) → c.next m = m) := by
  intro c
  have h : m.Coherent := hm ▸ coherent_after_of_ok hok
  refine ⟨fun htrue => ?_, ⟨fun hfalse => ?_, fun hnothing => ?_⟩, fun hfalse => ?_⟩
  · have hcoherent := h.next (spoilsNode_of_ok htrue)
    rcases call_of_ok id rfl htrue with ⟨i', flag, t, hi', hact, hflag, hnext⟩
    rw [hi, Option.some.injEq] at hi'
    subst hi'
    cases hflag
    rcases h.replaceArg_insn hi hact with ⟨k, old, hindex, hold, hreplaced, hmoved⟩
    rw [hnext] at hcoherent ⊢
    exact ⟨k, old, t.insn, hindex, hold, Insn.id_of_argIndex hindex hold, hreplaced,
      h.exchanged hi hold hreplaced hcoherent hmoved⟩
  · rcases call_of_ok id rfl hfalse with ⟨i', flag, t, hi', hact, hflag, -⟩
    rw [hi, Option.some.injEq] at hi'
    subst hi'
    cases hflag
    exact Insn.replaceArg_eq_false_iff.1 ⟨t, hact⟩
  · rcases Insn.replaceArg_eq_false_iff.2 hnothing with ⟨t, hact⟩
    exact (call_of_edit (c := c) rfl hi hoff hact).1
  · exact next_of_replaced_nothing (o := (id, new)) rfl hfalse

/-- One variable feeds a phi from two blocks. The value from the first block is replaced by another
variable; the phi remains a consumer of the former one. -/
theorem replacement_positional_shared_variable :
    let a : Register := { id := ⟨1⟩, reg := 0, var := some ⟨0⟩ }
    let b : Register := { id := ⟨2⟩, reg := 0, var := some ⟨0⟩ }
    let r : Register := { id := ⟨3⟩, reg := 0, var := some ⟨1⟩ }
    let history : List Call := [⟨.newVar 0 0, {}⟩, ⟨.newVar 0 1, {}⟩, ⟨.newPhi 0, {}⟩,
      ⟨.bindPhiArg ⟨0⟩ a ⟨7⟩, {}⟩, ⟨.bindPhiArg ⟨0⟩ b ⟨8⟩, {}⟩]
    let m := ({} : Method).after history
    let p : Phi :=
      { id := ⟨0⟩, result := { id := ⟨0⟩, reg := 0, owner := some ⟨0⟩ },
        bindings := [⟨a.ownedBy ⟨0⟩, ⟨7⟩⟩, ⟨b.ownedBy ⟨0⟩, ⟨8⟩⟩] }
    let c : Call := ⟨.replaceArg ⟨0⟩ (.register a) (.register r), {}⟩
    Along (fun m c => ∃ b, c.verdict m = .ok b) {} history ∧ m.checks.afterMutation = false ∧
      m.insn? ⟨0⟩ = some (.phi p) ∧ c.verdict m = .ok (.flag true) ∧
      ∃ j, Insn.ReplacedAt ⟨0⟩ 0 (.register r) (.phi p) j ∧
        m.Exchanged (c.next m) ⟨0⟩ (.register (a.ownedBy ⟨0⟩)) (.register r) j ∧
        j.usedVars = [⟨1⟩, ⟨0⟩] := by
  intro a b r history m p c
  have hok : Along (fun m c => ∃ b, c.verdict m = .ok b) {} history :=
    ⟨⟨_, rfl⟩, ⟨_, rfl⟩, ⟨_, rfl⟩, ⟨_, rfl⟩, ⟨_, rfl⟩, trivial⟩
  have hphi : m.insn? ⟨0⟩ = some (.phi p) := by decide
  have hverdict : c.verdict m = .ok (.flag true) := rfl
  rcases (replacement_positional hok rfl rfl hphi (.register a) (.register r) {}).1 hverdict with
    ⟨k, old, j, hindex, hold, -, hreplaced, hexchanged⟩
  cases hindex
  cases hold
  refine ⟨hok, rfl, hphi, hverdict, j, hreplaced, hexchanged, ?_⟩
  have hvars : j.usedVars = (j.args.filterMap Operand.register?).filterMap (·.var) := by
    rw [Insn.usedVars, Insn.registers_eq_filterMap]
  rw [hvars, hreplaced.args]
  rfl

end Method

end SsaForm
