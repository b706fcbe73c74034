import SsaForm.Proofs.Attaching
import SsaForm.Proofs.PhiLists
import SsaForm.Proofs.RecordOrder

/-!
# SsaForm.Proofs.LateRenaming — renaming later is binding renamed arguments

A phi can be filled in two ways. Its predecessors are bound to arguments without variables, and
these are renamed later, in any order and perhaps more than once (`Mutation.bindThenRename`); or
each argument is made with its variable and then bound (`Mutation.bindRenamed`). In a method that a
run without failures has reached both ways succeed and lead to the same method, up to the order in
which its variables list their readers (`late_renaming`).

* `Coherent.bindFresh` and `bindFresh_loop`: what binding fresh arguments does, one and many.
* `Coherent.renameFresh` and `renameFresh_loop`: what renaming them does.
* `Phi.getElem?_renameAll`: of the renamings of one argument the last one counts.
* `Refilled.sameUpToOrder`: the bindings of the phi determine the rest.
-/

namespace SsaForm

open Edit

/-! ## The two ways -/

namespace Mutation

/-- Binds a fresh argument for each block, and then makes the renamings, one after the other. -/
def bindThenRename (phi : InsnId) (blocks : List BlockId) (renamings : List (Nat × VarId)) :
    Edit (Method × Supply) Unit := do
  blocks.forM fun pred => discard (perform (.bindPhi phi pred))
  renamings.forM fun move => discard (perform (.attachVar phi move.1 move.2))

/-- Makes and binds an argument for each block that reads the variable beside it. -/
def bindRenamed (phi : InsnId) (pairs : List (BlockId × VarId)) : Edit (Method × Supply) Unit :=
  pairs.forM fun pair => do
    let arg ← newPhiArg phi (some pair.2)
    discard (perform (.bindPhiArg phi arg pair.1))

end Mutation

/-- The variable to which the last renaming at a position leads. -/
def lastRenaming (k : Nat) : List (Nat × VarId) → Option VarId
  | [] => none
  | move :: rest => (lastRenaming k rest).or (if move.1 = k then some move.2 else none)

theorem lastRenaming_eq_none {k : Nat} {moves : List (Nat × VarId)}
    (h : ∀ move ∈ moves, move.1 ≠ k) : lastRenaming k moves = none := by
  induction moves with
  | nil => rfl
  | cons move rest ih =>
    rw [List.forall_mem_cons] at h
    rw [lastRenaming, ih h.2, if_neg h.1]
    rfl

namespace Phi

/-- The bindings of fresh arguments, numbered from `next` on. -/
def freshBindings (p : Phi) (next : Nat) (entries : List (BlockId × Option VarId)) : List Binding :=
  entries.mapIdx fun i e => ⟨(p.freshArg ⟨next + i⟩ e.2).ownedBy p.id, e.1⟩

theorem freshBindings_cons (p : Phi) (next : Nat) (e : BlockId × Option VarId)
    (rest : List (BlockId × Option VarId)) :
    p.freshBindings next (e :: rest) =
      ⟨(p.freshArg ⟨next⟩ e.2).ownedBy p.id, e.1⟩ :: p.freshBindings (next + 1) rest := by
  rw [freshBindings, List.mapIdx_cons, freshBindings]
  simp only [Nat.add_zero, Nat.add_assoc, Nat.add_comm 1]

theorem exists_freshBinding (p : Phi) (next : Nat) {entries : List (BlockId × Option VarId)}
    {k : Nat} (hfrom : p.bindings.length ≤ k) (hto : k < p.bindings.length + entries.length) :
    ∃ b, (p.bindings ++ p.freshBindings next entries)[k]? = some b ∧ next ≤ b.arg.id.index := by
  rcases Nat.exists_eq_add_of_le hfrom with ⟨i, rfl⟩
  have hi : i < entries.length := Nat.lt_of_add_lt_add_left hto
  refine ⟨⟨(p.freshArg ⟨next + i⟩ entries[i].2).ownedBy p.id, entries[i].1⟩, ?_,
    Nat.le_add_right _ _⟩
  rw [List.getElem?_append_right (Nat.le_add_right _ _), Nat.add_sub_cancel_left]
  simp [freshBindings, hi]

/-- The bindings after a renaming. -/
def renameBinding (bindings : List Binding) (move : Nat × VarId) : List Binding :=
  bindings.modify move.1 fun b => ⟨b.arg.naming move.2, b.pred⟩

/-- The last renaming of an argument counts. -/
theorem getElem?_renameAll (moves : List (Nat × VarId)) (bindings : List Binding) (k : Nat) :
    (moves.foldl renameBinding bindings)[k]? = bindings[k]?.map fun b =>
      match lastRenaming k moves with
      | some v => ⟨b.arg.naming v, b.pred⟩
      | none => b := by
  induction moves generalizing bindings with
  | nil => simp [lastRenaming]
  | cons move rest ih =>
    rw [List.foldl_cons, ih, renameBinding, List.getElem?_modify]
    cases bindings[k]? with
    | none => rfl
    | some b =>
      rw [lastRenaming]
      by_cases hk : move.1 = k
      · -- a later renaming overwrites the first one
        cases lastRenaming k rest <;> simp [hk, Register.naming]
      · cases lastRenaming k rest <;> simp [hk]

end Phi

/-! ## Refilling a phi -/

/-- Every instance that is held has been given out before. -/
def Supply.AheadOf (s : Supply) (m : Method) : Prop := ∀ k r, m.Holds k r → r.id.index < s.next

instance (s : Supply) (m : Method) : Decidable (s.AheadOf m) :=
  decidable_of_iff (∀ i ∈ m.insns, ∀ r ∈ i.registers, r.id.index < s.next) <| by
    constructor
    · rintro h k r ⟨i, hi, hr⟩
      exact h i (Method.mem_insns.2 ⟨k, hi⟩) r hr
    · intro h i hi r hr
      rcases Method.mem_insns.1 hi with ⟨k, hk⟩
      exact h k r ⟨i, hk, hr⟩

namespace Method

variable {m m' m'' : Method} {phi : InsnId} {p q : Phi}

/-- The phi has become `q` by changes of its arguments, and who reads variables is recorded. -/
structure Refilled (m : Method) (phi : InsnId) (q : Phi) (m' : Method) : Prop where
  eq_putInsn : m' = m.putInsn phi ⟨.phi q, m'.vars⟩
  coherent : m'.Coherent
  same : VarTable.Same Variable.description m.vars m'.vars

theorem Refilled.refl (h : m.Coherent) (hp : m.insn? phi = some (.phi p)) : m.Refilled phi p m :=
  ⟨(putInsn_self hp).symm, h, VarTable.Same.refl _⟩

theorem Refilled.trans (h : m.Refilled phi p m') (h' : m'.Refilled phi q m'') :
    m.Refilled phi q m'' := by
  refine ⟨?_, h'.coherent, h.same.trans h'.same⟩
  calc m'' = m'.putInsn phi ⟨.phi q, m''.vars⟩ := h'.eq_putInsn
    _ = (m.putInsn phi ⟨.phi p, m'.vars⟩).putInsn phi ⟨.phi q, m''.vars⟩ := by
      rw [← h.eq_putInsn]
    _ = m.putInsn phi ⟨.phi q, m''.vars⟩ := putInsn_putInsn _ _ _ _

theorem Refilled.insn? (h : m.Refilled phi q m') (hp : m.insn? phi = some (.phi p)) :
    m'.insn? phi = some (.phi q) := by
  rw [h.eq_putInsn, insn?_putInsn_self hp]

theorem Refilled.checks (h : m.Refilled phi q m') : m'.checks = m.checks := by
  rw [h.eq_putInsn]
  rfl

theorem Refilled.holds (h : m.Refilled phi q m') (hp : m.insn? phi = some (.phi p)) {k : InsnId}
    {r : Register} : m'.Holds k r ↔ if phi = k then r ∈ q.args else m.Holds k r := by
  rw [h.eq_putInsn, holds_putInsn hp]
  rfl

/-- Two ways of refilling a phi with the same bindings. -/
theorem Refilled.sameUpToOrder (h : m.Refilled phi q m') (h' : m.Refilled phi q m'') :
    m'.SameUpToOrder m'' := by
  have hslots : m''.slots = m'.slots := by rw [h.eq_putInsn, h'.eq_putInsn]; rfl
  exact ⟨hslots, h'.checks.trans h.checks.symm,
    h.coherent.sameRecords h'.coherent hslots (h.same.symm.trans h'.same)⟩

/-! ## Binding fresh arguments -/

/-- The phi with one more fresh argument. -/
theorem Coherent.bindFresh (h : m.Coherent) (hp : m.insn? phi = some (.phi p)) {s : Supply}
    (hs : s.AheadOf m) {pred : BlockId} (hpred : pred ∉ p.preds) {v : Option VarId}
    (hv : m.vars.Knows v) :
    ∃ q m',
      q = { p with bindings := p.bindings ++ [⟨(p.freshArg s.draw.1 v).ownedBy p.id, pred⟩] } ∧
      Phi.argBound (p.freshArg s.draw.1 v) pred ⟨p, m.vars⟩ = .ok ⟨q, m'.vars⟩ ∧
      m.Refilled phi q m' ∧ s.draw.2.AheadOf m' := by
  have hfresh : m.Fresh (p.freshArg s.draw.1 v) :=
    ⟨rfl, fun k r hr heq => absurd (hs k r hr) (by rw [heq]; exact Nat.lt_irrefl _), hv⟩
  rcases h.bindArg_fresh hp hfresh hpred with ⟨t, hbound⟩
  have hinsert : atomically (Phi.bindingInserted p.bindings.length (p.freshArg s.draw.1 v) pred)
      ⟨p, m.vars⟩ = .ok () _ := atomically_of_ok hbound
  refine ⟨_, m.putInsn phi ⟨.phi _, t⟩, rfl, hbound, ⟨rfl, ?_, ?_⟩, ?_⟩
  · have hcoherent := hinsert ▸ h.insertBinding hp (Nat.le_refl p.bindings.length)
    exact hcoherent
  · have hsame := (VarTable.description_keptByReaders (fun _ => True) m.vars).phi_insertBinding
      (r := p.freshArg s.draw.1 v) p.bindings.length pred trivial ⟨p, m.vars⟩ (VarTable.Same.refl _)
    simp only [hinsert] at hsame
    exact hsame
  · intro k r hr
    rw [holds_putInsn hp] at hr
    by_cases hk : phi = k
    · rw [if_pos hk] at hr
      rcases List.mem_map.1 hr with ⟨b, hb, rfl⟩
      rcases List.mem_append.1 hb with hb | hb
      · exact Nat.lt_succ_of_lt (hs phi b.arg ((holds_of_insn? hp).2 (List.mem_map.2 ⟨b, hb, rfl⟩)))
      · cases List.mem_singleton.1 hb
        exact Nat.lt_succ_self _
    · rw [if_neg hk] at hr
      exact Nat.lt_succ_of_lt (hs k r hr)

/-- What the calls of both ways do on a method that does not check itself: they bind an argument. -/
theorem beside_bind {α : Type} (hoff : m.checks.afterMutation = false)
    (hp : m.insn? phi = some (.phi p)) {act : Edit (Linked Phi) α} {f : α → Answer} {a : α}
    {s' : Linked Phi} (hact : act ⟨p, m.vars⟩ = .ok a s') (s : Supply) :
    (f <$> beside (verified (editPhi phi act))) (m, s) = .ok (f a) (m.putInsn phi s'.ofPhi, s) := by
  have hedit : editPhi phi act m = .ok a (m.putInsn phi s'.ofPhi) :=
    editInsn_of_ok hp (Insn.edit_phi_of_ok _ act hact)
  have hverified : verified (editPhi phi act) m = .ok a (m.putInsn phi s'.ofPhi) := by
    rw [verified_of_unchecked (by rw [hedit]; exact hoff), hedit]
  refine run_map_eq_ok.2 ⟨a, ?_, rfl⟩
  simp only [beside, zoom, hverified]

theorem bindPhi_of_ok (hoff : m.checks.afterMutation = false) (hp : m.insn? phi = some (.phi p))
    {s : Supply} {pred : BlockId} {s' : Linked Phi}
    (hbound : Phi.argBound (p.freshArg s.draw.1) pred ⟨p, m.vars⟩ = .ok s') :
    discard (Mutation.perform (.bindPhi phi pred)) (m, s) =
      .ok () (m.putInsn phi s'.ofPhi, s.draw.2) := by
  have hperform : Mutation.perform (.bindPhi phi pred) (m, s) = _ :=
    bind_of_ok (ask_of_ok (phi_eq_ok.2 hp))
  have hbind := beside_bind (f := Answer.operand ∘ .register) hoff hp
    (Phi.bind_of_argBound hbound) s.draw.2
  rw [discard_eq, run_map_eq_ok]
  exact ⟨_, hperform.trans hbind, rfl⟩

theorem bindRenamed_of_ok (hoff : m.checks.afterMutation = false)
    (hp : m.insn? phi = some (.phi p)) {s : Supply} {pred : BlockId} {v : VarId} {s' : Linked Phi}
    (hbound : Phi.argBound (p.freshArg s.draw.1 (some v)) pred ⟨p, m.vars⟩ = .ok s') :
    (Mutation.newPhiArg phi (some v) >>= fun arg =>
      discard (Mutation.perform (.bindPhiArg phi arg pred))) (m, s) =
      .ok () (m.putInsn phi s'.ofPhi, s.draw.2) := by
  have hphi : m.phi phi = .ok p := phi_eq_ok.2 hp
  have harg : Mutation.newPhiArg phi (some v) (m, s) =
      .ok (p.freshArg s.draw.1 (some v)) (m, s.draw.2) := by
    have hask : Mutation.newPhiArg phi (some v) (m, s) = _ := bind_of_ok (ask_of_ok hphi)
    refine hask.trans ?_
    have hmade : m.newPhiArg phi s.draw.1 (some v) = .ok (p.freshArg s.draw.1 (some v)) := by
      rw [newPhiArg, hphi]
      rfl
    exact ask_of_ok (f := fun x : Method × Supply => x.1.newPhiArg phi s.draw.1 (some v)) hmade
  rw [bind_of_ok harg, discard_eq, run_map_eq_ok]
  exact ⟨_, beside_bind hoff hp (Phi.run_bindArg (u := ()).2 hbound) s.draw.2, rfl⟩

section BindLoop

variable {ι : Type} {entry : ι → BlockId × Option VarId} {step : ι → Edit (Method × Supply) Unit}

/-- Binding fresh arguments one after the other appends them all. -/
theorem bindFresh_loop
    (hstep : ∀ (m : Method) (p : Phi) (s : Supply) (x : ι) (s' : Linked Phi),
      m.checks.afterMutation = false → m.insn? phi = some (.phi p) →
      Phi.argBound (p.freshArg s.draw.1 (entry x).2) (entry x).1 ⟨p, m.vars⟩ = .ok s' →
      step x (m, s) = .ok () (m.putInsn phi s'.ofPhi, s.draw.2))
    (l : List ι) (h : m.Coherent) (hoff : m.checks.afterMutation = false)
    (hp : m.insn? phi = some (.phi p)) {s : Supply} (hs : s.AheadOf m)
    (hnodup : (l.map fun x => (entry x).1).Nodup) (hunbound : ∀ x ∈ l, (entry x).1 ∉ p.preds)
    (hknown : ∀ x ∈ l, m.vars.Knows (entry x).2) :
    ∃ m', l.forM step (m, s) = .ok () (m', ⟨s.next + l.length⟩) ∧
      m.Refilled phi
        { p with bindings := p.bindings ++ p.freshBindings s.next (l.map entry) } m' := by
  induction l generalizing m p s with
  | nil =>
    refine ⟨m, rfl, ?_⟩
    have hnone : p.bindings ++ p.freshBindings s.next ([].map entry) = p.bindings := by
      simp [Phi.freshBindings]
    rw [hnone]
    exact .refl h hp
  | cons x rest ih =>
    rw [List.map_cons, List.nodup_cons] at hnodup
    rw [List.forall_mem_cons] at hunbound hknown
    rcases h.bindFresh hp hs hunbound.1 hknown.1 with ⟨q, m₁, rfl, hbound, hm₁, hs₁⟩
    have hfirst : step x (m, s) = .ok () (m₁, s.draw.2) := by
      have hput : m.putInsn phi (Linked.ofPhi ⟨_, m₁.vars⟩) = m₁ := hm₁.eq_putInsn.symm
      have hrun := hstep m p s x _ hoff hp hbound
      rwa [hput] at hrun
    have hunbound₁ : ∀ y ∈ rest, (entry y).1 ∉ Phi.preds { p with bindings := p.bindings ++
        [⟨(p.freshArg s.draw.1 (entry x).2).ownedBy p.id, (entry x).1⟩] } := by
      intro y hy hmem
      rw [Phi.preds, List.map_append, List.mem_append] at hmem
      rcases hmem with hmem | hmem
      · exact hunbound.2 y hy hmem
      · rw [List.map_singleton, List.mem_singleton] at hmem
        exact hnodup.1 (List.mem_map.2 ⟨y, hy, hmem⟩)
    have hknown₁ : ∀ y ∈ rest, m₁.vars.Knows (entry y).2 := fun y hy =>
      hm₁.same.knows_iff.2 (hknown.2 y hy)
    rcases ih hm₁.coherent (hm₁.checks ▸ hoff) (hm₁.insn? hp) hs₁ hnodup.2 hunbound₁ hknown₁ with
      ⟨m', hrest, hm'⟩
    refine ⟨m', ?_, hm₁.trans ?_⟩
    · refine (bind_of_ok hfirst).trans (hrest.trans ?_)
      rw [Supply.draw_snd, List.length_cons, Nat.add_assoc, Nat.add_comm 1]
    · rw [List.map_cons, Phi.freshBindings_cons]
      rw [List.append_assoc] at hm'
      exact hm'

end BindLoop

/-! ## Renaming them -/

/-- Instances from `next` on are held in the phi only. -/
def Alone (m : Method) (phi : InsnId) (next : Nat) : Prop :=
  ∀ k r, m.Holds k r → next ≤ r.id.index → k = phi

/-- What is yet to be given out is held nowhere. -/
theorem alone_of_aheadOf {s : Supply} (hs : s.AheadOf m) : m.Alone phi s.next :=
  fun k r hr hnext => absurd (hs k r hr) (Nat.not_lt.2 hnext)

theorem Refilled.alone (h : m.Refilled phi q m') (hp : m.insn? phi = some (.phi p)) {next : Nat}
    (halone : m.Alone phi next) : m'.Alone phi next := by
  intro k r hr hnext
  rw [h.holds hp] at hr
  by_cases hk : phi = k
  · exact hk.symm
  · rw [if_neg hk] at hr
    exact halone k r hr hnext

/-- The phi with one fresh argument renamed. -/
theorem Coherent.renameFresh (h : m.Coherent) (hp : m.insn? phi = some (.phi p)) {next : Nat}
    (halone : m.Alone phi next) {move : Nat × VarId} {b : Binding}
    (hb : p.bindings[move.1]? = some b) (hnext : next ≤ b.arg.id.index) (hv : move.2 ∈ m.vars) :
    ∃ m', Insn.varAttached move.1 move.2 ⟨.phi p, m.vars⟩ =
        .ok ⟨.phi { p with bindings := Phi.renameBinding p.bindings move }, m'.vars⟩ ∧
      m.Refilled phi { p with bindings := Phi.renameBinding p.bindings move } m' := by
  have hset : Phi.renameBinding p.bindings move =
      p.bindings.set move.1 ⟨b.arg.naming move.2, b.pred⟩ := by
    rw [Phi.renameBinding, List.modify_eq_set_getElem?, hb]
    rfl
  rcases h.attachVar_alone hp hb (fun j r hr hid => halone j r hr (hid ▸ hnext)) hv with ⟨t, hok⟩
  rw [hset]
  refine ⟨m.putInsn phi ⟨.phi _, t⟩, hok, rfl, ?_, ?_⟩
  · have hcoherent := h.attachVar_phi hp move.1 move.2
    rwa [atomically_of_ok hok] at hcoherent
  · exact (VarTable.description_keptByReaders (fun _ => True) m.vars).attachVar
      (VarTable.Same.refl _) (fun _ _ => trivial) hok

/-- Renaming in range, one after the other. -/
theorem renameFresh_loop (moves : List (Nat × VarId)) (h : m.Coherent)
    (hoff : m.checks.afterMutation = false) (hp : m.insn? phi = some (.phi p)) {next : Nat}
    (halone : m.Alone phi next)
    (hrange : ∀ move ∈ moves, ∃ b, p.bindings[move.1]? = some b ∧ next ≤ b.arg.id.index)
    (hknown : ∀ move ∈ moves, move.2 ∈ m.vars) (s : Supply) :
    ∃ m', (moves.forM fun move => discard (Mutation.perform (.attachVar phi move.1 move.2)))
        (m, s) = .ok () (m', s) ∧
      m.Refilled phi { p with bindings := moves.foldl Phi.renameBinding p.bindings } m' := by
  induction moves generalizing m p with
  | nil => exact ⟨m, rfl, .refl h hp⟩
  | cons move rest ih =>
    rw [List.forall_mem_cons] at hrange hknown
    rcases hrange.1 with ⟨b, hb, hnext⟩
    rcases h.renameFresh hp halone hb hnext hknown.1 with ⟨m₁, hok, hm₁⟩
    have hedit : Method.attachVar phi move.1 move.2 m = .ok () m₁ := by
      have hrun := editInsn_of_ok hp (Insn.run_attachVar (u := ()).2 hok)
      rw [show m.putInsn phi _ = m₁ from hm₁.eq_putInsn.symm] at hrun
      rw [Method.attachVar, verified_of_unchecked, hrun]
      rw [hrun]
      exact hm₁.checks ▸ hoff
    have hfirst : discard (Mutation.perform (.attachVar phi move.1 move.2)) (m, s) =
        .ok () (m₁, s) := by
      have hbeside : beside (Method.attachVar phi move.1 move.2) (m, s) = .ok () (m₁, s) := by
        simp only [beside, zoom, hedit]
      exact run_map_eq_ok.2 ⟨.done, bind_of_ok hbeside, rfl⟩
    -- the positions are the same, and so are the instances
    have hrange₁ : ∀ other ∈ rest, ∃ b, (Phi.renameBinding p.bindings move)[other.1]? = some b ∧
        next ≤ b.arg.id.index := by
      intro other hother
      rcases hrange.2 other hother with ⟨c, hc, hle⟩
      rw [Phi.renameBinding, List.getElem?_modify, hc]
      by_cases hk : move.1 = other.1
      · exact ⟨⟨c.arg.naming move.2, c.pred⟩, by simp [hk], hle⟩
      · exact ⟨c, by simp [hk], hle⟩
    have hknown₁ : ∀ other ∈ rest, other.2 ∈ m₁.vars := fun other hother =>
      hm₁.same.mem_iff.2 (hknown.2 other hother)
    rcases ih hm₁.coherent (hm₁.checks ▸ hoff) (hm₁.insn? hp) (hm₁.alone hp halone) hrange₁
      hknown₁ with ⟨m', hrest, hm'⟩
    exact ⟨m', (bind_of_ok hfirst).trans hrest, hm₁.trans hm'⟩

/-! ## The two ways lead to the same method -/

theorem bindRenamed_loop (pairs : List (BlockId × VarId)) (h : m.Coherent)
    (hoff : m.checks.afterMutation = false) (hp : m.insn? phi = some (.phi p)) {s : Supply}
    (hs : s.AheadOf m) (hblocks : (pairs.map (·.1)).Nodup) (hunbound : ∀ e ∈ pairs, e.1 ∉ p.preds)
    (hvars : ∀ e ∈ pairs, e.2 ∈ m.vars) :
    ∃ m', Mutation.bindRenamed phi pairs (m, s) = .ok () (m', ⟨s.next + pairs.length⟩) ∧
      m.Refilled phi { p with
        bindings := p.bindings ++ p.freshBindings s.next (pairs.map fun e => (e.1, some e.2)) }
        m' := by
  refine bindFresh_loop ?_ pairs h hoff hp hs hblocks hunbound ?_
  · exact fun m p s e s' hoff hp hbound => bindRenamed_of_ok hoff hp hbound
  · exact fun e he w hw => Option.some.inj hw ▸ hvars e he

theorem bindPhi_loop (blocks : List BlockId) (h : m.Coherent)
    (hoff : m.checks.afterMutation = false) (hp : m.insn? phi = some (.phi p)) {s : Supply}
    (hs : s.AheadOf m) (hblocks : blocks.Nodup) (hunbound : ∀ b ∈ blocks, b ∉ p.preds) :
    ∃ m', (blocks.forM fun pred => discard (Mutation.perform (.bindPhi phi pred))) (m, s) =
        .ok () (m', ⟨s.next + blocks.length⟩) ∧
      m.Refilled phi { p with
        bindings := p.bindings ++ p.freshBindings s.next (blocks.map fun b => (b, none)) } m' := by
  refine bindFresh_loop ?_ blocks h hoff hp hs ?_ hunbound ?_
  · exact fun m p s b s' hoff hp hbound => bindPhi_of_ok hoff hp hbound
  · rwa [List.map_id']
  · exact fun b _ w hw => by cases hw

end Method

/-- Fresh arguments that are renamed later are as if they had been made with their variables. -/
theorem Phi.renameAll_freshBindings (p : Phi) (next : Nat) (pairs : List (BlockId × VarId))
    (moves : List (Nat × VarId)) (hfrom : ∀ move ∈ moves, p.bindings.length ≤ move.1)
    (hlast : ∀ i e, pairs[i]? = some e →
      lastRenaming (p.bindings.length + i) moves = some e.2) :
    moves.foldl Phi.renameBinding (p.bindings ++
        p.freshBindings next ((pairs.map (·.1)).map fun b => (b, none))) =
      p.bindings ++ p.freshBindings next (pairs.map fun e => (e.1, some e.2)) := by
  refine List.ext_getElem? fun k => ?_
  rw [Phi.getElem?_renameAll]
  by_cases hk : k < p.bindings.length
  · -- the old bindings stay
    have hnone : lastRenaming k moves = none := lastRenaming_eq_none fun move hmove =>
      Nat.ne_of_gt (Nat.lt_of_lt_of_le hk (hfrom move hmove))
    rw [hnone, List.getElem?_append_left hk, List.getElem?_append_left hk]
    exact Option.map_id'
  · have hle := Nat.le_of_not_lt hk
    rcases Nat.exists_eq_add_of_le hle with ⟨i, rfl⟩
    rw [List.getElem?_append_right hle, List.getElem?_append_right hle, Nat.add_sub_cancel_left]
    simp only [Phi.freshBindings, List.getElem?_mapIdx, List.getElem?_map, Option.map_map]
    cases hi : pairs[i]? with
    | none => rfl
    | some e =>
      simp only [Option.map_some, Function.comp, hlast i e hi]
      rfl

/-- **Renaming later is binding renamed arguments.** In a method that a run without failures has
reached, take blocks that a phi has not bound yet, each with a variable. Binding the blocks first
and attaching the variables later, in any order and with any detours as long as the last one counts,
always succeeds, and so does binding arguments made with the variables. Both leave the same
instructions, the same supply, and the same variables up to the order in which they record their
readers. -/
theorem Method.late_renaming {checks : Checks} {history : List Call} {m : Method}
    (hok : Along (fun m c => ∃ b, c.verdict m = .ok b) { checks := checks } history)
    (hm : ({ checks := checks } : Method).after history = m)
    (hoff : m.checks.afterMutation = false) {phi : InsnId} {p : Phi}
    (hp : m.insn? phi = some (.phi p)) {pairs : List (BlockId × VarId)}
    (hblocks : (pairs.map (·.1)).Nodup) (hunbound : ∀ e ∈ pairs, e.1 ∉ p.preds)
    (hvars : ∀ e ∈ pairs, e.2 ∈ m.vars) {moves : List (Nat × VarId)}
    (hmoves : ∀ move ∈ moves, p.bindings.length ≤ move.1 ∧
      move.1 < p.bindings.length + pairs.length ∧ move.2 ∈ m.vars)
    (hlast : ∀ i e, pairs[i]? = some e → lastRenaming (p.bindings.length + i) moves = some e.2)
    {s : Supply} (hs : s.AheadOf m) :
    ∃ late direct s',
      Mutation.bindThenRename phi (pairs.map (·.1)) moves (m, s) = .ok () (late, s') ∧
      Mutation.bindRenamed phi pairs (m, s) = .ok () (direct, s') ∧
      late.SameUpToOrder direct := by
  have h : m.Coherent := hm ▸ coherent_after_of_ok hok
  rcases bindRenamed_loop pairs h hoff hp hs hblocks hunbound hvars with
    ⟨direct, hdirect, hrefilled⟩
  have hunbound' : ∀ b ∈ pairs.map (·.1), b ∉ p.preds := by
    rintro b hb
    rcases List.mem_map.1 hb with ⟨e, he, rfl⟩
    exact hunbound e he
  rcases bindPhi_loop (pairs.map (·.1)) h hoff hp hs hblocks hunbound' with ⟨bound, hbind, hbound⟩
  -- every renaming meets a fresh argument, which stands in this phi only
  have hrange : ∀ move ∈ moves, ∃ b, (p.bindings ++
      p.freshBindings s.next ((pairs.map (·.1)).map fun b => (b, none)))[move.1]? = some b ∧
        s.next ≤ b.arg.id.index := by
    intro move hmove
    rcases hmoves move hmove with ⟨hfrom, hto, -⟩
    refine p.exists_freshBinding s.next hfrom ?_
    rwa [List.length_map, List.length_map]
  have hknown : ∀ move ∈ moves, move.2 ∈ bound.vars := fun move hmove =>
    hbound.same.mem_iff.2 (hmoves move hmove).2.2
  rcases renameFresh_loop moves hbound.coherent (hbound.checks ▸ hoff) (hbound.insn? hp)
    (hbound.alone hp (alone_of_aheadOf hs)) hrange hknown ⟨s.next + (pairs.map (·.1)).length⟩ with
    ⟨late, hrename, hlate⟩
  have hrefilled' := hbound.trans hlate
  rw [p.renameAll_freshBindings s.next pairs moves (fun move hmove => (hmoves move hmove).1)
    hlast] at hrefilled'
  refine ⟨late, direct, _, (bind_of_ok hbind).trans hrename, ?_, hrefilled'.sameUpToOrder hrefilled⟩
  rw [List.length_map]
  exact hdirect

/-- A phi with one argument is given two more, and each of them is renamed twice. -/
theorem Method.late_renaming_with_detours :
    let history : List Call := [⟨.newVar 0 0, {}⟩, ⟨.newVar 0 1, {}⟩, ⟨.newPhi 0, {}⟩,
      ⟨.bindPhi ⟨0⟩ ⟨6⟩, ⟨1⟩⟩, ⟨.attachVar ⟨0⟩ 0 ⟨1⟩, ⟨2⟩⟩]
    let m := ({} : Method).after history
    let moves : List (Nat × VarId) := [(2, ⟨0⟩), (1, ⟨1⟩), (2, ⟨1⟩), (1, ⟨0⟩)]
    Along (fun m c => ∃ b, c.verdict m = .ok b) {} history ∧ Supply.AheadOf ⟨2⟩ m ∧
      ∃ late direct s',
        Mutation.bindThenRename ⟨0⟩ [⟨7⟩, ⟨8⟩] moves (m, ⟨2⟩) = .ok () (late, s') ∧
        Mutation.bindRenamed ⟨0⟩ [(⟨7⟩, ⟨0⟩), (⟨8⟩, ⟨1⟩)] (m, ⟨2⟩) = .ok () (direct, s') ∧
        late.SameUpToOrder direct := by
  intro history m moves
  have hok : Along (fun m c => ∃ b, c.verdict m = .ok b) {} history :=
    ⟨⟨_, rfl⟩, ⟨_, rfl⟩, ⟨_, rfl⟩, ⟨_, rfl⟩, ⟨_, rfl⟩, trivial⟩
  have hahead : Supply.AheadOf ⟨2⟩ m := by decide
  let arg : Register := { id := ⟨1⟩, reg := 0, var := some ⟨1⟩, owner := some ⟨0⟩ }
  let p : Phi := { Phi.ofResult ⟨0⟩ 0 ⟨0⟩ with bindings := [⟨arg, ⟨6⟩⟩] }
  have hp : m.insn? ⟨0⟩ = some (.phi p) := by decide
  have hlast : ∀ i e, ([(⟨7⟩, ⟨0⟩), (⟨8⟩, ⟨1⟩)] : List (BlockId × VarId))[i]? = some e →
      lastRenaming (p.bindings.length + i) moves = some e.2 := by
    rintro (_ | _ | i) e he
    · cases he
      decide
    · cases he
      decide
    · cases he
  exact ⟨hok, hahead, late_renaming hok rfl rfl hp (by decide) (by decide) (by decide) (by decide)
    hlast hahead⟩

end SsaForm
