import Mathlib.Data.Finset.Card
import SsaForm.Proofs.Attaching
import SsaForm.Proofs.Definitions
import SsaForm.Proofs.Rechecking
import SsaForm.Proofs.RecordOrder

/-!
# SsaForm.Proofs.PhiRemoval — what removing a phi leaves

A phi is removed binding by binding, and each time its variable drops one use and looks at its
consumers anew. What comes of that does not depend on the way: `removePhi_effect` says that every
variable is left with the same records in the same order, without those of the phi.

* Each step thins out the records of a variable and never adds or moves one (`Variable.Thinned`).
* Which records are left in the end is known from the instructions (`Coherent`), and a part of a list
  without repetitions is determined by what it contains (`eq_filter_of_sublist`).

So the whole of a removal is one change of the method, `Method.clear`, and two such changes may be
swapped (`clear_comm`). `removePhis_effect` draws the conclusion for several phis at once: which ones are
named matters, not in which order and how often.
-/

namespace SsaForm

open Edit

/-! ## Lists and loops -/

/-- A part of a list without repetitions is what a filter leaves of the list. -/
theorem eq_filter_of_sublist {α : Type} {l l' : List α} {p : α → Bool} (h : l'.Sublist l)
    (hl : l.Nodup) (hmem : ∀ a, a ∈ l' ↔ a ∈ l ∧ p a = true) : l' = l.filter p := by
  have hperm : l'.Perm (l.filter p) := by
    refine (List.perm_ext_iff_of_nodup (hl.sublist h) (hl.filter p)).2 fun a => ?_
    rw [hmem, List.mem_filter]
  have hsub : (l'.filter p).Sublist (l.filter p) := h.filter p
  rw [List.filter_eq_self.2 fun a ha => ((hmem a).1 ha).2] at hsub
  exact hsub.eq_of_length hperm.length_eq

/-- The first mentions are distinct. -/
theorem nodup_eraseDups {α : Type} [DecidableEq α] : ∀ l : List α, l.eraseDups.Nodup
  | [] => List.nodup_nil
  | a :: rest => by
    have hfresh : a ∉ (rest.filter fun b => !b == a).eraseDups := by
      rw [List.mem_eraseDups, List.mem_filter]
      simp
    rw [List.eraseDups_cons, List.nodup_cons]
    exact ⟨hfresh, nodup_eraseDups _⟩
termination_by l => l.length
decreasing_by exact Nat.lt_succ_of_le (List.length_filter_le _ _)

theorem length_eraseDups {α : Type} [DecidableEq α] (l : List α) :
    l.eraseDups.length = l.toFinset.card := by
  rw [← List.toFinset_card_of_nodup (nodup_eraseDups l)]
  congr 1
  ext a
  rw [List.mem_toFinset, List.mem_toFinset, List.mem_eraseDups]

/-- An element that was not mentioned before is the next first mention. -/
theorem eraseDups_append_cons {α : Type} [DecidableEq α] {front : List α} {a : α}
    (ha : a ∉ front) (back : List α) :
    ∃ rest, (front ++ a :: back).eraseDups = front.eraseDups ++ a :: rest := by
  refine ⟨((back.removeAll front).filter fun b => !b == a).eraseDups, ?_⟩
  have hnew : front.contains a = false := by simpa using ha
  rw [List.eraseDups_append, List.cons_removeAll, if_pos hnew, List.eraseDups_cons]

/-- A loop that succeeds takes the states through which its steps lead one by one. -/
theorem Edit.foldl_finalState_of_mapM {σ α β : Type} {f : β → Edit σ α} {l : List β} {s s' : σ}
    {as : List α} (h : l.mapM f s = .ok as s') :
    l.foldl (fun s b => finalState (f b s)) s = s' := by
  induction l generalizing s as with
  | nil =>
    cases h
    rfl
  | cons b rest ih =>
    rw [List.mapM_cons, run_bind_eq_ok] at h
    rcases h with ⟨a, s₁, hstep, h⟩
    rw [run_bind_eq_ok] at h
    rcases h with ⟨as, s₂, hloop, h⟩
    cases h
    rw [List.foldl_cons, hstep]
    exact ih hloop

/-! ## Records that grow thin -/

namespace Variable

variable {x y : Variable} {id : InsnId}

/-- Some records of readers are gone, and those that are left have kept their order. -/
structure Thinned (x y : Variable) : Prop where
  description : y.description = x.description
  uses : y.uses.Sublist x.uses
  consumers : y.consumers.Sublist x.consumers

theorem Thinned.refl (x : Variable) : x.Thinned x :=
  ⟨rfl, List.Sublist.refl _, List.Sublist.refl _⟩

theorem Thinned.trans {z : Variable} (h : x.Thinned y) (h' : y.Thinned z) : x.Thinned z :=
  ⟨h'.description.trans h.description, h'.uses.trans h.uses, h'.consumers.trans h.consumers⟩

/-- Forgetting a use and the consumers that lapse with it. -/
theorem thinned_unbind (x : Variable) (a : OperandId) : x.Thinned (x.dropUse a).refreshConsumers :=
  ⟨rfl, List.filter_sublist, List.filter_sublist⟩

/-- The variable without the records of its readings in instruction `id`. -/
def withoutReader (id : InsnId) (x : Variable) : Variable :=
  { x with
    uses := x.uses.filter fun s => s.insn != some id
    consumers := x.consumers.filter fun p => p != id }

/-- What is left when the readings in an instruction have gone, one after the other. -/
theorem Thinned.eq_withoutReader {U : OperandId → InsnId → Prop} {Q : InsnId → Prop}
    (h : x.Thinned y) (hx : x.UsesAre U) (hcx : x.ConsumersAre Q)
    (hy : y.UsesAre fun a k => U a k ∧ k ≠ id) (hcy : y.ConsumersAre fun k => Q k ∧ k ≠ id) :
    y = x.withoutReader id := by
  have huses : y.uses = x.uses.filter fun s => s.insn != some id := by
    refine eq_filter_of_sublist h.uses (List.Nodup.of_map _ hx.nodup) fun s => ?_
    rw [hy.mem, hx.mem, bne_iff_ne]
    constructor
    · rintro ⟨k, hk, hU, hne⟩
      refine ⟨⟨k, hk, hU⟩, ?_⟩
      rw [hk, ne_eq, Option.some.injEq]
      exact hne
    · rintro ⟨⟨k, hk, hU⟩, hne⟩
      rw [hk, ne_eq, Option.some.injEq] at hne
      exact ⟨k, hk, hU, hne⟩
  have hconsumers : y.consumers = x.consumers.filter fun p => p != id := by
    refine eq_filter_of_sublist h.consumers hcx.nodup fun k => ?_
    rw [hcy.mem, hcx.mem, bne_iff_ne]
  exact eq_of_description h.description huses hconsumers

end Variable

namespace VarTable

/-- Each variable of the table is still there, with fewer records of readers perhaps. -/
structure Thinned (t s : VarTable) : Prop where
  mem : ∀ v, v ∈ s ↔ v ∈ t
  thinned : ∀ v x y, t.get? v = some x → s.get? v = some y → x.Thinned y

theorem Thinned.refl (t : VarTable) : t.Thinned t := by
  refine ⟨fun _ => Iff.rfl, fun v x y hx hy => ?_⟩
  rw [hx, Option.some.injEq] at hy
  rw [← hy]
  exact .refl x

theorem Thinned.onVar {t s : VarTable} (h : t.Thinned s) (v : Option VarId)
    {f : Variable → Variable} (hf : ∀ x : Variable, x.Thinned (f x)) : t.Thinned (s.onVar v f) := by
  refine ⟨fun w => mem_onVar.trans (h.mem w), fun w x y hx hy => ?_⟩
  rw [get?_onVar, Option.map_eq_some_iff] at hy
  rcases hy with ⟨z, hz, rfl⟩
  have hxz := h.thinned w x z hx hz
  by_cases hv : v = some w
  · rw [if_pos hv]
    exact hxz.trans (hf z)
  · rw [if_neg hv]
    exact hxz

/-- The table without the records of readings in instruction `id`. -/
def withoutReader (id : InsnId) (t : VarTable) : VarTable := ⟨t.vars.map (·.withoutReader id)⟩

theorem get?_withoutReader (id : InsnId) (t : VarTable) (v : VarId) :
    (t.withoutReader id).get? v = (t.get? v).map (·.withoutReader id) :=
  List.getElem?_map

end VarTable

/-! ## Removing the bindings -/

namespace Method

variable {m : Method} {id : InsnId} {p : Phi}

/-- Removing the first binding succeeds and only thins out the records. -/
theorem Coherent.unbind_step {i : Insn} (hi : m.insn? id = some i) {s : Linked Phi}
    (h : (m.putInsn id s.ofPhi).Coherent) (hpos : 0 < s.insn.bindings.length) {t : VarTable}
    (ht : t.Thinned s.vars) :
    ∃ r s', Phi.removeArgAt 0 s = .ok r s' ∧ (m.putInsn id s'.ofPhi).Coherent ∧
      s'.insn.bindings.length = s.insn.bindings.length - 1 ∧ t.Thinned s'.vars := by
  obtain ⟨b, hfirst⟩ : ∃ b, s.insn.bindings[0]? = some b := ⟨_, List.getElem?_eq_getElem hpos⟩
  have hphi : (m.putInsn id s.ofPhi).insn? id = some (.phi s.insn) := insn?_putInsn_self hi _
  have herased := h.eraseBinding hphi hfirst
  rw [putInsn_putInsn] at herased
  exact ⟨_, _, h.removeArgAt_of_getElem? hphi hfirst, herased, List.length_eraseIdx_of_lt hpos,
    ht.onVar _ fun x => x.thinned_unbind _⟩

/-- So does removing from the front again and again, no more often than there are bindings. -/
theorem Coherent.unbind_loop {i : Insn} (hi : m.insn? id = some i) (bs : List Binding)
    {s : Linked Phi} (h : (m.putInsn id s.ofPhi).Coherent)
    (hlength : bs.length ≤ s.insn.bindings.length) {t : VarTable} (ht : t.Thinned s.vars) :
    ∃ l s', bs.mapM (fun _ => Phi.removeArgAt 0) s = .ok l s' ∧
      (m.putInsn id s'.ofPhi).Coherent ∧ t.Thinned s'.vars := by
  -- each step leaves as many bindings as there are steps to come
  have hloop := mapM_of_steps (P := fun k s => (m.putInsn id s.ofPhi).Coherent ∧
    k ≤ s.insn.bindings.length ∧ t.Thinned s.vars) (f := Phi.removeArgAt 0) ?_ bs ⟨h, hlength, ht⟩
  · rcases hloop with ⟨l, s', hloop, hcoherent, -, hthin⟩
    exact ⟨l, s', hloop, hcoherent, hthin⟩
  · rintro k s₁ ⟨h₁, hlength₁, ht₁⟩
    rcases h₁.unbind_step hi (by omega) ht₁ with ⟨r, s₂, hstep, h₂, hlength₂, ht₂⟩
    exact ⟨r, s₂, hstep, h₂, by omega, ht₂⟩

/-- A phi without bindings reads nothing; the readings of the others are where they were. -/
theorem reads_putInsn_unbound (hp : m.insn? id = some (.phi p)) {s : Linked Phi}
    (hs : s.insn.bindings = []) (v : VarId) (a : OperandId) (k : InsnId) :
    (m.putInsn id s.ofPhi).Reads v a k ↔ m.Reads v a k ∧ k ≠ id := by
  by_cases hk : k = id
  · refine iff_of_false ?_ fun hr => hr.2 hk
    rw [hk, reads_putInsn_self hp]
    rintro ⟨r, hr, -⟩
    rw [Linked.ofPhi, Insn.registers, Phi.args, hs] at hr
    cases hr
  · rw [reads_putInsn_of_ne hp hk, and_iff_left hk]

theorem consumes_putInsn_unbound (hp : m.insn? id = some (.phi p)) {s : Linked Phi}
    (hs : s.insn.bindings = []) (v : VarId) (k : InsnId) :
    (m.putInsn id s.ofPhi).Consumes v k ↔ m.Consumes v k ∧ k ≠ id := by
  simp only [consumes_iff, reads_putInsn_unbound hp hs, isPhi_putInsn hp (s := s.ofPhi) rfl,
    exists_and_right, and_assoc]

/-- With the bindings of a phi go its readings, and nothing else. -/
theorem Coherent.unbindAll_phi (h : m.Coherent) (hp : m.insn? id = some (.phi p)) :
    ∃ l, Phi.unbindAll ⟨p, m.vars⟩ =
      .ok l ⟨{ p with bindings := [] }, m.vars.withoutReader id⟩ := by
  have hself : (m.putInsn id ⟨.phi p, m.vars⟩).Coherent := (putInsn_self hp).symm ▸ h
  rcases Coherent.unbind_loop (s := ⟨p, m.vars⟩) hp p.bindings hself (Nat.le_refl _)
    (VarTable.Thinned.refl m.vars) with ⟨l, s, hloop, hcoherent, hthin⟩
  have hall : Phi.unbindAll ⟨p, m.vars⟩ = .ok l s := hloop
  have hinsn := Phi.insn_unbindAll hall
  have hunbound : s.insn.bindings = [] := by rw [hinsn]
  have hvars : s.vars = m.vars.withoutReader id := by
    refine VarTable.ext_get? fun v => ?_
    rw [VarTable.get?_withoutReader]
    cases hx : m.vars.get? v with
    | none =>
      rw [VarTable.get?_eq_none, ← hthin.mem, ← VarTable.get?_eq_none] at hx
      exact hx
    | some x =>
      rcases VarTable.exists_get? ((hthin.mem v).2 (VarTable.mem_of_get? hx)) with ⟨y, hy⟩
      have huses := (hcoherent.readers.uses v y hy).congr rfl fun a k =>
        (reads_putInsn_unbound hp hunbound v a k).symm
      have hconsumers := (hcoherent.readers.consumers v y hy).congr rfl fun k =>
        (consumes_putInsn_unbound hp hunbound v k).symm
      rw [hy, Option.map_some, (hthin.thinned v x y hx hy).eq_withoutReader
        (h.readers.uses v x hx) (h.readers.consumers v x hx) huses hconsumers]
  refine ⟨l, hall.trans ?_⟩
  obtain ⟨q, t⟩ := s
  simp only at hinsn hvars
  rw [hinsn, hvars]

/-! ## Taking the phi out -/

/-- What a removal of a phi relies on. -/
structure PhisRemovable (m : Method) : Prop where
  coherent : m.Coherent
  results : m.ResultsKnown
  unchecked : m.checks.afterMutation = false

theorem phisRemovable_after {checks : Checks} {history : List Call}
    (hok : Along (fun m c => ∃ b, c.verdict m = .ok b) { checks := checks } history)
    (hm : ({ checks := checks } : Method).after history = m)
    (hoff : m.checks.afterMutation = false) : m.PhisRemovable :=
  ⟨hm ▸ coherent_after_of_ok hok, hm ▸ resultsKnown_after checks history, hoff⟩

/-- The method without the instruction `id`, of which the result was `r`: its readings are not
recorded any more, and neither is a definition by the result. -/
def cleared (m : Method) (id : InsnId) (r : Register) : Method :=
  { m.without id with vars := (m.vars.withoutReader id).onVar r.var (·.undefine r.id) }

/-- Removing a live phi succeeds and clears it away. -/
theorem PhisRemovable.removePhi_eq (h : m.PhisRemovable) (hp : m.insn? id = some (.phi p)) :
    removePhi id m = .ok { p with bindings := [] } (m.cleared id p.result) := by
  rcases h.coherent.unbindAll_phi hp with ⟨l, hunbind⟩
  have hedit : editInsn id (discard Insn.unbindAll) m =
      .ok () (m.putInsn id ⟨.phi { p with bindings := [] }, m.vars.withoutReader id⟩) := by
    refine editInsn_of_ok hp ?_
    have hphi : ((·.map Operand.register) <$> Phi.unbindAll : Edit (Linked Phi) (List Operand))
        ⟨p, m.vars⟩ = .ok _ _ := run_map_eq_ok.2 ⟨l, hunbind, rfl⟩
    exact run_map_eq_ok.2 ⟨_, Insn.edit_phi_of_ok Node.unbindAll _ hphi, rfl⟩
  have hunbound : unbindInsn id m =
      .ok () (m.putInsn id ⟨.phi { p with bindings := [] }, m.vars.withoutReader id⟩) := by
    rw [unbindInsn, verified_of_unchecked, hedit]
    rw [hedit]
    exact h.unchecked
  have hknown : (m.vars.withoutReader id).Knows p.result.var := by
    intro v hv
    have hmem := h.results id p.result ((hasResult_of_insn? hp).2 rfl) v hv
    rw [VarTable.mem_def] at hmem ⊢
    rwa [VarTable.withoutReader, List.length_map]
  rw [removePhi_of_phi (phi_eq_ok.2 hp), bind_of_ok hunbound, takePhi,
    phi_eq_ok.2 (insn?_putInsn_self hp _)]
  simp only [vars_putInsn, VarTable.removeDefiner_eq_ok.2 ⟨hknown, rfl⟩]
  have hslots : (m.putInsn id ⟨.phi { p with bindings := [] }, m.vars.withoutReader id⟩).slots.set
      id.index none = (m.without id).slots := List.set_set ..
  rw [hslots]
  rfl

theorem insn?_cleared (m : Method) (id : InsnId) (r : Register) (k : InsnId) :
    (m.cleared id r).insn? k = if k = id then none else m.insn? k :=
  insn?_without m id k

/-- What becomes of each variable. -/
theorem get?_cleared (m : Method) (id : InsnId) (r : Register) (v : VarId) :
    (m.cleared id r).vars.get? v = (m.vars.get? v).map fun x =>
      { x with
        uses := x.uses.filter fun s => s.insn != some id
        consumers := x.consumers.filter fun p => p != id
        definition :=
          if r.var = some v ∧ x.definedBy r.id = true then none else x.definition } := by
  rw [cleared, VarTable.get?_onVar, VarTable.get?_withoutReader, Option.map_map]
  congr 1
  funext x
  have hdefined : (x.withoutReader id).definedBy r.id = x.definedBy r.id := rfl
  by_cases hv : r.var = some v
  · by_cases hx : x.definedBy r.id = true
    · rw [Function.comp, if_pos hv, Variable.undefine, hdefined, if_pos hx, if_pos ⟨hv, hx⟩]
      rfl
    · rw [Function.comp, if_pos hv, Variable.undefine, hdefined, if_neg hx,
        if_neg fun h => hx h.2]
      rfl
  · rw [Function.comp, if_neg hv, if_neg fun h => hv h.1]
    rfl

/-- Two instructions leave the same method behind, whichever is cleared away first. -/
theorem cleared_comm (m : Method) {a b : InsnId} (hab : a ≠ b) (r q : Register) :
    (m.cleared a r).cleared b q = (m.cleared b q).cleared a r := by
  have hslots : ((m.cleared a r).cleared b q).slots = ((m.cleared b q).cleared a r).slots :=
    List.set_comm _ _ fun h => hab (congrArg InsnId.mk h)
  have hvars : ((m.cleared a r).cleared b q).vars = ((m.cleared b q).cleared a r).vars := by
    refine VarTable.ext_get? fun v => ?_
    simp only [get?_cleared, Option.map_map]
    congr 1
    funext x
    simp only [Function.comp, Variable.definedBy, List.filter_filter, Bool.and_comm, Variable.mk.injEq,
      true_and, and_true]
    -- the definition is gone if one of the two results gave it
    by_cases hr : r.var = some v ∧ Option.any (·.operand == r.id) x.definition = true <;>
      by_cases hq : q.var = some v ∧ Option.any (·.operand == q.id) x.definition = true <;>
      simp [hr, hq]
  exact congrArg₂ (fun slots vars => (⟨slots, vars, m.checks⟩ : Method)) hslots hvars

/-! ## Removing several -/

/-- The method without the phi `id`; the method as it is if there is no such phi. -/
def clear (m : Method) (id : InsnId) : Method :=
  match m.phi id with
  | .ok p => m.cleared id p.result
  | .error _ => m

theorem clear_of_phi (hp : m.insn? id = some (.phi p)) : m.clear id = m.cleared id p.result := by
  rw [clear, phi_eq_ok.2 hp]

theorem insn?_clear_of_ne {k : InsnId} (hk : k ≠ id) : (m.clear id).insn? k = m.insn? k := by
  unfold clear
  cases m.phi id with
  | ok p => rw [insn?_cleared, if_neg hk]
  | error e => rfl

theorem phi_clear_of_ne {k : InsnId} (hk : k ≠ id) : (m.clear id).phi k = m.phi k := by
  rw [phi, phi, insn, insn, insn?_clear_of_ne hk]

theorem clear_comm (m : Method) (a b : InsnId) : (m.clear a).clear b = (m.clear b).clear a := by
  by_cases hab : a = b
  · rw [hab]
  · have ha : (m.clear b).phi a = m.phi a := phi_clear_of_ne hab
    have hb : (m.clear a).phi b = m.phi b := phi_clear_of_ne (Ne.symm hab)
    rw [clear, clear.eq_def (m.clear b), ha, hb, clear, clear]
    cases m.phi a with
    | error e => rfl
    | ok p =>
      cases m.phi b with
      | error e => rfl
      | ok q => exact m.cleared_comm hab p.result q.result

theorem phi_foldl_clear {ids : List InsnId} (hid : id ∉ ids) :
    (ids.foldl clear m).phi id = m.phi id := by
  induction ids generalizing m with
  | nil => rfl
  | cons k rest ih =>
    rw [List.mem_cons, not_or] at hid
    rw [List.foldl_cons, ih hid.2, phi_clear_of_ne hid.1]

/-- The order of several does not matter, and neither do repetitions where there are none. -/
theorem foldl_clear_congr (m : Method) {l l' : List InsnId} (hl : l.Nodup) (hl' : l'.Nodup)
    (h : ∀ id, id ∈ l ↔ id ∈ l') : l.foldl clear m = l'.foldl clear m :=
  ((List.perm_ext_iff_of_nodup hl hl').2 h).foldl_eq' (fun a _ b _ s => clear_comm s a b) m

/-- A removal leaves a method in which the other phis can be removed. -/
theorem PhisRemovable.removePhi_step (h : m.PhisRemovable) (hp : m.IsPhi id) :
    ∃ p, removePhi id m = .ok p (m.clear id) ∧ (m.clear id).PhisRemovable := by
  rcases hp with ⟨p, hp⟩
  have hremoved := h.removePhi_eq hp
  rw [← clear_of_phi hp] at hremoved
  have hstate : finalState (removePhi id m) = m.clear id := by rw [hremoved]; rfl
  refine ⟨_, hremoved, ?_, ?_, ?_⟩
  · exact hstate ▸ coherent_keptBySteps.removals.keeps_removePhi id m h.coherent
  · exact hstate ▸ resultsKnown_keptByResults.keptBySteps.removals.keeps_removePhi id m h.results
  · rw [← hstate, checks_removePhi]
    exact h.unchecked

theorem isPhi_clear_of_mem {ids : List InsnId} (hid : id ∉ ids) (hphis : ∀ k ∈ ids, m.IsPhi k) :
    ∀ k ∈ ids, (m.clear id).IsPhi k := by
  intro k hk
  rw [IsPhi, insn?_clear_of_ne (ne_of_mem_of_not_mem hk hid)]
  exact hphis k hk

/-- Distinct live phis are cleared away one after the other, and all of them are. -/
theorem PhisRemovable.removePhi_loop (h : m.PhisRemovable) {ids : List InsnId} (hids : ids.Nodup)
    (hphis : ∀ id ∈ ids, m.IsPhi id) :
    ∃ ps, ids.mapM removePhi m = .ok ps (ids.foldl clear m) ∧ ps.length = ids.length := by
  induction ids generalizing m with
  | nil => exact ⟨[], rfl, rfl⟩
  | cons id rest ih =>
    rw [List.nodup_cons] at hids
    rw [List.forall_mem_cons] at hphis
    rcases h.removePhi_step hphis.1 with ⟨p, hstep, hleft⟩
    rcases ih hleft hids.2 (isPhi_clear_of_mem hids.1 hphis.2) with ⟨ps, hloop, hlength⟩
    refine ⟨p :: ps, ?_, by rw [List.length_cons, hlength, List.length_cons]⟩
    rw [List.mapM_cons, bind_of_ok hstep, bind_of_ok hloop]
    rfl

/-- An identity that names no live phi is looked up in vain. -/
theorem phi_eq_error_of_not_isPhi (h : ¬ m.IsPhi id) :
    ∃ e, m.phi id = .error e ∧
      (m.insn? id = none ∧ e = .unknownInsn id ∨
        (∃ n, m.insn? id = some (.node n)) ∧ e = .notPhi id) := by
  cases hi : m.insn? id with
  | none =>
    refine ⟨.unknownInsn id, ?_, .inl ⟨rfl, rfl⟩⟩
    rw [phi, insn_eq_error.2 ⟨hi, rfl⟩]
    rfl
  | some i =>
    cases i with
    | phi p => exact absurd ⟨p, hi⟩ h
    | node n =>
      refine ⟨.notPhi id, ?_, .inr ⟨⟨n, rfl⟩, rfl⟩⟩
      rw [phi, insn_eq_ok.2 hi]
      rfl

/-- Removing live phis succeeds. -/
theorem PhisRemovable.removePhis_eq (h : m.PhisRemovable) {ids : List InsnId}
    (hphis : ∀ id ∈ ids, m.IsPhi id) :
    removePhis ids m = .ok ids.toFinset.card (ids.eraseDups.foldl clear m) := by
  rcases h.removePhi_loop (nodup_eraseDups ids) fun id hid => hphis id (List.mem_eraseDups.1 hid)
    with ⟨ps, hloop, hlength⟩
  rw [removePhis, bind_of_ok hloop, hlength, length_eraseDups]
  rfl

/-- Removing stops at the first identity that names no live phi. -/
theorem PhisRemovable.removePhis_stops (h : m.PhisRemovable) {front : List InsnId}
    (hphis : ∀ k ∈ front, m.IsPhi k) (hid : ¬ m.IsPhi id) (back : List InsnId) {e : Fault}
    (he : m.phi id = .error e) :
    removePhis (front ++ id :: back) m = .error e (front.eraseDups.foldl clear m) := by
  have hfresh : id ∉ front := fun hmem => hid (hphis id hmem)
  rcases eraseDups_append_cons hfresh back with ⟨rest, hrest⟩
  rcases h.removePhi_loop (nodup_eraseDups front) fun k hk => hphis k (List.mem_eraseDups.1 hk)
    with ⟨ps, hloop, -⟩
  have hphi : (front.eraseDups.foldl clear m).phi id = .error e := by
    rwa [phi_foldl_clear fun hmem => hfresh (List.mem_eraseDups.1 hmem)]
  have hstop : removePhi id (front.eraseDups.foldl clear m) =
      .error e (front.eraseDups.foldl clear m) := bind_of_error (ask_of_error hphi)
  have hrun : ((front.eraseDups ++ id :: rest).mapM removePhi : Edit Method (List Phi)) m =
      .error e (front.eraseDups.foldl clear m) := by
    rw [List.mapM_append, bind_of_ok hloop, List.mapM_cons]
    exact bind_of_error (bind_of_error hstop)
  rw [removePhis, hrest]
  exact bind_of_error hrun

theorem next_removePhi (id : InsnId) (s : Supply) (m : Method) :
    (⟨.removePhi id, s⟩ : Call).next m = finalState (removePhi id m) :=
  (Call.next_eq _ m).trans (finalState_map Answer.phi (removePhi id) m)

/-- One call for each of several distinct phis, in any order, clears them away as well. -/
theorem PhisRemovable.after_removePhi (h : m.PhisRemovable) {ids distinct : List InsnId}
    (hphis : ∀ id ∈ ids, m.IsPhi id) (hdistinct : distinct.Nodup)
    (hsame : ∀ id, id ∈ distinct ↔ id ∈ ids) (s : Supply) :
    m.after (distinct.map fun id => ⟨.removePhi id, s⟩) = ids.eraseDups.foldl clear m := by
  rcases h.removePhi_loop hdistinct fun id hid => hphis id ((hsame id).1 hid) with ⟨ps, hloop, -⟩
  calc m.after (distinct.map fun id => ⟨.removePhi id, s⟩)
      = distinct.foldl (fun m id => finalState (removePhi id m)) m := by
        rw [after, List.foldl_map]
        simp only [next_removePhi]
    _ = distinct.foldl clear m := foldl_finalState_of_mapM hloop
    _ = ids.eraseDups.foldl clear m := by
        refine foldl_clear_congr m hdistinct (nodup_eraseDups ids) fun id => ?_
        rw [hsame, List.mem_eraseDups]

section Runs

variable {checks : Checks} {history : List Call}

/-- **Removing a phi.** In a state that calls without failures have reached, and that does not check
itself, a live phi is removed and returned without its bindings. Every other instruction stays. Every
variable loses the uses in the phi and the phi as a consumer, the others keep their order; it loses its
definition if the result of the phi names it and is recorded to define it; the rest of it stays. -/
theorem removePhi_effect
    (hok : Along (fun m c => ∃ b, c.verdict m = .ok b) { checks := checks } history)
    (hm : ({ checks := checks } : Method).after history = m)
    (hoff : m.checks.afterMutation = false) (hp : m.insn? id = some (.phi p)) (s : Supply) :
    let c : Call := ⟨.removePhi id, s⟩
    c.verdict m = .ok (.phi { p with bindings := [] }) ∧
      (∀ k, (c.next m).insn? k = if k = id then none else m.insn? k) ∧
      (c.next m).checks = m.checks ∧
      ∀ v, (c.next m).vars.get? v = (m.vars.get? v).map fun x =>
        { x with
          uses := x.uses.filter fun u => u.insn != some id
          consumers := x.consumers.filter fun q => q != id
          definition :=
            if p.result.var = some v ∧ x.definedBy p.result.id = true then none
            else x.definition } := by
  intro c
  have hedit : c.edit = Answer.phi <$> removePhi id := rfl
  have hremoved := (phisRemovable_after hok hm hoff).removePhi_eq hp
  rcases Call.outcome_of_ok hedit hremoved with ⟨hverdict, hnext⟩
  rw [hnext]
  exact ⟨hverdict, m.insn?_cleared id p.result, rfl, m.get?_cleared id p.result⟩

/-- Two phis read one variable, the first one twice, and its result defines another variable. When it
is removed, the use of the second one is left, and the definition is gone. -/
theorem removePhi_effect_reading_twice :
    let read (a : OperandId) : Register := { id := a, reg := 0, var := some ⟨0⟩ }
    let history : List Call := [⟨.newVar 0 0, {}⟩, ⟨.newVar 0 1, {}⟩, ⟨.newPhi 0, ⟨0⟩⟩,
      ⟨.newPhi 0, ⟨1⟩⟩, ⟨.assignResult ⟨0⟩ ⟨1⟩, {}⟩, ⟨.bindPhiArg ⟨0⟩ (read ⟨2⟩) ⟨7⟩, {}⟩,
      ⟨.bindPhiArg ⟨1⟩ (read ⟨3⟩) ⟨7⟩, {}⟩, ⟨.bindPhiArg ⟨0⟩ (read ⟨4⟩) ⟨8⟩, {}⟩]
    let m := ({} : Method).after history
    let c : Call := ⟨.removePhi ⟨0⟩, {}⟩
    let result : Register := { id := ⟨0⟩, reg := 0, var := some ⟨1⟩, owner := some ⟨0⟩ }
    Along (fun m c => ∃ b, c.verdict m = .ok b) {} history ∧ m.checks.afterMutation = false ∧
      c.verdict m = .ok (.phi { id := ⟨0⟩, result := result }) ∧
      (c.next m).insn? ⟨0⟩ = none ∧ (c.next m).insn? ⟨1⟩ = m.insn? ⟨1⟩ ∧
      (m.vars.get? ⟨0⟩).map (·.uses.map (·.operand)) = some [⟨2⟩, ⟨3⟩, ⟨4⟩] ∧
      ((c.next m).vars.get? ⟨0⟩).map (·.uses.map (·.operand)) = some [⟨3⟩] ∧
      ((c.next m).vars.get? ⟨0⟩).map (·.consumers) = some [⟨1⟩] ∧
      ((c.next m).vars.get? ⟨1⟩).map (·.definition) = some none := by
  intro read history m c result
  have hok : Along (fun m c => ∃ b, c.verdict m = .ok b) {} history :=
    ⟨⟨_, rfl⟩, ⟨_, rfl⟩, ⟨_, rfl⟩, ⟨_, rfl⟩, ⟨_, rfl⟩, ⟨_, rfl⟩, ⟨_, rfl⟩, ⟨_, rfl⟩, trivial⟩
  have hphi : m.insn? ⟨0⟩ = some (.phi
      { id := ⟨0⟩, result := result,
        bindings := [⟨(read ⟨2⟩).ownedBy ⟨0⟩, ⟨7⟩⟩, ⟨(read ⟨4⟩).ownedBy ⟨0⟩, ⟨8⟩⟩] }) := rfl
  rcases removePhi_effect hok rfl rfl hphi {} with ⟨hverdict, hinsns, -, hvars⟩
  refine ⟨hok, rfl, hverdict, hinsns ⟨0⟩, hinsns ⟨1⟩, rfl, ?_, ?_, ?_⟩
  · rw [hvars]
    rfl
  · rw [hvars]
    rfl
  · rw [hvars]
    rfl

/-- **Removing several phis.** In such a state, naming live phis removes each of them once and returns
how many distinct ones there are; the order in which they are named and repetitions make no difference to
what is returned and to what is left. If an identity names no live phi, the first such one is reported,
and what is left is what removing the distinct ones named before it leaves, in any order. -/
theorem removePhis_effect
    (hok : Along (fun m c => ∃ b, c.verdict m = .ok b) { checks := checks } history)
    (hm : ({ checks := checks } : Method).after history = m)
    (hoff : m.checks.afterMutation = false) (ids : List InsnId) (s : Supply) :
    let c : Call := ⟨.removePhis ids, s⟩
    ((∀ id ∈ ids, m.IsPhi id) →
      c.verdict m = .ok (.count ids.toFinset.card) ∧
      (∀ distinct : List InsnId, distinct.Nodup → (∀ id, id ∈ distinct ↔ id ∈ ids) →
        c.next m = m.after (distinct.map fun id => ⟨.removePhi id, s⟩)) ∧
      ∀ ids' s', (∀ id, id ∈ ids' ↔ id ∈ ids) →
        let c' : Call := ⟨.removePhis ids', s'⟩
        c'.verdict m = c.verdict m ∧ c'.next m = c.next m) ∧
    ∀ front id back, ids = front ++ id :: back → (∀ k ∈ front, m.IsPhi k) → ¬ m.IsPhi id →
      ∃ e, (m.insn? id = none ∧ e = .unknownInsn id ∨
          (∃ n, m.insn? id = some (.node n)) ∧ e = .notPhi id) ∧
        c.verdict m = .error e ∧
        ∀ distinct : List InsnId, distinct.Nodup → (∀ k, k ∈ distinct ↔ k ∈ front) →
          c.next m = m.after (distinct.map fun k => ⟨.removePhi k, s⟩) := by
  have h := phisRemovable_after hok hm hoff
  have hedit : ∀ ids s, (⟨.removePhis ids, s⟩ : Call).edit = Answer.count <$> removePhis ids :=
    fun _ _ => rfl
  intro c
  refine ⟨fun hphis => ?_, fun front id back hids hfront hid => ?_⟩
  · rcases Call.outcome_of_ok (hedit ids s) (h.removePhis_eq hphis) with ⟨hverdict, hnext⟩
    refine ⟨hverdict, fun distinct hdistinct hsame => ?_, fun ids' s' hsame => ?_⟩
    · rw [hnext, h.after_removePhi hphis hdistinct hsame]
    · have hphis' : ∀ id ∈ ids', m.IsPhi id := fun id hid => hphis id ((hsame id).1 hid)
      rcases Call.outcome_of_ok (hedit ids' s') (h.removePhis_eq hphis') with ⟨hverdict', hnext'⟩
      constructor
      · have hset : ids'.toFinset = ids.toFinset := by
          ext id
          rw [List.mem_toFinset, List.mem_toFinset, hsame]
        rw [hverdict', hverdict, hset]
      · rw [hnext', hnext]
        refine foldl_clear_congr m (nodup_eraseDups ids') (nodup_eraseDups ids) fun id => ?_
        rw [List.mem_eraseDups, List.mem_eraseDups, hsame]
  · rcases phi_eq_error_of_not_isPhi hid with ⟨e, he, hkind⟩
    have hstops := h.removePhis_stops hfront hid back he
    rw [← hids] at hstops
    rcases Call.outcome_of_error (hedit ids s) hstops with ⟨hverdict, hnext⟩
    refine ⟨e, hkind, hverdict, fun distinct hdistinct hsame => ?_⟩
    rw [hnext, h.after_removePhi hfront hdistinct hsame]

/-- Two phis and a node: naming the phis in either order, one of them twice, counts and leaves the
same. When the node is named between them, it is reported, and only the phi named before it is gone. -/
theorem removePhis_effect_with_repetition :
    let read (a : OperandId) : Register := { id := a, reg := 0, var := some ⟨0⟩ }
    let history : List Call := [⟨.newVar 0 0, {}⟩, ⟨.newPhi 0, ⟨0⟩⟩, ⟨.newPhi 0, ⟨1⟩⟩,
      ⟨.newNode .const, {}⟩, ⟨.bindPhiArg ⟨0⟩ (read ⟨2⟩) ⟨7⟩, {}⟩,
      ⟨.bindPhiArg ⟨1⟩ (read ⟨3⟩) ⟨7⟩, {}⟩, ⟨.addArg ⟨2⟩ (.register (read ⟨4⟩)), {}⟩]
    let m := ({} : Method).after history
    let c : Call := ⟨.removePhis [⟨1⟩, ⟨0⟩, ⟨1⟩], {}⟩
    let d : Call := ⟨.removePhis [⟨0⟩, ⟨1⟩], {}⟩
    let f : Call := ⟨.removePhis [⟨1⟩, ⟨1⟩, ⟨2⟩, ⟨0⟩], {}⟩
    Along (fun m c => ∃ b, c.verdict m = .ok b) {} history ∧ m.checks.afterMutation = false ∧
      c.verdict m = .ok (.count 2) ∧
      c.next m = m.after [⟨.removePhi ⟨0⟩, {}⟩, ⟨.removePhi ⟨1⟩, {}⟩] ∧
      d.verdict m = c.verdict m ∧ d.next m = c.next m ∧
      f.verdict m = .error (.notPhi ⟨2⟩) ∧ f.next m = m.after [⟨.removePhi ⟨1⟩, {}⟩] := by
  intro read history m c d f
  have hok : Along (fun m c => ∃ b, c.verdict m = .ok b) {} history :=
    ⟨⟨_, rfl⟩, ⟨_, rfl⟩, ⟨_, rfl⟩, ⟨_, rfl⟩, ⟨_, rfl⟩, ⟨_, rfl⟩, ⟨_, rfl⟩, trivial⟩
  have hfirst : m.IsPhi ⟨0⟩ := ⟨_, rfl⟩
  have hsecond : m.IsPhi ⟨1⟩ := ⟨_, rfl⟩
  have hnode : ¬ m.IsPhi ⟨2⟩ := by
    rintro ⟨p, hp⟩
    exact nomatch hp
  have hall := (removePhis_effect (m := m) hok rfl rfl [⟨1⟩, ⟨0⟩, ⟨1⟩] {}).1
    (by simp [hfirst, hsecond])
  have hstops := (removePhis_effect (m := m) hok rfl rfl [⟨1⟩, ⟨1⟩, ⟨2⟩, ⟨0⟩] {}).2 [⟨1⟩, ⟨1⟩] ⟨2⟩
    [⟨0⟩] rfl (by simp [hsecond]) hnode
  rcases hall with ⟨hverdict, hone, hsame⟩
  rcases hstops with ⟨e, hkind, herror, hleft⟩
  have he : e = .notPhi ⟨2⟩ := hkind.elim (fun h => nomatch h.1) And.right
  have hboth := hone [⟨0⟩, ⟨1⟩] (by decide) (by simp [or_comm])
  have hreordered := hsame [⟨0⟩, ⟨1⟩] {} (by simp [or_comm])
  have hfront := hleft [⟨1⟩] (by decide) (by simp)
  exact ⟨hok, rfl, hverdict, hboth, hreordered.1, hreordered.2, he ▸ herror, hfront⟩

end Runs

end Method

end SsaForm
