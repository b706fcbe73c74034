import Mathlib.Data.List.InsertIdx
import Mathlib.Data.List.Nodup
import Mathlib.Data.List.Perm.Basic
import SsaForm.Proofs.Steps

/-!
# SsaForm.Proofs.Integrity — what holds of an instruction by itself

Some relations inside a method do not involve the variables, and no change of the table can break
them: an instruction has the identity of its position, no two of its arguments are one instance, and
a phi owns its arguments, binds no predecessor twice and carries its markers (`Insn.WellFormed`).

Every mutator keeps them, whatever it is given and wherever it fails. The proofs follow the edits:
one lemma for each step of a node or a phi, `KeepsNode` and `KeepsPhi` statements for the composed
edits, and `Keeps` statements for the mutators.
-/

namespace SsaForm

open Edit

/-! ## Lists whose elements have distinct keys -/

section DistinctKeys

variable {α κ : Type} {key : α → κ} {l : List α} {k : Nat} {x y : α}

theorem nodup_map_eraseIdx (h : (l.map key).Nodup) (k : Nat) : ((l.eraseIdx k).map key).Nodup :=
  h.sublist ((List.eraseIdx_sublist l k).map key)

theorem nodup_map_insertIdx (h : (l.map key).Nodup) (k : Nat) (hx : ∀ z ∈ l, key z ≠ key x) :
    ((l.insertIdx k x).map key).Nodup := by
  by_cases hk : k ≤ l.length
  · rw [((List.perm_insertIdx x l hk).map key).nodup_iff, List.map_cons, List.nodup_cons]
    refine ⟨fun hmem => ?_, h⟩
    rcases List.mem_map.1 hmem with ⟨z, hz, heq⟩
    exact hx z hz heq
  · rw [List.insertIdx_of_length_lt (Nat.lt_of_not_le hk)]
    exact h

/-- An element may be exchanged for one with the same key. -/
theorem map_set_of_key_eq (hx : l[k]? = some x) (hy : key y = key x) :
    (l.set k y).map key = l.map key := by
  rw [List.map_set, hy]
  apply List.ext_getElem?
  intro j
  rw [List.getElem?_set]
  by_cases hj : k = j
  · subst hj
    rw [if_pos rfl, List.getElem?_map, hx, List.length_map,
      if_pos (List.getElem?_eq_some_iff.1 hx).1]
    rfl
  · rw [if_neg hj]

/-- Taking out one position takes out exactly the elements with the key that stood there. -/
theorem mem_eraseIdx_iff_key (h : (l.map key).Nodup) (hx : l[k]? = some x) :
    y ∈ l.eraseIdx k ↔ y ∈ l ∧ key y ≠ key x := by
  -- the key stands at one position only
  have hkey : ∀ j, (l[j]?).map key = some (key x) → j = k := by
    intro j hj
    rw [← List.getElem?_map] at hj
    have hk : (l.map key)[k]? = some (key x) := by rw [List.getElem?_map, hx]; rfl
    have hlt := (List.getElem?_eq_some_iff.1 hj).1
    exact (List.getElem?_inj hlt h).1 (hj.trans hk.symm)
  rw [List.mem_eraseIdx_iff_getElem?]
  constructor
  · rintro ⟨j, hjk, hj⟩
    refine ⟨List.mem_of_getElem? hj, fun heq => hjk (hkey j ?_)⟩
    rw [hj, Option.map_some, heq]
  · rintro ⟨hmem, hne⟩
    rcases List.mem_iff_getElem?.1 hmem with ⟨j, hj⟩
    refine ⟨j, ?_, hj⟩
    rintro rfl
    rw [hx, Option.some.injEq] at hj
    exact hne (hj ▸ rfl)

/-- A key is found where it stands. -/
theorem findIdx?_key_eq_some [DecidableEq κ] (h : (l.map key).Nodup) (hx : l[k]? = some x) :
    l.findIdx? (fun y => key y == key x) = some k := by
  rcases List.getElem?_eq_some_iff.1 hx with ⟨hlt, rfl⟩
  refine List.findIdx?_eq_some_iff_getElem.2 ⟨hlt, beq_self_eq_true _, fun j hj heq => ?_⟩
  have hjlt : j < l.length := Nat.lt_trans hj hlt
  have hsame : l[j] = l[k] :=
    List.inj_on_of_nodup_map h (List.getElem_mem hjlt) (List.getElem_mem hlt) (beq_iff_eq.1 heq)
  exact absurd ((List.Nodup.of_map _ h).getElem_inj_iff.1 hsame) (Nat.ne_of_lt hj)

/-- Exchanging the element at one position is taking it out and putting the other one in. -/
theorem mem_set_iff_mem_eraseIdx (hx : l[k]? = some x) {z : α} :
    y ∈ l.set k z ↔ y ∈ l.eraseIdx k ∨ y = z := by
  have hk := (List.getElem?_eq_some_iff.1 hx).1
  rw [(List.set_perm_cons_eraseIdx hk z).mem_iff, List.mem_cons, or_comm]

end DistinctKeys

/-! ## Well-formed instructions -/

/-- A phi owns its arguments, binds no predecessor twice and carries its markers. -/
structure Phi.WellFormed (p : Phi) : Prop where
  owned : ∀ r ∈ p.args, r.owner = some p.id
  preds_nodup : p.preds.Nodup
  flags : p.attributes.contains .phi = true

/-- The instruction at position `id` says that it is `id`, its arguments are distinct instances, and
it is a well-formed phi if it is a phi. -/
structure Insn.WellFormed (id : InsnId) (i : Insn) : Prop where
  id_eq : i.id = id
  distinct : (i.args.map Operand.id).Nodup
  phi : ∀ p, i = .phi p → p.WellFormed

/-- Every live instruction is well formed. -/
def Method.WellFormed (m : Method) : Prop := ∀ id i, m.insn? id = some i → i.WellFormed id

namespace Insn

@[simp] theorem wellFormed_node {id : InsnId} {n : Node} :
    (Insn.node n).WellFormed id ↔ n.id = id ∧ (n.args.map Operand.id).Nodup :=
  ⟨fun h => ⟨h.id_eq, h.distinct⟩, fun h => ⟨h.1, h.2, fun _ hp => nomatch hp⟩⟩

@[simp] theorem wellFormed_phi {id : InsnId} {p : Phi} :
    (Insn.phi p).WellFormed id ↔ p.id = id ∧ (p.bindings.map (·.arg.id)).Nodup ∧ p.WellFormed := by
  have hids : (Insn.phi p).args.map Operand.id = p.bindings.map (·.arg.id) := by
    simp [args, Phi.args, Operand.id]
  constructor
  · intro h
    exact ⟨h.id_eq, hids ▸ h.distinct, h.phi p rfl⟩
  · rintro ⟨hid, hdistinct, hp⟩
    refine ⟨hid, hids ▸ hdistinct, ?_⟩
    intro q hq
    cases hq
    exact hp

theorem registers_eq_filterMap (i : Insn) : i.registers = i.args.filterMap Operand.register? := by
  cases i with
  | node n => rfl
  | phi p =>
    rw [registers, args, List.filterMap_map]
    exact List.filterMap_some.symm

/-- The registers among the arguments are distinct instances. -/
theorem WellFormed.nodup_registers {id : InsnId} {i : Insn} (h : i.WellFormed id) :
    (i.registers.map (·.id)).Nodup := by
  rw [registers_eq_filterMap]
  refine h.distinct.sublist ?_
  -- by induction on the arguments: a literal is left out, a register keeps its identity
  induction i.args with
  | nil => exact List.Sublist.slnil
  | cons a rest ih =>
    cases a with
    | literal l => exact ih.cons l.id
    | register r => exact ih.cons_cons r.id

end Insn

/-! ## Steps of a node -/

namespace Node

variable {id : InsnId}

/-- Nodes well formed at `id`, beside any table. -/
abbrev FormedAt (id : InsnId) (s : Linked Node) : Prop := (Insn.node s.insn).WellFormed id

theorem formedAt_addArg {a : Operand} {s s' : Linked Node} (h : FormedAt id s)
    (hok : argAdded a s = .ok s') : FormedAt id s' := by
  rcases argAdded_eq_ok.1 hok with ⟨hindex, -, rfl⟩
  rcases Insn.wellFormed_node.1 h with ⟨hid, hdistinct⟩
  refine Insn.wellFormed_node.2 ⟨hid, ?_⟩
  rw [← List.insertIdx_length_self]
  apply nodup_map_insertIdx hdistinct
  intro b hb
  rw [Operand.id_ownedBy]
  exact argIndex_eq_none.1 hindex b hb

theorem formedAt_eraseIdx {s : Linked Node} (h : FormedAt id s) (k : Nat) (t : VarTable) :
    FormedAt id { insn := { s.insn with args := s.insn.args.eraseIdx k }, vars := t } := by
  rcases Insn.wellFormed_node.1 h with ⟨hid, hdistinct⟩
  exact Insn.wellFormed_node.2 ⟨hid, nodup_map_eraseIdx hdistinct k⟩

theorem keeps_formedAt_removeArgAt (k : Nat) : Keeps (FormedAt id) (removeArgAt k) := by
  intro s h
  cases hold : s.insn.args[k]? with
  | none =>
    rw [removeArgAt_of_none hold]
    exact h
  | some old =>
    rcases finalState_removeArgAt hold with ⟨t, heq, -⟩
    rw [heq]
    exact formedAt_eraseIdx h k t

/-- In a well-formed node, an instance is found where it stands. -/
theorem argIndex_of_getElem? {n : Node} (hn : (Insn.node n).WellFormed id) {k : Nat} {b : Operand}
    (hb : n.args[k]? = some b) : n.argIndex b.id = some k :=
  findIdx?_key_eq_some (Insn.wellFormed_node.1 hn).2 hb

/-- What stands at `k` may be exchanged for an operand that is accepted there. -/
theorem formedAt_set {k : Nat} {a b : Operand} {s : Linked Node} (h : FormedAt id s)
    (hrep : replacement k a s = .ok b) (t : VarTable) :
    FormedAt id
      { insn := { s.insn with args := s.insn.args.set k (b.ownedBy s.insn.id) }, vars := t } := by
  rcases Insn.wellFormed_node.1 h with ⟨hid, hdistinct⟩
  refine Insn.wellFormed_node.2 ⟨hid, ?_⟩
  -- the operand stands there already, or nowhere among the arguments
  rcases replacement_eq_ok.1 hrep with ⟨hindex, rfl⟩ | ⟨hindex, -, rfl⟩
  · rcases argIndex_eq_some hindex with ⟨old, hold, hida⟩
    rw [map_set_of_key_eq hold (by simp [hida])]
    exact hdistinct
  · rw [List.map_set, Operand.id_ownedBy]
    refine hdistinct.set fun hmem => ?_
    rcases List.mem_map.1 hmem with ⟨c, hc, heq⟩
    exact argIndex_eq_none.1 hindex c hc heq

theorem keeps_formedAt_setArg (k : Nat) (a : Operand) : Keeps (FormedAt id) (setArg k a) := by
  intro s h
  rcases setArg_cases k a s with ⟨e, heq⟩ | ⟨old, b, t, hold, hrep, -, ⟨e, -, heq⟩ | ⟨-, -, -, heq⟩⟩
  · rw [heq]
    exact h
  · -- the old operand stays where it was, without its owner
    rw [heq]
    rcases Insn.wellFormed_node.1 h with ⟨hid, hdistinct⟩
    refine Insn.wellFormed_node.2 ⟨hid, ?_⟩
    show ((s.insn.args.set k old.detached).map Operand.id).Nodup
    rw [map_set_of_key_eq hold (Operand.id_detached old)]
    exact hdistinct
  · rw [heq]
    exact formedAt_set h hrep _

end Node

/-! ## Steps of a phi -/

namespace Phi

variable {id : InsnId}

/-- Phis well formed at `id`, beside any table. -/
abbrev FormedAt (id : InsnId) (s : Linked Phi) : Prop := (Insn.phi s.insn).WellFormed id

theorem formedAt_insertBinding {k : Nat} {r : Register} {pred : BlockId} {s s' : Linked Phi}
    (h : FormedAt id s) (hok : bindingInserted k r pred s = .ok s') : FormedAt id s' := by
  rcases bindingInserted_eq_ok.1 hok with ⟨hpred, hindex, -, rfl⟩
  rcases Insn.wellFormed_phi.1 h with ⟨hid, hdistinct, howned, hpreds, hflags⟩
  refine Insn.wellFormed_phi.2 ⟨hid, ?_, ?_, ?_, hflags⟩
  · apply nodup_map_insertIdx hdistinct
    intro b hb
    exact argIndex_eq_none.1 hindex b.arg (List.mem_map.2 ⟨b, hb, rfl⟩)
  · intro r' hr'
    rcases List.mem_map.1 hr' with ⟨b, hb, rfl⟩
    rcases List.eq_or_mem_of_mem_insertIdx hb with rfl | hb
    · rfl
    · exact howned b.arg (List.mem_map.2 ⟨b, hb, rfl⟩)
  · apply nodup_map_insertIdx hpreds
    intro b hb heq
    exact hpred (List.mem_map.2 ⟨b, hb, heq⟩)

theorem formedAt_eraseIdx {s : Linked Phi} (h : FormedAt id s) (k : Nat) (t : VarTable) :
    FormedAt id { insn := { s.insn with bindings := s.insn.bindings.eraseIdx k }, vars := t } := by
  rcases Insn.wellFormed_phi.1 h with ⟨hid, hdistinct, howned, hpreds, hflags⟩
  refine Insn.wellFormed_phi.2 ⟨hid, nodup_map_eraseIdx hdistinct k, ?_,
    nodup_map_eraseIdx hpreds k, hflags⟩
  intro r hr
  rcases List.mem_map.1 hr with ⟨b, hb, rfl⟩
  exact howned b.arg (List.mem_map.2 ⟨b, List.mem_of_mem_eraseIdx hb, rfl⟩)

theorem keeps_formedAt_removeArgAt (k : Nat) : Keeps (FormedAt id) (removeArgAt k) := by
  intro s h
  cases hold : s.insn.bindings[k]? with
  | none =>
    rw [removeArgAt_of_none hold]
    exact h
  | some old =>
    rcases finalState_removeArgAt hold with ⟨t, heq, -⟩
    rw [heq]
    exact formedAt_eraseIdx h k t

/-- In a well-formed phi, an instance is found where it stands. -/
theorem argIndex_of_getElem? {p : Phi} (hp : (Insn.phi p).WellFormed id) {k : Nat}
    {b : Binding} (hb : p.bindings[k]? = some b) : p.argIndex b.arg.id = some k := by
  have hfound := findIdx?_key_eq_some (Insn.wellFormed_phi.1 hp).2.1 hb
  exact hfound

end Phi

/-! ## Renaming -/

namespace Insn

theorem wellFormed_attachVar {id : InsnId} {k : Nat} {v : VarId} {s s' : Linked Insn}
    (h : s.insn.WellFormed id) (hok : varAttached k v s = .ok s') : s'.insn.WellFormed id := by
  obtain ⟨i, t⟩ := s
  cases i with
  | node n =>
    rcases varAttached_node_eq_ok.1 hok with ⟨r, t', hr, -, rfl⟩
    rcases wellFormed_node.1 h with ⟨hid, hdistinct⟩
    refine wellFormed_node.2 ⟨hid, ?_⟩
    show ((n.args.set k (.register (r.naming v))).map Operand.id).Nodup
    rw [map_set_of_key_eq hr (by rfl)]
    exact hdistinct
  | phi p =>
    rcases varAttached_phi_eq_ok.1 hok with ⟨b, t', hb, -, rfl⟩
    rcases wellFormed_phi.1 h with ⟨hid, hdistinct, howned, hpreds, hflags⟩
    refine wellFormed_phi.2 ⟨hid, ?_, ?_, ?_, hflags⟩
    · show ((p.bindings.set k { b with arg := b.arg.naming v }).map (·.arg.id)).Nodup
      rw [map_set_of_key_eq hb (by rfl)]
      exact hdistinct
    · intro r hr
      rcases List.mem_map.1 hr with ⟨c, hc, rfl⟩
      rcases List.mem_or_eq_of_mem_set hc with hc | rfl
      · exact howned c.arg (List.mem_map.2 ⟨c, hc, rfl⟩)
      · exact howned b.arg (List.mem_map.2 ⟨b, List.mem_of_getElem? hb, rfl⟩)
    · show ((p.bindings.set k { b with arg := b.arg.naming v }).map (·.pred)).Nodup
      rw [map_set_of_key_eq hb (by rfl)]
      exact hpreds

/-- Neither kind of instruction is well formed on account of its result. -/
theorem wellFormed_assignResult {id : InsnId} {v : VarId} {s s' : Linked Insn}
    (h : s.insn.WellFormed id) (hok : resultAssigned v s = .ok s') : s'.insn.WellFormed id := by
  rcases resultAssigned_eq_ok.1 hok with ⟨-, r, -, -, rfl⟩
  obtain ⟨i, t⟩ := s
  cases i with
  | node n =>
    rcases wellFormed_node.1 h with ⟨hid, hdistinct⟩
    exact wellFormed_node.2 ⟨hid, hdistinct⟩
  | phi p =>
    rcases wellFormed_phi.1 h with ⟨hid, hdistinct, howned, hpreds, hflags⟩
    exact wellFormed_phi.2 ⟨hid, hdistinct, howned, hpreds, hflags⟩

end Insn

/-! ## Methods -/

namespace Method

theorem wellFormed_putInsn {m : Method} {id : InsnId} {i : Insn} {s : Linked Insn}
    (h : m.WellFormed) (hi : m.insn? id = some i) (hs : s.insn.WellFormed id) :
    (m.putInsn id s).WellFormed := by
  intro k j hj
  rw [insn?_putInsn hi] at hj
  by_cases hk : id = k
  · rw [if_pos hk, Option.some.injEq] at hj
    rw [← hj, ← hk]
    exact hs
  · rw [if_neg hk] at hj
    exact h k j hj

theorem keepsNode_wellFormed {α : Type} {id : InsnId} {act : Edit (Linked Node) α}
    (h : Keeps (Node.FormedAt id) act) : KeepsNode WellFormed id act :=
  fun m n hm hn => wellFormed_putInsn hm hn (h ⟨n, m.vars⟩ (hm id _ hn))

theorem keepsPhi_wellFormed {α : Type} {id : InsnId} {act : Edit (Linked Phi) α}
    (h : Keeps (Phi.FormedAt id) act) : KeepsPhi WellFormed id act :=
  fun m p hm hp => wellFormed_putInsn hm hp (h ⟨p, m.vars⟩ (hm id _ hp))

/-- Live instructions are told apart by their identities. -/
theorem WellFormed.pairwise_insns {m : Method} (h : m.WellFormed) :
    m.insns.Pairwise fun i j => i.id ≠ j.id := by
  rw [insns, List.pairwise_filterMap, List.pairwise_iff_getElem]
  intro k l hk hl hkl i hi j hj heq
  have hik := h ⟨k⟩ i (by simpa [insn?, List.getElem?_eq_getElem hk] using hi)
  have hjl := h ⟨l⟩ j (by simpa [insn?, List.getElem?_eq_getElem hl] using hj)
  rw [hik.id_eq, hjl.id_eq, InsnId.mk.injEq] at heq
  exact absurd heq (Nat.ne_of_lt hkl)

theorem wellFormed_grown {m : Method} {i : Insn} (h : m.WellFormed)
    (hi : i.WellFormed ⟨m.slots.length⟩) : (m.grown i).WellFormed := by
  intro k j hj
  rw [insn?_grown] at hj
  by_cases hk : k = ⟨m.slots.length⟩
  · rw [if_pos hk, Option.some.injEq] at hj
    rw [← hj, hk]
    exact hi
  · rw [if_neg hk] at hj
    exact h k j hj

theorem wellFormed_without {m : Method} (h : m.WellFormed) (id : InsnId) :
    (m.without id).WellFormed := by
  intro k j hj
  rw [insn?_without] at hj
  by_cases hk : k = id
  · rw [if_pos hk] at hj
    cases hj
  · rw [if_neg hk] at hj
    exact h k j hj

theorem wellFormed_node_empty (op : Opcode) (id : InsnId) :
    (Insn.node { id := id, opcode := op }).WellFormed id :=
  Insn.wellFormed_node.2 ⟨rfl, List.nodup_nil⟩

theorem wellFormed_ofResult (reg : Nat) (result : OperandId) (id : InsnId) :
    (Insn.phi (Phi.ofResult id reg result)).WellFormed id := by
  have hflags : Attributes.phi.contains .phi = true := by decide
  refine Insn.wellFormed_phi.2 ⟨rfl, List.nodup_nil, ?_, List.nodup_nil, hflags⟩
  intro r hr
  cases hr

/-- Well-formedness does not look at the table. -/
theorem wellFormed_keptBySteps : KeptBySteps WellFormed where
  newVar _ _ _ hm := hm
  newNode op _ hm := wellFormed_grown hm (wellFormed_node_empty op _)
  newPhi reg result _ hm := wellFormed_grown hm (wellFormed_ofResult reg result _)
  addArg _ a := keepsNode_wellFormed (keeps_atomically fun _ _ hs hok =>
    Node.formedAt_addArg hs hok)
  removeArg _ k := keepsNode_wellFormed (Node.keeps_formedAt_removeArgAt k)
  insertBinding id m p k r pred hm hp _ :=
    keepsPhi_wellFormed (keeps_atomically fun _ _ hs hok =>
      Phi.formedAt_insertBinding hs hok) m p hm hp
  removeBinding _ k := keepsPhi_wellFormed (Phi.keeps_formedAt_removeArgAt k)
  attachVar id k v := by
    apply keeps_editInsn
    intro m i hm hi
    have hkeep : Keeps (fun s : Linked Insn => s.insn.WellFormed id)
        (atomically (Insn.varAttached k v)) :=
      keeps_atomically fun _ _ hs hok => Insn.wellFormed_attachVar hs hok
    exact wellFormed_putInsn hm hi (hkeep ⟨i, m.vars⟩ (hm id i hi))
  takePhi id m p hm hp _ := by
    rcases finalState_takePhi hp with ⟨t, heq, -⟩
    rw [heq]
    exact wellFormed_without hm id

theorem keeps_wellFormed_setArg (id : InsnId) (k : Nat) (a : Operand) :
    Keeps WellFormed (setArg id k a) := by
  apply keeps_verified
  apply keeps_editInsn_edit
  · exact keepsNode_wellFormed (Node.keeps_formedAt_setArg k a)
  · exact keepsPhi_ask _

theorem keeps_wellFormed_replaceArg (id : InsnId) (old new : Operand) :
    Keeps WellFormed (replaceArg id old new) := by
  have hnode : KeepsNode WellFormed id (Node.replaceArg old.id new) :=
    keepsNode_wellFormed (Node.keeps_replaceArg old.id new fun k =>
      Node.keeps_formedAt_setArg k new)
  exact fun m hm => wellFormed_keptBySteps.replaceArg_cases hm fun n hn => hnode m n hm hn

theorem keeps_wellFormed_setResult (id : InsnId) (r : Register) :
    Keeps WellFormed (setResult id r) := by
  rw [setResult, Insn.setResult, Node.setResult_eq]
  refine keeps_verified (keeps_editInsn_edit (keepsNode_wellFormed (keeps_atomically ?_))
    (keepsPhi_ask _))
  intro s s' hs hok
  rcases Node.resultSet_eq_ok.1 hok with ⟨-, -, rfl⟩
  rcases Insn.wellFormed_node.1 hs with ⟨hid, hdistinct⟩
  exact Insn.wellFormed_node.2 ⟨hid, hdistinct⟩

theorem keeps_wellFormed_assignResult (id : InsnId) (v : VarId) :
    Keeps WellFormed (assignResult id v) := by
  rw [assignResult, Insn.assignResult_eq]
  apply keeps_verified
  apply keeps_editInsn
  intro m i hm hi
  have hkeep : Keeps (fun s : Linked Insn => s.insn.WellFormed id)
      (atomically (Insn.resultAssigned v)) :=
    keeps_atomically fun _ _ hs hok => Insn.wellFormed_assignResult hs hok
  exact wellFormed_putInsn hm hi (hkeep ⟨i, m.vars⟩ (hm id i hi))

end Method

end SsaForm
