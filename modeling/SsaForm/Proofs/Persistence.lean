import SsaForm.Proofs.Events

/-!
# SsaForm.Proofs.Persistence — what stays as it was created

An identity that a method has given out stands for one instruction for good. `Method.Later m m'`
compares two moments in the life of a method: a node is still there, with its identity and opcode; a
phi is still there as well, or it is gone; and what was gone stays gone. Of the result of a phi only
the variable changes, and that once, when there was none (`Register.Lasts`).

* `later_through`: any events lead to a later moment, calls that fail halfway and changes of the
  table past the instructions included. `keptBySteps_later` is the part of the mutators.
* `removes_of_gone`: an instruction goes in a removal that names it.
* `identities_last` puts them together for a method from its creation on, with `created`, the
  identities that it gave out and what they stood for then.
-/

namespace SsaForm

open Edit

/-! ## Instructions at two moments -/

/-- The result of a phi at two moments: it is the same instance of the same register, and it may
have been given a variable in between, once. -/
structure Register.Lasts (r r' : Register) : Prop where
  id : r'.id = r.id
  reg : r'.reg = r.reg
  type : r'.type = r.type
  owner : r'.owner = r.owner
  var : r.var = none ∨ r'.var = r.var

/-- An instruction at two moments: it is of the same kind, with the same identity and opcode. -/
inductive Insn.Lasts : Insn → Insn → Prop
  | node {n n' : Node} (id : n'.id = n.id) (opcode : n'.opcode = n.opcode) :
      Insn.Lasts (.node n) (.node n')
  | phi {p p' : Phi} (id : p'.id = p.id) (result : p.result.Lasts p'.result) :
      Insn.Lasts (.phi p) (.phi p')

theorem Register.Lasts.refl (r : Register) : r.Lasts r := ⟨rfl, rfl, rfl, rfl, Or.inr rfl⟩

theorem Register.Lasts.trans {r r' r'' : Register} (h : r.Lasts r') (h' : r'.Lasts r'') :
    r.Lasts r'' := by
  refine ⟨h'.id.trans h.id, h'.reg.trans h.reg, h'.type.trans h.type, h'.owner.trans h.owner, ?_⟩
  rcases h.var with hnone | hsame
  · exact Or.inl hnone
  · rcases h'.var with hnone | hsame'
    · exact Or.inl (hsame ▸ hnone)
    · exact Or.inr (hsame'.trans hsame)

namespace Insn

theorem Lasts.refl : ∀ i : Insn, i.Lasts i
  | .node _ => .node rfl rfl
  | .phi p => .phi rfl (Register.Lasts.refl p.result)

theorem Lasts.trans {i i' i'' : Insn} (h : i.Lasts i') (h' : i'.Lasts i'') : i.Lasts i'' := by
  cases h with
  | node hid hop =>
    cases h' with
    | node hid' hop' => exact .node (hid'.trans hid) (hop'.trans hop)
  | phi hid hresult =>
    cases h' with
    | phi hid' hresult' => exact .phi (hid'.trans hid) (hresult.trans hresult')

theorem Lasts.isNode {i i' : Insn} (h : i.Lasts i') : i'.isNode = i.isNode := by
  cases h <;> rfl

/-- Changing the arguments of a node leaves the rest. -/
theorem lasts_args (n : Node) (args : List Operand) :
    (Insn.node n).Lasts (.node { n with args := args }) :=
  .node rfl rfl

theorem lasts_bindings (p : Phi) (bindings : List Binding) :
    (Insn.phi p).Lasts (.phi { p with bindings := bindings }) :=
  .phi rfl (Register.Lasts.refl _)

end Insn

namespace Method

/-! ## Methods at two moments -/

/-- The later of two moments in the life of a method. -/
structure Later (m m' : Method) : Prop where
  length : m.slots.length ≤ m'.slots.length
  /-- A node stays. -/
  node : ∀ id i, m.insn? id = some i → i.isNode = true → ∃ i', m'.insn? id = some i' ∧ i.Lasts i'
  /-- What is still there is what it was, and what was gone is gone. -/
  lasts : ∀ id i', id.index < m.slots.length → m'.insn? id = some i' →
    ∃ i, m.insn? id = some i ∧ i.Lasts i'

theorem Later.refl (m : Method) : m.Later m :=
  ⟨Nat.le_refl _, fun _ i hi _ => ⟨i, hi, .refl i⟩, fun _ i' _ hi' => ⟨i', hi', .refl i'⟩⟩

theorem Later.trans {m m' m'' : Method} (h : m.Later m') (h' : m'.Later m'') : m.Later m'' := by
  refine ⟨Nat.le_trans h.length h'.length, fun id i hi hnode => ?_, fun id i'' hid hi'' => ?_⟩
  · rcases h.node id i hi hnode with ⟨i', hi', hlasts⟩
    rcases h'.node id i' hi' (hlasts.isNode.trans hnode) with ⟨i'', hi'', hlasts'⟩
    exact ⟨i'', hi'', hlasts.trans hlasts'⟩
  · rcases h'.lasts id i'' (Nat.lt_of_lt_of_le hid h.length) hi'' with ⟨i', hi', hlasts'⟩
    rcases h.lasts id i' hid hi' with ⟨i, hi, hlasts⟩
    exact ⟨i, hi, hlasts.trans hlasts'⟩

variable {m m₀ : Method} {id : InsnId} {i : Insn}

theorem index_lt_of_insn? (h : m.insn? id = some i) : id.index < m.slots.length := by
  rw [insn?, Option.join_eq_some_iff] at h
  exact (List.getElem?_eq_some_iff.1 h).1

/-- The same instructions are a later moment, whatever became of the table. -/
theorem later_of_slots {m' : Method} (h : m'.slots = m.slots) : m.Later m' := by
  have hsame : ∀ id, m'.insn? id = m.insn? id := fun id => by rw [insn?, insn?, h]
  refine ⟨Nat.le_of_eq (by rw [h]), fun id i hi _ => ⟨i, (hsame id).trans hi, .refl i⟩, ?_⟩
  intro id i' _ hi'
  exact ⟨i', (hsame id).symm.trans hi', .refl i'⟩

theorem later_grown (m : Method) (i : Insn) : m.Later (m.grown i) := by
  have hsame : ∀ id : InsnId, id.index < m.slots.length → (m.grown i).insn? id = m.insn? id := by
    intro id hid
    rw [insn?_grown, if_neg]
    rintro rfl
    exact Nat.lt_irrefl _ hid
  refine ⟨?_, fun id i hi _ => ⟨i, ?_, .refl i⟩, fun id i' hid hi' => ⟨i', ?_, .refl i'⟩⟩
  · rw [grown, List.length_append]
    exact Nat.le_add_right _ _
  · rw [hsame id (index_lt_of_insn? hi), hi]
  · rw [← hsame id hid, hi']

theorem later_putInsn (hi : m.insn? id = some i) {s : Linked Insn} (h : i.Lasts s.insn) :
    m.Later (m.putInsn id s) := by
  refine ⟨?_, fun k j hj _ => ?_, fun k j' _ hj' => ?_⟩
  · exact Nat.le_of_eq List.length_set.symm
  · rw [insn?_putInsn hi]
    by_cases hk : id = k
    · subst hk
      rw [hi, Option.some.injEq] at hj
      subst hj
      exact ⟨s.insn, if_pos rfl, h⟩
    · exact ⟨j, (if_neg hk).trans hj, .refl j⟩
  · rw [insn?_putInsn hi] at hj'
    by_cases hk : id = k
    · subst hk
      rw [if_pos rfl, Option.some.injEq] at hj'
      exact ⟨i, hi, hj' ▸ h⟩
    · rw [if_neg hk] at hj'
      exact ⟨j', hj', .refl j'⟩

theorem later_without {p : Phi} (hp : m.insn? id = some (.phi p)) : m.Later (m.without id) := by
  refine ⟨?_, fun k j hj hnode => ⟨j, ?_, .refl j⟩, fun k j' _ hj' => ⟨j', ?_, .refl j'⟩⟩
  · exact Nat.le_of_eq List.length_set.symm
  · rw [insn?_without, if_neg, hj]
    rintro rfl
    rw [hp, Option.some.injEq] at hj
    subst hj
    cases hnode
  · rw [insn?_without] at hj'
    by_cases hk : k = id
    · rw [if_pos hk] at hj'
      cases hj'
    · rwa [if_neg hk] at hj'

/-! ## Mutators -/

theorem keptBySteps_later (m₀ : Method) : KeptBySteps (Later m₀) where
  newVar _ _ _ hm := hm.trans (later_of_slots rfl)
  newNode _ _ hm := hm.trans (later_grown _ _)
  newPhi _ _ _ hm := hm.trans (later_grown _ _)
  addArg id a m n hm hn := by
    refine putNode_atomically hm hn fun s hs => hm.trans (later_putInsn hn ?_)
    rcases Node.argAdded_eq_ok.1 hs with ⟨-, -, rfl⟩
    exact Insn.lasts_args n _
  removeArg id k m n hm hn := by
    refine hm.trans (later_putInsn hn ?_)
    cases hold : n.args[k]? with
    | none =>
      rw [Node.removeArgAt_of_none hold]
      exact .refl _
    | some old =>
      rcases Node.finalState_removeArgAt (s := ⟨n, m.vars⟩) hold with ⟨t, heq, -⟩
      rw [heq]
      exact Insn.lasts_args n _
  insertBinding id m p k r pred hm hp _ := by
    refine putPhi_atomically hm hp fun s hs => hm.trans (later_putInsn hp ?_)
    rcases Phi.bindingInserted_eq_ok.1 hs with ⟨-, -, -, rfl⟩
    exact Insn.lasts_bindings p _
  removeBinding id k m p hm hp := by
    refine hm.trans (later_putInsn hp ?_)
    cases hold : p.bindings[k]? with
    | none =>
      rw [Phi.removeArgAt_of_none hold]
      exact .refl _
    | some old =>
      rcases Phi.finalState_removeArgAt (s := ⟨p, m.vars⟩) hold with ⟨t, heq, -⟩
      rw [heq]
      exact Insn.lasts_bindings p _
  attachVar id k v := by
    refine keeps_editInsn fun m i hm hi => putInsn_atomically hm hi fun s hs => ?_
    refine hm.trans (later_putInsn hi ?_)
    cases i with
    | node n =>
      rcases Insn.varAttached_node_eq_ok.1 hs with ⟨r, t, -, -, rfl⟩
      exact Insn.lasts_args n _
    | phi p =>
      rcases Insn.varAttached_phi_eq_ok.1 hs with ⟨b, t, -, -, rfl⟩
      exact Insn.lasts_bindings p _
  takePhi id m p hm hp _ := by
    rcases finalState_takePhi hp with ⟨t, heq, -⟩
    rw [heq]
    exact hm.trans ((later_without hp).trans (later_of_slots rfl))

theorem keepsNode_later_setArg (id : InsnId) (k : Nat) (a : Operand) :
    KeepsNode (Later m₀) id (Node.setArg k a) := by
  intro m n hm hn
  refine hm.trans (later_putInsn hn ?_)
  rcases Node.setArg_cases k a ⟨n, m.vars⟩ with
    ⟨e, heq⟩ | ⟨old, b, t, -, -, -, ⟨e, -, heq⟩ | ⟨-, -, -, heq⟩⟩
  · rw [heq]
    exact .refl _
  · rw [heq]
    exact Insn.lasts_args n _
  · rw [heq]
    exact Insn.lasts_args n _

/-- A node may be given another result; the result of a phi takes a variable if it has none. -/
theorem lasts_assignResult {v : VarId} {i : Insn} {t : VarTable} {s : Linked Insn}
    (h : Insn.resultAssigned v ⟨i, t⟩ = .ok s) : i.Lasts s.insn := by
  rcases Insn.resultAssigned_eq_ok.1 h with ⟨-, r, hr, hvar, rfl⟩
  cases i with
  | node n => exact .node rfl rfl
  | phi p =>
    cases hr
    exact .phi rfl ⟨rfl, rfl, rfl, rfl, Or.inl hvar⟩

/-- A call leads to a later moment, whatever it is given and however it ends. -/
theorem later_next (m : Method) (c : Call) : m.Later (c.next m) := by
  refine (keptBySteps_later m).keeps_next (Later.refl m) ?_ ?_ ?_ ?_ ?_
  · intro checks _
    exact later_of_slots rfl
  · intro id k a _
    exact keeps_verified (keeps_editInsn_edit (keepsNode_later_setArg id k a) (keepsPhi_ask _)) m
      (Later.refl m)
  · intro id old new _
    refine (keptBySteps_later m).replaceArg_cases (Later.refl m) fun n hn => ?_
    have hreplace : KeepsNode (Later m) id (Node.replaceArg old.id new) :=
      keepsNode_iff.2 fun m' i hi => Node.keeps_replaceArg old.id new fun k =>
        keepsNode_iff.1 (keepsNode_later_setArg id k new) m' i hi
    exact hreplace m n (Later.refl m) hn
  · intro id r _
    rw [setResult, Insn.setResult, Node.setResult_eq]
    refine keeps_verified (keeps_editInsn_edit ?_ (keepsPhi_ask _)) m (Later.refl m)
    intro m' n hm hn
    refine putNode_atomically hm hn fun s hs => hm.trans (later_putInsn hn ?_)
    rcases Node.resultSet_eq_ok.1 hs with ⟨-, -, rfl⟩
    exact .node rfl rfl
  · intro id v _
    rw [assignResult, Insn.assignResult_eq]
    refine keeps_verified (keeps_editInsn fun m' i hm hi => ?_) m (Later.refl m)
    exact putInsn_atomically hm hi fun s hs => hm.trans (later_putInsn hi (lasts_assignResult hs))

theorem later_next_event (m : Method) (e : Event) : m.Later (e.next m) := by
  cases e with
  | call c => exact later_next m c
  | edit e =>
    rw [Event.next_edit]
    exact later_of_slots rfl
  | swap t => exact later_of_slots rfl
  | newPhiArg phi id var => exact Later.refl m
  | check c => exact Later.refl m

/-- Whatever is done to a method leads to a later moment. -/
theorem later_through (m : Method) (events : List Event) : m.Later (m.through events) :=
  invariant_through (P := Later m) (G := fun _ => True)
    (fun _ e hm _ => hm.trans (later_next_event _ e)) (Later.refl m) fun _ _ => trivial

end Method

/-! ## Events that create, and events that remove -/

namespace Event

/-- What the event creates: the instruction that it makes of the next identity. -/
def builds? : Event → Option (InsnId → Insn)
  | call { mutation := .newNode op, .. } => some fun id => .node { id := id, opcode := op }
  | call { mutation := .newPhi reg, supply } => some fun id => .phi (.ofResult id reg supply.draw.1)
  | _ => none

/-- The event is a removal that names the instruction. -/
def Removes (e : Event) (id : InsnId) : Prop :=
  ∃ s, e = call ⟨.removePhi id, s⟩ ∨ ∃ ids, id ∈ ids ∧ e = call ⟨.removePhis ids, s⟩

/-- The identity that the event gives out, with what it stands for then. -/
def creation? (m : Method) (e : Event) : Option (InsnId × Insn) :=
  match e.builds?, e.verdict m with
  | some build, .ok (.insn id) => some (id, build id)
  | _, _ => none

/-- Creating succeeds, gives out the next identity and appends the instruction. -/
theorem create {e : Event} {build : InsnId → Insn} (h : e.builds? = some build) (m : Method) :
    e.verdict m = .ok (.insn ⟨m.slots.length⟩) ∧ e.next m = m.grown (build ⟨m.slots.length⟩) := by
  unfold builds? at h
  split at h
  · cases h
    exact ⟨rfl, rfl⟩
  · cases h
    exact ⟨rfl, rfl⟩
  · cases h

theorem creation?_of_builds {e : Event} {build : InsnId → Insn} (h : e.builds? = some build)
    (m : Method) : e.creation? m = some (⟨m.slots.length⟩, build ⟨m.slots.length⟩) := by
  unfold creation?
  rw [h, (create h m).1]

theorem creation?_of_none {e : Event} (h : e.builds? = none) (m : Method) :
    e.creation? m = none := by
  unfold creation?
  rw [h]

/-- An instruction is created as a node without arguments or as an empty phi. -/
theorem eq_of_builds {e : Event} {build : InsnId → Insn} (h : e.builds? = some build)
    (id : InsnId) :
    (∃ op, build id = .node { id := id, opcode := op }) ∨
      ∃ reg a, build id = .phi (.ofResult id reg a) := by
  unfold builds? at h
  split at h
  · cases h
    exact Or.inl ⟨_, rfl⟩
  · cases h
    exact Or.inr ⟨_, _, rfl⟩
  · cases h

end Event

namespace Method

variable {m : Method} {id : InsnId} {e : Event}

section Slots

variable {P : List (Option Insn) → Prop} (hput : ∀ l k i, P l → P (l.set k (some i)))

include hput

theorem keeps_slots_editInsn {α : Type} (id : InsnId) (act : Edit (Linked Insn) α) :
    Keeps (fun m => P m.slots) (verified (editInsn id act)) :=
  keeps_verified (keeps_editInsn fun _ _ hm _ => hput _ _ _ hm)

theorem keeps_slots_removePhi (hremove : ∀ l, P l → P (l.set id.index none)) :
    Keeps (fun m => P m.slots) (removePhi id) := by
  refine keeps_bind (keeps_ask _) fun p => keeps_bind (keeps_slots_editInsn hput id _) fun u => ?_
  intro m hm
  cases hp : m.phi id with
  | error e =>
    simp only [takePhi, hp]
    exact hm
  | ok p =>
    rcases finalState_takePhi (phi_eq_ok.1 hp) with ⟨t, heq, -⟩
    rw [heq]
    exact hremove _ hm

/-- An event that creates nothing puts instructions back where they stood, and takes out those whose
removal it is. -/
theorem slots_next (hremove : ∀ id l, e.Removes id → P l → P (l.set id.index none))
    (he : e.builds? = none) (hm : P m.slots) : P (e.next m).slots := by
  cases e with
  | edit e =>
    rw [Event.next_edit]
    exact hm
  | swap t => exact hm
  | newPhiArg phi id var => exact hm
  | check c => exact hm
  | call c =>
    obtain ⟨mutation, supply⟩ := c
    change P (Call.next ⟨mutation, supply⟩ m).slots
    cases hc : mutation.edited? with
    | some k =>
      rcases Call.edit_of_edited? (c := ⟨mutation, supply⟩) hc with ⟨α, f, act, hedit⟩
      rw [Call.next_eq, hedit, finalState_map]
      exact keeps_slots_editInsn hput k act m hm
    | none =>
      rw [Call.next_eq, Call.edit]
      cases mutation with
      | newVar reg version => exact hm
      | newNode op => cases he
      | newPhi reg => cases he
      | setChecks k => exact hm
      | removePhi phi =>
        have hphi : Keeps (fun m => P m.slots) (removePhi phi) :=
          keeps_slots_removePhi hput fun l => hremove phi l ⟨supply, Or.inl rfl⟩
        exact keeps_map hphi m hm
      | removePhis ids =>
        have hphis : Keeps (fun m => P m.slots) (removePhis ids) := by
          refine keeps_bind (keeps_mapM_mem _ fun phi hphi => ?_) fun l => keeps_pure l.length
          refine keeps_slots_removePhi hput fun l => hremove phi l ⟨supply, Or.inr ⟨ids, ?_, rfl⟩⟩
          exact List.mem_eraseDups.1 hphi
        exact keeps_map hphis m hm
      | _ => cases hc

end Slots

/-- An event that creates nothing makes no new identity. -/
theorem length_next (he : e.builds? = none) : (e.next m).slots.length = m.slots.length := by
  refine slots_next (P := fun l => l.length = m.slots.length) ?_ ?_ he rfl
  · intro l k i hl
    rw [List.length_set, hl]
  · intro k l _ hl
    rw [List.length_set, hl]

/-- An instruction goes in a removal that names it. -/
theorem removes_of_gone {i : Insn} (hi : m.insn? id = some i) (hgone : (e.next m).insn? id = none) :
    e.Removes id := by
  by_contra hremoves
  have hlive : (e.next m).slots[id.index]?.join ≠ none := by
    cases he : e.builds? with
    | some build =>
      have hne : id ≠ ⟨m.slots.length⟩ := by
        rintro rfl
        exact Nat.lt_irrefl _ (index_lt_of_insn? hi)
      have hgrown := insn?_grown m (build ⟨m.slots.length⟩) id
      rw [if_neg hne, hi, ← (Event.create he m).2] at hgrown
      exact fun h => nomatch hgrown.symm.trans h
    | none =>
      refine slots_next (P := fun l => l[id.index]?.join ≠ none) ?_ ?_ he ?_
      · intro l k i' hl
        rw [List.getElem?_set]
        split
        · split
          · exact fun h => nomatch h
          · rename_i hlt
            rw [← ‹k = id.index›] at hl
            rw [List.getElem?_eq_none (Nat.le_of_not_lt hlt)] at hl
            exact absurd rfl hl
        · exact hl
      · intro k l hk hl
        rw [List.getElem?_set_ne]
        · exact hl
        · intro hkid
          apply hremoves
          obtain ⟨k⟩ := k
          obtain ⟨n⟩ := id
          cases hkid
          exact hk
      · exact fun h => nomatch hi.symm.trans h
  exact hlive hgone

/-! ## Whole runs -/

/-- What is there after an event was there before, or the event created it. -/
theorem insn?_next_event {i' : Insn} (h : (e.next m).insn? id = some i') :
    (∃ i, m.insn? id = some i ∧ i.Lasts i') ∨ e.creation? m = some (id, i') := by
  cases he : e.builds? with
  | none =>
    have hid := index_lt_of_insn? h
    rw [length_next he] at hid
    exact Or.inl ((later_next_event m e).lasts id i' hid h)
  | some build =>
    rw [(Event.create he m).2, insn?_grown] at h
    by_cases hid : id = ⟨m.slots.length⟩
    · rw [if_pos hid, Option.some.injEq] at h
      rw [Event.creation?_of_builds he, hid, h]
      exact Or.inr rfl
    · rw [if_neg hid] at h
      exact Or.inl ⟨i', h, .refl i'⟩

/-- The identities that a method gives out along events, each with what it stands for then. -/
def created : Method → List Event → List (InsnId × Insn)
  | _, [] => []
  | m, e :: rest => (e.creation? m).toList ++ created (e.next m) rest

variable {events : List Event} {i : Insn}

theorem through_append (m : Method) (front back : List Event) :
    m.through (front ++ back) = (m.through front).through back :=
  List.foldl_append

theorem created_append (m : Method) (front back : List Event) :
    m.created (front ++ back) = m.created front ++ (m.through front).created back := by
  induction front generalizing m with
  | nil => rfl
  | cons e rest ih =>
    rw [List.cons_append, created, ih, created, List.append_assoc]
    rfl

/-- What is there after events was there before them, or was created along them. -/
theorem created_of_through {i' : Insn} (h : (m.through events).insn? id = some i') :
    ∃ i, (m.insn? id = some i ∨ (id, i) ∈ m.created events) ∧ i.Lasts i' := by
  induction events generalizing m with
  | nil => exact ⟨i', Or.inl h, .refl i'⟩
  | cons e rest ih =>
    rcases ih (m := e.next m) h with ⟨i, hi | hi, hlasts⟩
    · rcases insn?_next_event hi with ⟨i₀, hi₀, hlasts₀⟩ | hcreation
      · exact ⟨i₀, Or.inl hi₀, hlasts₀.trans hlasts⟩
      · refine ⟨i, Or.inr (List.mem_append_left _ ?_), hlasts⟩
        rw [hcreation]
        exact List.mem_singleton_self _
    · exact ⟨i, Or.inr (List.mem_append_right _ hi), hlasts⟩

theorem mem_creation? (h : (id, i) ∈ (e.creation? m).toList) :
    id = ⟨m.slots.length⟩ ∧ (e.next m).insn? id = some i ∧
      ((∃ op, i = .node { id := id, opcode := op }) ∨ ∃ reg a, i = .phi (.ofResult id reg a)) := by
  cases he : e.builds? with
  | none =>
    rw [Event.creation?_of_none he] at h
    cases h
  | some build =>
    rw [Event.creation?_of_builds he] at h
    cases List.mem_singleton.1 h
    refine ⟨rfl, ?_, Event.eq_of_builds he _⟩
    rw [(Event.create he m).2, insn?_grown, if_pos rfl]

/-- What was created along events was new when it was created, as a node without arguments or an
empty phi, and what is left of it has lasted. -/
theorem of_mem_created (h : (id, i) ∈ m.created events) :
    m.slots.length ≤ id.index ∧
      ((∃ op, i = .node { id := id, opcode := op }) ∨ ∃ reg a, i = .phi (.ofResult id reg a)) ∧
      ∃ m' : Method, m'.insn? id = some i ∧ m'.Later (m.through events) := by
  induction events generalizing m with
  | nil => cases h
  | cons e rest ih =>
    rcases List.mem_append.1 h with hnow | hlater
    · rcases mem_creation? hnow with ⟨rfl, hi, hkind⟩
      exact ⟨Nat.le_refl _, hkind, e.next m, hi, later_through _ rest⟩
    · rcases ih hlater with ⟨hid, hkind, hm'⟩
      exact ⟨Nat.le_trans (later_next_event m e).length hid, hkind, hm'⟩

theorem nodup_created (m : Method) (events : List Event) :
    ((m.created events).map (·.1)).Nodup := by
  induction events generalizing m with
  | nil => exact List.nodup_nil
  | cons e rest ih =>
    cases he : e.builds? with
    | none =>
      rw [created, Event.creation?_of_none he]
      exact ih (e.next m)
    | some build =>
      rw [created, Event.creation?_of_builds he]
      refine List.nodup_cons.2 ⟨fun hmem => ?_, ih (e.next m)⟩
      -- what comes after has a position behind the new instruction
      rcases List.mem_map.1 hmem with ⟨⟨id, i⟩, hi, hid⟩
      have hlt := (of_mem_created hi).1
      rw [(Event.create he m).2, grown, List.length_append,
        show id = ⟨m.slots.length⟩ from hid] at hlt
      exact absurd hlt (Nat.not_succ_le_self _)

/-- **Identities last.** Along any events, calls that fail and changes of the table included:

* the identities given out are distinct, and a call that creates an instruction always succeeds;
* a live identity stands for an instruction that names itself by it and is of the kind, with the
  opcode, as which it was created; a phi's result is the instance created with it, of unknown type
  and owned by it;
* a node is never removed; an instruction goes in a removal that names it, and does not come back;
* between any two moments an instruction lasts, so that the variable of a phi's result changes once
  at most, when there was none. -/
theorem identities_last (checks : Checks) (events : List Event) :
    let start : Method := { checks := checks }
    ((start.created events).map (·.1)).Nodup ∧
    (∀ id i, (start.through events).insn? id = some i →
      i.id = id ∧ (∃ i₀, (id, i₀) ∈ start.created events ∧ i₀.Lasts i) ∧
      ∀ p, i = .phi p → p.result.type = .unknown ∧ p.result.owner = some id) ∧
    (∀ id n, (id, .node n) ∈ start.created events → ∃ i, (start.through events).insn? id = some i) ∧
    ∀ front e back, front ++ e :: back = events →
      (∀ build, e.builds? = some build → ∃ id, e.verdict (start.through front) = .ok (.insn id) ∧
        (id, build id) ∈ start.created events) ∧
      (∀ id i i', (start.through front).insn? id = some i →
        (start.through events).insn? id = some i' → i.Lasts i') ∧
      ∀ id, (start.through front).insn? id ≠ none → (e.next (start.through front)).insn? id = none →
        e.Removes id ∧ (start.through events).insn? id = none := by
  intro start
  refine ⟨nodup_created start events, fun id i hi => ?_, fun id n hn => ?_, ?_⟩
  · rcases created_of_through hi with ⟨i₀, hstart | hi₀, hlasts⟩
    · cases hstart
    · refine ⟨(wellFormed_through (wellFormed_empty checks) events id i hi).id_eq,
        ⟨i₀, hi₀, hlasts⟩, ?_⟩
      rintro p rfl
      rcases (of_mem_created hi₀).2.1 with ⟨op, rfl⟩ | ⟨reg, a, rfl⟩
      · cases hlasts
      · cases hlasts with
        | phi _ hresult => exact ⟨hresult.type, hresult.owner⟩
  · rcases (of_mem_created hn).2.2 with ⟨m', hm', hlater⟩
    rcases hlater.node id _ hm' rfl with ⟨i, hi, -⟩
    exact ⟨i, hi⟩
  · rintro front e back rfl
    rw [through_append]
    have hlater := later_through (start.through front) (e :: back)
    refine ⟨fun build hbuild => ?_, fun id i i' hi hi' => ?_, fun id hlive hgone => ?_⟩
    · refine ⟨_, (Event.create hbuild _).1, ?_⟩
      rw [created_append, created, Event.creation?_of_builds hbuild]
      exact List.mem_append_right _ (List.mem_cons_self ..)
    · rcases hlater.lasts id i' (index_lt_of_insn? hi) hi' with ⟨i₀, hi₀, hlasts⟩
      rw [hi, Option.some.injEq] at hi₀
      exact hi₀ ▸ hlasts
    · rcases Option.ne_none_iff_exists'.1 hlive with ⟨i, hi⟩
      refine ⟨removes_of_gone hi hgone, ?_⟩
      -- what is gone after the event is so at every later moment
      have hrest := later_through (e.next (start.through front)) back
      cases hback : ((start.through front).through (e :: back)).insn? id with
      | none => rfl
      | some i' =>
        have hid := Nat.lt_of_lt_of_le (index_lt_of_insn? hi)
          (later_next_event (start.through front) e).length
        rcases hrest.lasts id i' hid hback with ⟨i₀, hi₀, -⟩
        rw [hgone] at hi₀
        cases hi₀

end Method

end SsaForm
