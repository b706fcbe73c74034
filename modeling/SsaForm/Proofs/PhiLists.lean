import SsaForm.Proofs.Places
import SsaForm.Proofs.Transparency

/-!
# SsaForm.Proofs.PhiLists — phis are lists

To a caller a phi is a list: for each argument the variable that it reads and the block from which
it arrives. `PhiLists` has one list for each instruction, and a `ListChange` appends, deletes or
renames an entry. `Makes m c o` says that the call `c` makes the change `o`: it binds, replaces or
renames in range and brings no argument but a fresh one, or it builds the rest of the method.

On a method that checks itself strictly the calls do to the phis what the changes do to the lists
(`phiLists_after`): the only failure is the second value from one predecessor, a variable is used in
a phi exactly if it stands in a list, and an argument that is bound is not bound a second time.
-/

namespace SsaForm

open Edit

/-! ## The lists -/

/-- For each phi, what it reads and where that arrives from. -/
abbrev PhiLists := InsnId → List (Option VarId × BlockId)

/-- A change of the lists. -/
inductive ListChange where
  | keep
  | append (phi : InsnId) (var : Option VarId) (pred : BlockId)
  | delete (phi : InsnId) (index : Nat)
  | rename (phi : InsnId) (index : Nat) (var : VarId)

namespace ListChange

/-- The fault of a change that is refused: the predecessor is in the list already. -/
def refusal (l : PhiLists) : ListChange → Option Fault
  | append phi _ pred =>
    if pred ∈ (l phi).map Prod.snd then some (.duplicatePredecessor pred phi) else none
  | _ => none

/-- The lists after a change. A refused change leaves them as they are. -/
def apply (l : PhiLists) : ListChange → PhiLists
  | keep => l
  | append phi var pred =>
    if pred ∈ (l phi).map Prod.snd then l else Function.update l phi (l phi ++ [(var, pred)])
  | delete phi index => Function.update l phi ((l phi).eraseIdx index)
  | rename phi index var => Function.update l phi ((l phi).modify index fun e => (some var, e.2))

/-- The lists after changes, when all of them were empty before. -/
def run (changes : List ListChange) : PhiLists := changes.foldl apply fun _ => []

end ListChange

/-- What a phi reads and where that arrives from. -/
def Phi.entries (p : Phi) : List (Option VarId × BlockId) :=
  p.bindings.map fun b => (b.arg.var, b.pred)

theorem Phi.map_snd_entries (p : Phi) : p.entries.map Prod.snd = p.preds := by
  simp [entries, preds]

namespace Method

variable {m : Method} {id : InsnId} {p : Phi}

/-- The lists of a method's phis. -/
def phiLists (m : Method) : PhiLists := fun id =>
  match m.insn? id with
  | some (.phi p) => p.entries
  | _ => []

theorem phiLists_of_insn? (hp : m.insn? id = some (.phi p)) : m.phiLists id = p.entries := by
  simp only [phiLists, hp]

theorem phiLists_putInsn (hp : m.insn? id = some (.phi p)) (q : Phi) (t : VarTable) :
    (m.putInsn id ⟨.phi q, t⟩).phiLists = Function.update m.phiLists id q.entries := by
  funext k
  by_cases hk : k = id
  · subst hk
    rw [Function.update_self, phiLists_of_insn? (insn?_putInsn_self hp _)]
  · rw [Function.update_of_ne hk]
    simp only [phiLists, insn?_putInsn hp, if_neg (Ne.symm hk)]

/-- A change of an instruction that leaves its list alone, if it has one. -/
theorem phiLists_putInsn_of_same {i j : Insn} (hi : m.insn? id = some i) (t : VarTable)
    (hkind : j.isPhi = i.isPhi) (hsame : ∀ q p, j = .phi q → i = .phi p → q.entries = p.entries) :
    (m.putInsn id ⟨j, t⟩).phiLists = m.phiLists := by
  funext k
  simp only [phiLists, insn?_putInsn hi]
  by_cases hk : id = k
  · subst hk
    rw [if_pos rfl, hi]
    cases i with
    | node n =>
      cases j with
      | node n' => rfl
      | phi q => cases hkind
    | phi p =>
      cases j with
      | node n' => cases hkind
      | phi q => exact hsame q p rfl rfl
  · rw [if_neg hk]

/-- A new instruction without arguments brings an empty list. -/
theorem phiLists_grown (m : Method) {i : Insn} (hnone : ∀ q, i = .phi q → q.bindings = []) :
    (m.grown i).phiLists = m.phiLists := by
  funext k
  by_cases hk : k = ⟨m.slots.length⟩
  · subst hk
    simp only [phiLists, insn?_grown, if_pos, insn?_length]
    cases i with
    | node n => rfl
    | phi q => simp [Phi.entries, hnone q rfl]
  · simp only [phiLists, insn?_grown, if_neg hk]

/-! ## The calls -/

/-- The register is as it was made: nothing holds it or owns it, and the table has its variable. -/
structure Fresh (m : Method) (r : Register) : Prop where
  owner : r.owner = none
  unheld : m.Unheld r.id
  known : m.vars.Knows r.var

instance (m : Method) (r : Register) : Decidable (m.Fresh r) :=
  decidable_of_iff (r.owner = none ∧ m.Unheld r.id ∧ ∀ v ∈ r.var, v ∈ m.vars)
    ⟨fun h => ⟨h.1, h.2.1, h.2.2⟩, fun h => ⟨h.owner, h.unheld, h.known⟩⟩

/-- The calls that bring no argument but a fresh one and change a phi in range, and what each of them
does to the lists. Calls that make variables and instructions, append to nodes and name results
leave the lists alone. -/
inductive Makes (m : Method) : Call → ListChange → Prop where
  | newVar (reg version : Nat) (s : Supply) : Makes m ⟨.newVar reg version, s⟩ .keep
  | newNode (op : Opcode) (s : Supply) : Makes m ⟨.newNode op, s⟩ .keep
  | newPhi (reg : Nat) (s : Supply) : Makes m ⟨.newPhi reg, s⟩ .keep
  | addArg {insn : InsnId} {n : Node} {a : Operand} (s : Supply)
    (hnode : m.insn? insn = some (.node n)) (hnew : n.argIndex a.id = none)
    (hfresh : ∀ r, a = .register r → m.Fresh r) : Makes m ⟨.addArg insn a, s⟩ .keep
  | setResult {insn : InsnId} {n : Node} {r : Register} (s : Supply)
    (hnode : m.insn? insn = some (.node n)) (hknown : m.vars.Knows r.var)
    (halone : ∀ v, r.var = some v → m.DefinesAlone insn v) : Makes m ⟨.setResult insn r, s⟩ .keep
  | assignResult {insn : InsnId} {i : Insn} {r : Register} {v : VarId} (s : Supply)
    (hinsn : m.insn? insn = some i) (hresult : i.result? = some r) (hnone : r.var = none)
    (hv : v ∈ m.vars) (halone : m.DefinesAlone insn v) : Makes m ⟨.assignResult insn v, s⟩ .keep
  | bindPhi {phi : InsnId} (pred : BlockId) {s : Supply} (hphi : m.IsPhi phi)
    (hfresh : m.Unheld s.draw.1) : Makes m ⟨.bindPhi phi pred, s⟩ (.append phi none pred)
  | bindPhiArg {phi : InsnId} {arg : Register} (pred : BlockId) (s : Supply) (hphi : m.IsPhi phi)
    (hfresh : m.Fresh arg) : Makes m ⟨.bindPhiArg phi arg pred, s⟩ (.append phi arg.var pred)
  | removePhiArgAt {phi : InsnId} {p : Phi} {k : Nat} (s : Supply)
    (hphi : m.insn? phi = some (.phi p)) (hk : k < p.bindings.length) :
    Makes m ⟨.removePhiArgAt phi k, s⟩ (.delete phi k)
  | replaceArg {phi : InsnId} {p : Phi} {k : Nat} {old held new : Register} {v : VarId} (s : Supply)
    (hphi : m.insn? phi = some (.phi p)) (hheld : p.args[k]? = some held) (hold : old.id = held.id)
    (hfresh : m.Fresh new) (hv : new.var = some v) :
    Makes m ⟨.replaceArg phi (.register old) (.register new), s⟩ (.rename phi k v)
  | attachVar {phi : InsnId} {p : Phi} {k : Nat} {v : VarId} (s : Supply)
    (hphi : m.insn? phi = some (.phi p)) (hk : k < p.bindings.length) (hv : v ∈ m.vars) :
    Makes m ⟨.attachVar phi k v, s⟩ (.rename phi k v)

/-- Each call makes its change, in the state in which it is made. -/
def Tracks : Method → List (Call × ListChange) → Prop
  | _, [] => True
  | m, (c, o) :: rest => Makes m c o ∧ Tracks (c.next m) rest

theorem tracks_append {front back : List (Call × ListChange)} :
    Tracks m (front ++ back) ↔ Tracks m front ∧ Tracks (m.after (front.map Prod.fst)) back := by
  induction front generalizing m with
  | nil => simp [Tracks, after]
  | cons step rest ih =>
    simp only [List.cons_append, Tracks, ih, and_assoc]
    rfl

/-- None of these calls fails to set an argument of a node, takes over a definition or chooses the
checks. -/
theorem Makes.keepsForm {c : Call} {o : ListChange} (h : Makes m c o) : c.KeepsForm m := by
  have hsole : ∀ {c : Call}, c.mutation.defines? = none → c.Sole m := by
    intro c hnone d hd
    rw [hnone] at hd
    cases hd
  cases h with
  | replaceArg s hphi hheld hold hfresh hv =>
    refine ⟨?_, hsole rfl, fun k hk => by cases hk⟩
    simp [Call.spoilsNode, Call.setsNodeArg, hphi, Insn.isNode, Insn.node?]
  | setResult s hnode hknown halone =>
    refine ⟨rfl, ?_, fun k hk => by cases hk⟩
    intro d hd
    rcases Option.map_eq_some_iff.1 hd with ⟨v, hv, rfl⟩
    exact halone v hv
  | assignResult s hinsn hresult hnone hv halone =>
    refine ⟨rfl, ?_, fun k hk => by cases hk⟩
    intro d hd
    cases hd
    exact halone
  | _ => exact ⟨rfl, hsole rfl, fun k hk => by cases hk⟩

/-! ## What the calls rely on -/

/-- A consistent method in which no instance is shared, and which checks itself. -/
structure Regular (m : Method) : Prop extends Consistent m where
  exclusive : m.Exclusive
  checks_eq : m.checks = .strict

theorem Regular.recheck (h : m.Regular) : m.recheck = .ok () := by
  have hafter : m.checks.afterMutation = true := congrArg Checks.afterMutation h.checks_eq
  rw [recheck_of_checked hafter, h.checks_eq]
  exact h.toConsistent.verify rfl

/-! ## Binding, removing and renaming -/

/-- A fresh register is free to be attached. -/
theorem Coherent.free_of_fresh (h : m.Coherent) {r : Register} (hr : m.Fresh r) :
    r.Free m.vars := by
  refine ⟨hr.owner, hr.known, fun v x _ hx => ?_⟩
  rw [(h.readers.uses v x hx).useSite_eq_none]
  rintro k ⟨q, hq, hid, -⟩
  exact hr.unheld k q hq hid

theorem argIndex_of_unheld (hp : m.insn? id = some (.phi p)) {a : OperandId} (ha : m.Unheld a) :
    p.argIndex a = none :=
  Phi.argIndex_eq_none.2 fun r hr => ha id r ((holds_of_insn? hp).2 hr)

/-- A fresh register is bound after the others, if its predecessor is not bound yet. -/
theorem Coherent.bindArg_fresh (h : m.Coherent) (hp : m.insn? id = some (.phi p)) {r : Register}
    {pred : BlockId} (hr : m.Fresh r) (hpred : pred ∉ p.preds) :
    ∃ t, Phi.argBound r pred ⟨p, m.vars⟩ =
      .ok ⟨{ p with bindings := p.bindings ++ [⟨r.ownedBy p.id, pred⟩] }, t⟩ := by
  have hins : Phi.argBound r pred ⟨p, m.vars⟩ = .ok _ :=
    Phi.bindingInserted_eq_ok.2 ⟨hpred, argIndex_of_unheld hp hr.unheld, h.free_of_fresh hr, rfl⟩
  rw [List.insertIdx_length_self] at hins
  exact ⟨_, hins⟩

/-- A fresh register is as fresh where a phi has lost a binding. -/
theorem Fresh.eraseBinding {r : Register} (hr : m.Fresh r) (hp : m.insn? id = some (.phi p))
    (k : Nat) (w : Option VarId) (f : Variable → Variable) :
    (m.putInsn id
      ⟨.phi { p with bindings := p.bindings.eraseIdx k }, m.vars.onVar w f⟩).Fresh r := by
  refine ⟨hr.owner, fun j s hs => ?_, VarTable.knows_onVar.2 hr.known⟩
  rw [holds_putInsn hp] at hs
  by_cases hj : id = j
  · rw [if_pos hj] at hs
    rcases List.mem_map.1 hs with ⟨c, hc, rfl⟩
    have hcp : c.arg ∈ p.args := List.mem_map.2 ⟨c, List.mem_of_mem_eraseIdx hc, rfl⟩
    exact hr.unheld id c.arg ((holds_of_insn? hp).2 hcp)
  · rw [if_neg hj] at hs
    exact hr.unheld j s hs

/-- With a binding its predecessor is gone. -/
theorem not_mem_preds_eraseIdx (hp : (Insn.phi p).WellFormed id) {k : Nat} {b : Binding}
    (hb : p.bindings[k]? = some b) :
    b.pred ∉ Phi.preds { p with bindings := p.bindings.eraseIdx k } := by
  rcases Insn.wellFormed_phi.1 hp with ⟨-, -, -, hnodup, -⟩
  intro hmem
  rcases List.mem_map.1 hmem with ⟨c, hc, heq⟩
  exact ((mem_eraseIdx_iff_key hnodup hb).1 hc).2 heq

/-- A bound argument is replaced by a fresh register, which takes over its predecessor. -/
theorem Coherent.replaceArg_fresh (h : m.Coherent) (hp : m.insn? id = some (.phi p)) {k : Nat}
    {b : Binding} (hb : p.bindings[k]? = some b) {r : Register} (hr : m.Fresh r) :
    ∃ t, Phi.replaceArg b.arg.id r ⟨p, m.vars⟩ =
      .ok true ⟨{ p with bindings := p.bindings.set k ⟨r.ownedBy p.id, b.pred⟩ }, t⟩ := by
  have hformed := h.formed id _ hp
  have hheld : b.arg ∈ p.args := List.mem_map.2 ⟨b, List.mem_of_getElem? hb, rfl⟩
  have hne : r.id ≠ b.arg.id := fun heq => hr.unheld id b.arg ((holds_of_insn? hp).2 hheld) heq.symm
  have hrep : Phi.replacement b.arg.id r ⟨p, m.vars⟩ = .ok r :=
    Phi.replacement_eq_ok.2
      ⟨hr.known, Or.inr ⟨hne, argIndex_of_unheld hp hr.unheld, h.free_of_fresh hr, rfl⟩⟩
  have hblock : p.blockAt? k = some b.pred := by
    rw [Phi.blockAt?, hb]
    rfl
  -- the register is bound where the old argument is gone
  have herased := h.eraseBinding hp hb
  have hp' := insn?_putInsn_self hp ⟨.phi { p with bindings := p.bindings.eraseIdx k },
    m.vars.onVar b.arg.var fun x => (x.dropUse b.arg.id).refreshConsumers⟩
  have hfresh := hr.eraseBinding hp k b.arg.var fun x => (x.dropUse b.arg.id).refreshConsumers
  have hins : Phi.bindingInserted k r b.pred ⟨{ p with bindings := p.bindings.eraseIdx k },
      m.vars.onVar b.arg.var fun x => (x.dropUse b.arg.id).refreshConsumers⟩ = .ok _ :=
    Phi.bindingInserted_eq_ok.2 ⟨not_mem_preds_eraseIdx hformed hb,
      argIndex_of_unheld hp' hfresh.unheld,
      herased.free_of_fresh hfresh, rfl⟩
  -- taking one out and putting another in at its place is setting it
  have hset : (p.bindings.eraseIdx k).insertIdx k ⟨r.ownedBy p.id, b.pred⟩ =
      p.bindings.set k ⟨r.ownedBy p.id, b.pred⟩ := by
    rw [List.insertIdx_eraseIdx_self]
    exact Nat.ne_of_lt (List.getElem?_eq_some_iff.1 hb).1
  simp only [hset] at hins
  rw [Phi.replaceArg_apply, Phi.argIndex_of_getElem? hformed hb]
  simp only [hblock, hrep]
  rw [bind_of_ok (h.removeArgAt_of_getElem? hp hb), bind_of_ok (atomically_of_ok hins)]
  exact ⟨_, rfl⟩

/-- An argument of a phi in range is renamed to any variable of the table, if no other instruction
holds its instance. -/
theorem Coherent.attachVar_alone (h : m.Coherent) (hp : m.insn? id = some (.phi p)) {k : Nat}
    {b : Binding} (hb : p.bindings[k]? = some b)
    (halone : ∀ j r, m.Holds j r → r.id = b.arg.id → j = id) {v : VarId} (hv : v ∈ m.vars) :
    ∃ t, Insn.varAttached k v ⟨.phi p, m.vars⟩ =
      .ok ⟨.phi { p with bindings := p.bindings.set k ⟨b.arg.naming v, b.pred⟩ }, t⟩ := by
  have hheld : m.Holds id b.arg :=
    (holds_of_insn? hp).2 (List.mem_map.2 ⟨b, List.mem_of_getElem? hb, rfl⟩)
  -- where `v` is read through the instance already, it is read in this phi
  have hsite : ∀ x j, m.vars.get? v = some x → x.useSite b.arg.id = some j →
      b.arg.owner = some j := by
    intro x j hx hj
    rcases (h.readers.uses v x hx).useSite_eq_some.1 hj with ⟨s, hs, hid, -⟩
    rw [halone j s hs hid]
    exact h.readers.owned id b.arg hheld
  have hmove := Insn.readerMoved_eq_ok.2 ⟨hv, h.readers.known id b.arg hheld, hsite, rfl⟩
  exact ⟨_, Insn.varAttached_phi_eq_ok.2 ⟨b, _, hb, hmove, rfl⟩⟩

/-- So it is where instances are not shared. -/
theorem Coherent.attachVar_exclusive (h : m.Coherent) (hex : m.Exclusive)
    (hp : m.insn? id = some (.phi p)) {k : Nat} {b : Binding} (hb : p.bindings[k]? = some b)
    {v : VarId} (hv : v ∈ m.vars) :
    ∃ t, Insn.varAttached k v ⟨.phi p, m.vars⟩ =
      .ok ⟨.phi { p with bindings := p.bindings.set k ⟨b.arg.naming v, b.pred⟩ }, t⟩ := by
  have hheld : m.Holds id b.arg :=
    (holds_of_insn? hp).2 (List.mem_map.2 ⟨b, List.mem_of_getElem? hb, rfl⟩)
  exact h.attachVar_alone hp hb (fun j r hr hid => hex j id r b.arg hr hheld hid) hv

theorem entries_append (p : Phi) (r : Register) (pred : BlockId) :
    Phi.entries { p with bindings := p.bindings ++ [⟨r.ownedBy p.id, pred⟩] } =
      p.entries ++ [(r.var, pred)] := by
  simp [Phi.entries, Register.ownedBy]

theorem entries_eraseIdx (p : Phi) (k : Nat) :
    Phi.entries { p with bindings := p.bindings.eraseIdx k } = p.entries.eraseIdx k := by
  simp only [Phi.entries, List.eraseIdx_map]

/-- Another argument from the same predecessor is a renaming of the entry. -/
theorem entries_set {k : Nat} {b : Binding} (hb : p.bindings[k]? = some b) {r : Register}
    {v : VarId} (hv : r.var = some v) :
    Phi.entries { p with bindings := p.bindings.set k ⟨r, b.pred⟩ } =
      p.entries.modify k fun e => (some v, e.2) := by
  rcases List.getElem?_eq_some_iff.1 hb with ⟨hlt, rfl⟩
  apply List.ext_getElem?
  intro j
  simp only [Phi.entries, List.getElem?_map, List.getElem?_set, List.getElem?_modify]
  by_cases hj : k = j
  · subst hj
    simp [hlt, hv]
  · simp [hj]

/-! ## The simulation -/

end Method

/-- The call does to the phis what the change does to the lists. It fails exactly if the change is
refused, and then it changes nothing. -/
structure Call.Follows (c : Call) (m : Method) (o : ListChange) : Prop where
  lists : (c.next m).phiLists = o.apply m.phiLists
  refused : ∀ e, o.refusal m.phiLists = some e → c.verdict m = .error e ∧ c.next m = m
  made : o.refusal m.phiLists = none → ∃ a, c.verdict m = .ok a

namespace Method

variable {m : Method} {id : InsnId} {p : Phi}

section Calls

variable {α : Type} {c : Call} {o : ListChange} {f : α → Answer} {act : Edit (Linked Insn) α}

/-- A successful edit of an instruction passes the check, and the call follows. -/
theorem Regular.change (h : m.Regular) (hform : c.KeepsForm m)
    (hedit : c.edit = f <$> verified (editInsn id act)) {i j : Insn} (hi : m.insn? id = some i)
    {a : α} {t : VarTable} (hact : act ⟨i, m.vars⟩ = .ok a ⟨j, t⟩)
    (hids : ∀ r ∈ j.registers, (∃ s ∈ i.registers, s.id = r.id) ∨ m.Unheld r.id)
    (hlists : (m.putInsn id ⟨j, t⟩).phiLists = o.apply m.phiLists)
    (hmade : o.refusal m.phiLists = none) : (c.next m).Regular ∧ c.Follows m o := by
  -- the check changes nothing, so what the call leaves is known before its verdict
  have hrun := editInsn_of_ok hi hact
  have hnext : c.next m = m.putInsn id ⟨j, t⟩ := by
    rw [next_of_edit hedit hi, hact]
    rfl
  have hregular : (c.next m).Regular :=
    ⟨h.toConsistent.next hform.1 hform.2.1, hnext ▸ h.exclusive.putInsn hi hids,
      (checks_next hform.2.2).trans h.checks_eq⟩
  -- what it leaves is regular and passes the check
  have hverdict : c.verdict m = .ok (f a) := by
    have hcheck : (finalState (editInsn id act m)).recheck = .ok () := by
      rw [hrun]
      exact (hnext ▸ hregular).recheck
    rw [Call.verdict_eq, hedit, verdict_map, verdict_verified hcheck, hrun]
    rfl
  refine ⟨hregular, { lists := ?_, refused := ?_, made := ?_ }⟩
  · rw [hnext, hlists]
  · intro e he
    rw [hmade] at he
    cases he
  · intro _
    exact ⟨f a, hverdict⟩

/-- A call that is refused follows a change that is. -/
theorem Regular.refuse (h : m.Regular) {e : Fault} (hcall : c.verdict m = .error e ∧ c.next m = m)
    (hlists : o.apply m.phiLists = m.phiLists) (hrefused : o.refusal m.phiLists = some e) :
    (c.next m).Regular ∧ c.Follows m o := by
  rcases hcall with ⟨hverdict, hnext⟩
  refine ⟨hnext.symm ▸ h, { lists := ?_, refused := ?_, made := ?_ }⟩
  · rw [hnext, hlists]
  · intro e' he
    rw [hrefused, Option.some.injEq] at he
    exact ⟨he ▸ hverdict, hnext⟩
  · intro hnone
    rw [hrefused] at hnone
    cases hnone

/-- A call that adds a variable or an instruction leaves the lists alone. -/
theorem Regular.grow (h : m.Regular) (hform : c.KeepsForm m) {a : Answer}
    (hverdict : c.verdict m = .ok a) (hexclusive : (c.next m).Exclusive)
    (hlists : (c.next m).phiLists = m.phiLists) :
    (c.next m).Regular ∧ c.Follows m .keep := by
  have hregular : (c.next m).Regular :=
    ⟨h.toConsistent.next hform.1 hform.2.1, hexclusive,
      (checks_next hform.2.2).trans h.checks_eq⟩
  refine ⟨hregular, { lists := hlists, refused := ?_, made := ?_ }⟩
  · intro e he
    cases he
  · intro _
    exact ⟨a, hverdict⟩

/-- Binding a fresh register appends its variable, unless its predecessor is bound already. -/
theorem Regular.bind (h : m.Regular) (hform : c.KeepsForm m) (hp : m.insn? id = some (.phi p))
    (hedit : c.edit = f <$> verified (editInsn id act)) {r : Register} {pred : BlockId}
    (hr : m.Fresh r)
    (hok : ∀ s, Phi.argBound r pred ⟨p, m.vars⟩ = .ok s → ∃ a, act ⟨.phi p, m.vars⟩ = .ok a s.ofPhi)
    (herror : ∀ e, Phi.argBound r pred ⟨p, m.vars⟩ = .error e →
      act ⟨.phi p, m.vars⟩ = .error e ⟨.phi p, m.vars⟩) :
    (c.next m).Regular ∧ c.Follows m (.append id r.var pred) := by
  have hid : p.id = id := (h.formed id _ hp).id_eq
  have hpreds : (m.phiLists id).map Prod.snd = p.preds := by
    rw [phiLists_of_insn? hp, Phi.map_snd_entries]
  -- the phi refuses the binding exactly where the list refuses the entry
  by_cases hpred : pred ∈ p.preds
  · have hrefusal : Phi.argBound r pred ⟨p, m.vars⟩ = .error (.duplicatePredecessor pred id) :=
      hid ▸ Phi.bindingInserted_duplicate hpred
    refine h.refuse (call_of_error hedit hp (herror _ hrefusal)) ?_ ?_
    · rw [ListChange.apply, hpreds, if_pos hpred]
    · rw [ListChange.refusal, hpreds, if_pos hpred]
  · rcases h.toCoherent.bindArg_fresh hp hr hpred with ⟨t, hbound⟩
    rcases hok _ hbound with ⟨a, hact⟩
    refine h.change hform hedit hp hact ?_ ?_ ?_
    · intro s hs
      rcases List.mem_map.1 hs with ⟨b, hb, rfl⟩
      rcases List.mem_append.1 hb with hb | hb
      · exact Or.inl ⟨b.arg, List.mem_map.2 ⟨b, hb, rfl⟩, rfl⟩
      · cases List.mem_singleton.1 hb
        exact Or.inr hr.unheld
    · rw [phiLists_putInsn hp, ListChange.apply, hpreds, if_neg hpred, entries_append,
        phiLists_of_insn? hp]
    · rw [ListChange.refusal, hpreds, if_neg hpred]

/-- Another argument at a position renames the entry. -/
theorem Regular.rename (h : m.Regular) (hform : c.KeepsForm m) (hp : m.insn? id = some (.phi p))
    (hedit : c.edit = f <$> verified (editInsn id act)) {k : Nat} {b : Binding}
    (hb : p.bindings[k]? = some b) {r : Register} {v : VarId} (hv : r.var = some v) {a : α}
    {t : VarTable}
    (hact : act ⟨.phi p, m.vars⟩ =
      .ok a ⟨.phi { p with bindings := p.bindings.set k ⟨r, b.pred⟩ }, t⟩)
    (hid : r.id = b.arg.id ∨ m.Unheld r.id) :
    (c.next m).Regular ∧ c.Follows m (.rename id k v) := by
  refine h.change hform hedit hp hact ?_ ?_ rfl
  · intro s hs
    rcases List.mem_map.1 hs with ⟨d, hd, rfl⟩
    rcases List.mem_or_eq_of_mem_set hd with hd | rfl
    · exact Or.inl ⟨d.arg, List.mem_map.2 ⟨d, hd, rfl⟩, rfl⟩
    · refine hid.imp_left fun heq => ?_
      exact ⟨b.arg, List.mem_map.2 ⟨b, List.mem_of_getElem? hb, rfl⟩, heq.symm⟩
  · rw [phiLists_putInsn hp, ListChange.apply, entries_set hb hv, phiLists_of_insn? hp]

end Calls

/-- One step: on a regular method each call does what its change does, and leaves
a regular method. -/
theorem Regular.step (h : m.Regular) {c : Call} {o : ListChange} (hc : Makes m c o) :
    (c.next m).Regular ∧ c.Follows m o := by
  have hform := hc.keepsForm
  cases hc with
  | newVar reg version s => exact h.grow hform rfl h.exclusive rfl
  | newNode op s =>
    exact h.grow hform rfl (h.exclusive.grown rfl) (phiLists_grown m fun q hq => nomatch hq)
  | newPhi reg s =>
    refine h.grow hform rfl (h.exclusive.grown rfl) (phiLists_grown m fun q hq => ?_)
    cases hq
    rfl
  | @addArg insn n a s hn hnew hfresh =>
    have hfree : a.Free m.vars := by
      cases a with
      | literal l => trivial
      | register r => exact h.toCoherent.free_of_fresh (hfresh r rfl)
    have hadd := (Node.argAdded_eq_ok (s := ⟨n, m.vars⟩)).2 ⟨hnew, hfree, rfl⟩
    have hact := Insn.edit_node_of_ok _ (Insn.refuse "add_arg") (Node.run_addArg (u := ()).2 hadd)
    refine h.change hform rfl hn hact ?_ ?_ rfl
    · intro r hr
      rcases List.mem_append.1 (Insn.mem_registers.1 hr) with hold | hself
      · exact Or.inl ⟨r, Insn.mem_registers.2 hold, rfl⟩
      · cases a with
        | literal l => cases List.mem_singleton.1 hself
        | register r' =>
          cases List.mem_singleton.1 hself
          exact Or.inr (hfresh r' rfl).unheld
    · exact phiLists_putInsn_of_same hn _ rfl fun q p hq => by cases hq
  | @setResult insn n r s hn hknown halone =>
    have hold : m.vars.Knows (n.result.bind (·.var)) := by
      cases hres : n.result with
      | none => exact m.vars.knows_none
      | some old => exact h.definitions.known insn old ((hasResult_of_insn? hn).2 hres)
    have hset := (Node.resultSet_eq_ok (s := ⟨n, m.vars⟩)).2 ⟨hknown, hold, rfl⟩
    have hact := Insn.edit_node_of_ok _ (Insn.refuse "set_result") (Node.run_setResult (u := ()).2 hset)
    refine h.change hform rfl hn hact (fun r hr => Or.inl ⟨r, hr, rfl⟩) ?_ rfl
    exact phiLists_putInsn_of_same hn _ rfl fun q p hq => by cases hq
  | @assignResult insn i r v s hi hresult hnone hv halone =>
    have hassign := (Insn.resultAssigned_eq_ok (s := ⟨i, m.vars⟩)).2 ⟨hv, r, hresult, hnone, rfl⟩
    have hact := Insn.run_assignResult (u := ()).2 hassign
    cases i with
    | node n =>
      refine h.change hform rfl hi hact (fun r hr => Or.inl ⟨r, hr, rfl⟩) ?_ rfl
      exact phiLists_putInsn_of_same hi _ rfl fun q p hq => by cases hq
    | phi p =>
      refine h.change hform rfl hi hact (fun r hr => Or.inl ⟨r, hr, rfl⟩) ?_ rfl
      refine phiLists_putInsn_of_same hi _ rfl fun q p' hq hp => ?_
      cases hq
      cases hp
      rfl
  | @bindPhi phi pred supply hphi hunheld =>
    rcases hphi with ⟨p, hp⟩
    have hfresh : m.Fresh (p.freshArg supply.draw.1) := ⟨rfl, hunheld, m.vars.knows_none⟩
    refine h.bind hform hp rfl hfresh ?_ ?_
    · intro s hs
      exact ⟨_, Insn.edit_phi_of_ok _ _ (Phi.bind_of_argBound hs)⟩
    · intro e he
      exact Insn.edit_phi_of_error _ _ (Phi.bind_of_argBound_error he)
  | bindPhiArg pred s hphi hfresh =>
    rcases hphi with ⟨p, hp⟩
    refine h.bind hform hp rfl hfresh ?_ ?_
    · intro s hs
      exact ⟨(), Insn.edit_phi_of_ok _ _ (Phi.run_bindArg.2 hs)⟩
    · intro e he
      exact Insn.edit_phi_of_error _ _ (Phi.bindArg_of_error he)
  | removePhiArgAt s hp hk =>
    rcases List.getElem?_eq_some_iff.2 ⟨hk, rfl⟩ with hb
    have hact := h.toCoherent.removeArgAt_of_getElem? hp hb
    refine h.change hform rfl hp (Insn.edit_phi_of_ok _ _ hact) ?_ ?_ rfl
    · intro r hr
      rcases List.mem_map.1 hr with ⟨d, hd, rfl⟩
      exact Or.inl ⟨d.arg, List.mem_map.2 ⟨d, List.mem_of_mem_eraseIdx hd, rfl⟩, rfl⟩
    · rw [phiLists_putInsn hp, ListChange.apply, phiLists_of_insn? hp, entries_eraseIdx]
  | @replaceArg phi p k old held new v s hp hheld hold hfresh hv =>
    rw [Phi.args, List.getElem?_map, Option.map_eq_some_iff] at hheld
    rcases hheld with ⟨b, hb, rfl⟩
    rcases h.toCoherent.replaceArg_fresh hp hb hfresh with ⟨t, hreplace⟩
    rw [← hold] at hreplace
    have hact := Insn.edit_phi_of_ok (Node.replaceArg old.id (.register new)) _ hreplace
    exact h.rename (r := new.ownedBy p.id) hform hp rfl hb hv hact (Or.inr hfresh.unheld)
  | attachVar s hp hk hv =>
    rcases List.getElem?_eq_some_iff.2 ⟨hk, rfl⟩ with hb
    rcases h.toCoherent.attachVar_exclusive h.exclusive hp hb hv with ⟨t, hact⟩
    exact h.rename hform hp rfl hb rfl (Insn.run_attachVar (u := ()).2 hact) (Or.inl rfl)

theorem regular_empty : ({ checks := .strict } : Method).Regular := by
  refine ⟨consistent_empty .strict, ?_, rfl⟩
  rintro i j r s ⟨k, hk, -⟩
  cases hk

/-- A variable lists a consumer exactly if it stands in the list of some phi. -/
theorem Coherent.consumers_ne_nil_iff (h : m.Coherent) {v : VarId} {x : Variable}
    (hx : m.vars.get? v = some x) :
    x.consumers ≠ [] ↔ ∃ phi pred, (some v, pred) ∈ m.phiLists phi := by
  have hmem := (h.readers.consumers v x hx).mem
  constructor
  · intro hne
    rcases List.exists_mem_of_ne_nil _ hne with ⟨phi, hphi⟩
    rcases (hmem phi).1 hphi with ⟨⟨p, hp⟩, r, hr, hv⟩
    have hr' : r ∈ p.args := (holds_of_insn? hp).1 hr
    rcases List.mem_map.1 hr' with ⟨b, hb, rfl⟩
    refine ⟨phi, b.pred, ?_⟩
    rw [phiLists_of_insn? hp]
    exact List.mem_map.2 ⟨b, hb, by rw [hv]⟩
  · rintro ⟨phi, pred, hentry⟩
    cases hi : m.insn? phi with
    | none => simp [phiLists, hi] at hentry
    | some i =>
      cases i with
      | node n => simp [phiLists, hi] at hentry
      | phi p =>
        rw [phiLists_of_insn? hi] at hentry
        rcases List.mem_map.1 hentry with ⟨b, hb, heq⟩
        have hv : b.arg.var = some v := congrArg Prod.fst heq
        have hheld : m.Holds phi b.arg := (holds_of_insn? hi).2 (List.mem_map.2 ⟨b, hb, rfl⟩)
        exact List.ne_nil_of_mem ((hmem phi).2 ⟨⟨p, hi⟩, b.arg, hheld, hv⟩)

/-- A handle on an argument of `phi`: the argument itself, or any handle on its instance if that is
bound to the same phi again. -/
def Rebinds (m : Method) (phi target : InsnId) (r : Register) : Prop :=
  ∃ s, m.Holds phi s ∧ (r = s ∨ target = phi ∧ r.id = s.id)

/-- An argument that is bound is not bound a second time. -/
theorem Regular.rebind (h : m.Regular) {phi target : InsnId} (htarget : m.IsPhi target)
    {r : Register} (hr : m.Rebinds phi target r) (pred : BlockId) (s : Supply) :
    (⟨.bindPhiArg target r pred, s⟩ : Call).verdict m =
        .error (if pred ∈ (m.phiLists target).map Prod.snd then .duplicatePredecessor pred target
          else .alreadyBound r.id phi) ∧
      (⟨.bindPhiArg target r pred, s⟩ : Call).next m = m := by
  rcases htarget with ⟨q, hq⟩
  have hid : q.id = target := (h.formed target _ hq).id_eq
  rw [phiLists_of_insn? hq, Phi.map_snd_entries]
  refine call_of_error rfl hq (Insn.edit_phi_of_error _ _ (Phi.bindArg_of_error ?_))
  by_cases hpred : pred ∈ q.preds
  · rw [if_pos hpred]
    exact hid ▸ Phi.bindingInserted_duplicate hpred
  · rw [if_neg hpred]
    rcases hr with ⟨s, hs, hcase⟩
    have heq : r.id = s.id := by
      rcases hcase with rfl | ⟨-, heq⟩
      · rfl
      · exact heq
    by_cases hsame : target = phi
    · -- the instance stands in the phi to which it is to be bound
      have hs' : s ∈ q.args := (holds_of_insn? hq).1 (hsame ▸ hs)
      have hindex : q.argIndex r.id ≠ none := fun hnone =>
        Phi.argIndex_eq_none.1 hnone s hs' heq.symm
      exact hsame ▸ hid ▸ Phi.bindingInserted_held hpred hindex
    · -- it stands in another instruction, and the handle says so
      have hrs : r = s := hcase.resolve_right fun hcase => hsame hcase.1
      subst hrs
      have hindex : q.argIndex r.id = none := by
        refine Phi.argIndex_eq_none.2 fun s hs' heq => hsame ?_
        exact h.exclusive target phi s r ((holds_of_insn? hq).2 hs') hs heq
      exact Phi.bindingInserted_of_attached_error hpred hindex
        (Register.attached_owned (h.readers.owned phi r hs) (h.readers.known phi r hs))

/-- A run of steps: the lists take the changes one after the other. -/
theorem Regular.run (h : m.Regular) {steps : List (Call × ListChange)} (hsteps : Tracks m steps) :
    (m.after (steps.map Prod.fst)).Regular ∧
      (m.after (steps.map Prod.fst)).phiLists =
        (steps.map Prod.snd).foldl ListChange.apply m.phiLists := by
  -- by induction on the steps, for every regular method at once
  induction steps generalizing m with
  | nil => exact ⟨h, rfl⟩
  | cons step rest ih =>
    rcases hsteps with ⟨hstep, hrest⟩
    rcases h.step hstep with ⟨hnext, hfollows⟩
    rcases ih hnext hrest with ⟨hregular, hlists⟩
    refine ⟨hregular, ?_⟩
    rw [hfollows.lists] at hlists
    exact hlists

/-- **Phis are lists.** On an empty method that checks itself strictly, bind fresh arguments to phis,
remove or rename arguments in range and replace bound ones by fresh ones, in any order, and make as
many variables, phis and nodes as there have to be. Then at every point the phis hold what the lists
hold, a variable is used in a phi exactly if it stands in a list, the next call does what its change
does and fails only where that is refused, and an argument that is bound is not bound again. -/
theorem phiLists_after {steps : List (Call × ListChange)} (h : Tracks { checks := .strict } steps) :
    ∀ front back, front ++ back = steps →
    ∀ m, m = ({ checks := .strict } : Method).after (front.map Prod.fst) →
      m.phiLists = ListChange.run (front.map Prod.snd) ∧
      (∀ v x, m.vars.get? v = some x →
        (x.consumers ≠ [] ↔ ∃ phi pred, (some v, pred) ∈ ListChange.run (front.map Prod.snd) phi)) ∧
      (∀ c o rest, back = (c, o) :: rest → c.Follows m o) ∧
      (∀ phi target r pred s, m.IsPhi target → m.Rebinds phi target r →
        (⟨.bindPhiArg target r pred, s⟩ : Call).verdict m =
            .error (if pred ∈ (m.phiLists target).map Prod.snd
              then .duplicatePredecessor pred target else .alreadyBound r.id phi) ∧
          (⟨.bindPhiArg target r pred, s⟩ : Call).next m = m) := by
  intro front back hsplit m hm
  rw [← hsplit, tracks_append, ← hm] at h
  -- the steps in front lead to a regular method, from which the next one is a single step
  rcases h with ⟨hfront, hback⟩
  rcases regular_empty.run hfront with ⟨hregular, hlists⟩
  rw [← hm] at hregular hlists
  have hrun : m.phiLists = ListChange.run (front.map Prod.snd) := hlists
  refine ⟨hrun, ?_, ?_, ?_⟩
  · intro v x hx
    rw [← hrun]
    exact hregular.toCoherent.consumers_ne_nil_iff hx
  · intro c o rest hnext
    rw [hnext] at hback
    exact (hregular.step hback.1).2
  · intro phi target r pred s htarget hr
    exact hregular.rebind htarget hr pred s

/-- A node defines a variable. A phi takes an argument, refuses a second one from the same
predecessor, and has the first replaced by another that reads the variable, renamed and removed. -/
def valueOfOnePredecessor : List (Call × ListChange) :=
  [(⟨.newVar 0 0, {}⟩, .keep), (⟨.newNode .const, {}⟩, .keep),
    (⟨.setResult ⟨0⟩ { id := ⟨0⟩, reg := 0, var := some ⟨0⟩ }, {}⟩, .keep),
    (⟨.newPhi 0, ⟨1⟩⟩, .keep), (⟨.bindPhi ⟨1⟩ ⟨7⟩, ⟨2⟩⟩, .append ⟨1⟩ none ⟨7⟩),
    (⟨.bindPhiArg ⟨1⟩ { id := ⟨3⟩, reg := 0, var := some ⟨0⟩ } ⟨7⟩, {}⟩,
      .append ⟨1⟩ (some ⟨0⟩) ⟨7⟩),
    (⟨.replaceArg ⟨1⟩ (.register { id := ⟨2⟩, reg := 0 })
      (.register { id := ⟨4⟩, reg := 0, var := some ⟨0⟩ }), {}⟩, .rename ⟨1⟩ 0 ⟨0⟩),
    (⟨.attachVar ⟨1⟩ 0 ⟨0⟩, {}⟩, .rename ⟨1⟩ 0 ⟨0⟩), (⟨.removePhiArgAt ⟨1⟩ 0, {}⟩, .delete ⟨1⟩ 0)]

theorem phiLists_after_valueOfOnePredecessor :
    Tracks { checks := .strict } valueOfOnePredecessor ∧
      (({ checks := .strict } : Method).after (valueOfOnePredecessor.map Prod.fst)).phiLists =
        ListChange.run (valueOfOnePredecessor.map Prod.snd) := by
  have htracks : Tracks { checks := .strict } valueOfOnePredecessor :=
    ⟨.newVar 0 0 {}, .newNode .const {},
      .setResult {} rfl (fun v hv => by cases hv; decide) (fun v hv => by cases hv; decide),
      .newPhi 0 ⟨1⟩, .bindPhi ⟨7⟩ ⟨_, rfl⟩ (by decide), .bindPhiArg ⟨7⟩ {} ⟨_, rfl⟩ (by decide),
      .replaceArg {} rfl rfl rfl (by decide) rfl, .attachVar {} rfl (by decide) (by decide),
      .removePhiArgAt {} rfl (by decide), trivial⟩
  exact ⟨htracks, (phiLists_after htracks valueOfOnePredecessor [] (List.append_nil _) _ rfl).1⟩

end Method

end SsaForm
