import SsaForm.Method.Mutation
import SsaForm.Proofs.Integrity

/-!
# SsaForm.Proofs.Histories — runs of mutators

A history is a list of calls, made one after the other on the method that the one before left,
whether or not that one failed. Each call names the mutation and the supply from which it draws;
between two calls the supply may have moved on, since operands are made elsewhere too.

* `Call.next_eq` and `Call.verdict_eq` reduce a call to the edit of the method that it makes.
* `Along G m history` says that `G` holds of each call in the state in which it is made.
* `invariant_after` is the rule for invariants, and `KeptBySteps.keeps_next` its obligation for an
  invariant that survives the steps of mutators.
-/

namespace SsaForm

open Edit

namespace Mutation

/-- The call on a method alone, where `id` is the next unused identity. -/
def onMethod (id : OperandId) : Mutation → Edit Method Answer
  | .newVar reg version => .var <$> Method.newVar reg version
  | .newNode op => .insn <$> Method.newNode op
  | .newPhi reg => .insn <$> Method.newPhi reg id
  | .bindPhi phi pred => (.operand ∘ .register) <$> Method.bindPhi phi pred id
  | .bindPhiArg phi arg pred => (fun _ => .done) <$> Method.bindPhiArg phi arg pred
  | .removePhiArg phi arg => .flag <$> Method.removePhiArg phi arg
  | .removePhiArgAt phi index => (.operand ∘ .register) <$> Method.removePhiArgAt phi index
  | .addArg insn arg => (fun _ => .done) <$> Method.addArg insn arg
  | .setArg insn index arg => .operand <$> Method.setArg insn index arg
  | .removeArg insn arg => .flag <$> Method.removeArg insn arg
  | .replaceArg insn old new => .flag <$> Method.replaceArg insn old new
  | .setResult insn result => (fun _ => .done) <$> Method.setResult insn result
  | .assignResult insn var => (fun _ => .done) <$> Method.assignResult insn var
  | .attachVar insn index var => (fun _ => .done) <$> Method.attachVar insn index var
  | .unbindInsn insn => (fun _ => .done) <$> Method.unbindInsn insn
  | .removePhi phi => .phi <$> Method.removePhi phi
  | .removePhis phis => .count <$> Method.removePhis phis
  | .setChecks checks => (fun _ => .done) <$> Method.setChecks checks

/-- The one instruction that the call edits. Removing is more than an edit. -/
def edited? : Mutation → Option InsnId
  | .bindPhi id _ | .bindPhiArg id _ _ | .removePhiArg id _ | .removePhiArgAt id _ | .addArg id _
  | .setArg id _ _ | .removeArg id _ | .replaceArg id _ _ | .setResult id _ | .assignResult id _
  | .attachVar id _ _ | .unbindInsn id => some id
  | .newVar _ _ | .newNode _ | .newPhi _ | .removePhi _ | .removePhis _ | .setChecks _ => none

/-- The outcome on the method is that of another edit. -/
def Agrees {α : Type} (act : Edit (Method × Supply) α) (act' : Edit Method α) (m : Method)
    (s : Supply) : Prop :=
  (finalState (act (m, s))).1 = finalState (act' m) ∧ verdict (act (m, s)) = verdict (act' m)

theorem agrees_map {α β : Type} (f : α → β) (act : Edit Method α) (m : Method) (s : Supply) :
    Agrees (f <$> beside act) (f <$> act) m s := by
  constructor
  · rw [finalState_map, finalState_map, beside, finalState_zoom]
  · rw [verdict_map, verdict_map, beside, verdict_zoom]

/-- A call draws at most once, and what it does to the method is its edit. -/
theorem perform_agrees (c : Mutation) (m : Method) (s : Supply) :
    Agrees c.perform (c.onMethod s.draw.1) m s := by
  cases c with
  | newPhi reg =>
    rcases agrees_map Answer.insn (Method.newPhi reg s.draw.1) m s.draw.2 with ⟨hfinal, hverdict⟩
    exact ⟨hfinal, hverdict⟩
  | bindPhi phi pred =>
    cases hp : m.phi phi with
    | error e =>
      -- nothing is drawn, and the edit would have failed for the same reason
      have hleft : perform (.bindPhi phi pred) (m, s) = .error e (m, s) :=
        bind_of_error (ask_of_error hp)
      have hright : Method.bindPhi phi pred s.draw.1 m = .error e m := by
        rw [Method.bindPhi, Method.verified_apply, Method.editPhi_of_error hp]
      constructor
      · rw [hleft, onMethod, finalState_map, hright]
        rfl
      · rw [hleft, onMethod, verdict_map, hright]
        rfl
    | ok p =>
      have hleft : perform (.bindPhi phi pred) (m, s) = _ := bind_of_ok (ask_of_ok hp)
      rcases agrees_map (Answer.operand ∘ Operand.register) (Method.bindPhi phi pred s.draw.1) m
        s.draw.2 with ⟨hfinal, hverdict⟩
      exact ⟨hleft ▸ hfinal, hleft ▸ hverdict⟩
  | setChecks checks => exact agrees_map (fun _ => Answer.done) (Method.setChecks checks) m s
  | _ => exact agrees_map _ _ m s

end Mutation

/-! ## Calls -/

/-- A call of a mutator together with the supply from which it draws. -/
structure Call where
  mutation : Mutation
  supply : Supply := {}

namespace Call

/-- The value or the fault of the call. -/
def verdict (c : Call) (m : Method) : Except Fault Answer :=
  Edit.verdict (c.mutation.perform (m, c.supply))

/-- The method that the call leaves. -/
def next (c : Call) (m : Method) : Method := (finalState (c.mutation.perform (m, c.supply))).1

/-- The edit of the method that the call makes. -/
def edit (c : Call) : Edit Method Answer := c.mutation.onMethod c.supply.draw.1

theorem next_eq (c : Call) (m : Method) : c.next m = finalState (c.edit m) :=
  (c.mutation.perform_agrees m c.supply).1

theorem verdict_eq (c : Call) (m : Method) : c.verdict m = Edit.verdict (c.edit m) :=
  (c.mutation.perform_agrees m c.supply).2

section Outcome

variable {α : Type} {c : Call} {f : α → Answer} {act : Edit Method α} {m s : Method}

theorem outcome_of_ok (hedit : c.edit = f <$> act) {a : α} (h : act m = .ok a s) :
    c.verdict m = .ok (f a) ∧ c.next m = s := by
  rw [verdict_eq, next_eq, hedit, verdict_map, finalState_map, h]
  exact ⟨rfl, rfl⟩

theorem outcome_of_error (hedit : c.edit = f <$> act) {e : Fault} (h : act m = .error e s) :
    c.verdict m = .error e ∧ c.next m = s := by
  rw [verdict_eq, next_eq, hedit, verdict_map, finalState_map, h]
  exact ⟨rfl, rfl⟩

end Outcome

/-- A call that edits one instruction checks the method when it is done, and does nothing else. -/
theorem edit_of_edited? {c : Call} {id : InsnId} (h : c.mutation.edited? = some id) :
    ∃ (α : Type) (f : α → Answer) (act : Edit (Linked Insn) α),
      c.edit = f <$> Method.verified (Method.editInsn id act) := by
  unfold edit
  cases hm : c.mutation with
  | newVar | newNode | newPhi | removePhi | removePhis | setChecks =>
    rw [hm] at h
    cases h
  | _ =>
    rw [hm] at h
    cases h
    exact ⟨_, _, _, rfl⟩

/-- Does the call set or replace an argument of a live node? -/
def setsNodeArg (c : Call) (m : Method) : Bool :=
  match c.mutation with
  | .setArg id _ _ | .replaceArg id _ _ => (m.insn? id).any Insn.isNode
  | _ => false

/-- Does the call fail, other than on a position outside an argument list? -/
def fails (c : Call) (m : Method) : Bool :=
  match c.verdict m with
  | .ok _ | .error (.indexOutOfRange _) => false
  | .error _ => true

/-- Does the call fail to set an argument of a node? The old argument may then be
left without an owner. -/
def spoilsNode (c : Call) (m : Method) : Bool := c.setsNodeArg m && c.fails m

theorem fails_of_ofRecords {c : Call} {m : Method} {e : Fault} (h : c.verdict m = .error e)
    (he : e.OfRecords) : c.fails m = true := by
  unfold fails
  cases e with
  | indexOutOfRange k => exact absurd rfl (he.ne_indexOutOfRange k)
  | _ => rw [h]

end Call

/-! ## Histories -/

namespace Method

/-- The method after a history of calls. -/
def after (m : Method) (history : List Call) : Method := history.foldl (fun m c => c.next m) m

/-- What the calls of a history return, first to last. -/
def verdicts : Method → List Call → List (Except Fault Answer)
  | _, [] => []
  | m, c :: rest => c.verdict m :: verdicts (c.next m) rest

/-- `G` holds of every call of the history, in the state in which it is made. -/
def Along (G : Method → Call → Prop) : Method → List Call → Prop
  | _, [] => True
  | m, c :: rest => G m c ∧ Along G (c.next m) rest

instance Along.decidable (G : Method → Call → Prop) [∀ m c, Decidable (G m c)] :
    ∀ m history, Decidable (Along G m history)
  | _, [] => inferInstanceAs (Decidable True)
  | m, c :: rest =>
    let _ := Along.decidable G (c.next m) rest
    inferInstanceAs (Decidable (G m c ∧ Along G (c.next m) rest))

theorem after_append (m : Method) (front back : List Call) :
    m.after (front ++ back) = (m.after front).after back :=
  List.foldl_append

theorem along_append {G : Method → Call → Prop} {m : Method} {front back : List Call} :
    Along G m (front ++ back) ↔ Along G m front ∧ Along G (m.after front) back := by
  induction front generalizing m with
  | nil => simp [Along, after]
  | cons c rest ih =>
    simp only [List.cons_append, Along, ih, and_assoc]
    rfl

/-- What holds of every call of a history holds of each call after those in front of it. -/
theorem along_iff {G : Method → Call → Prop} {m : Method} {history : List Call} :
    Along G m history ↔
      ∀ front c rest, front ++ c :: rest = history → G (m.after front) c := by
  constructor
  · intro h front c rest hsplit
    rw [← hsplit, along_append] at h
    exact h.2.1
  · intro h
    induction history generalizing m with
    | nil => trivial
    | cons c rest ih =>
      refine ⟨h [] c rest rfl, ih fun front d rest' hsplit => ?_⟩
      exact h (c :: front) d rest' (congrArg (c :: ·) hsplit)

theorem Along.imp {G G' : Method → Call → Prop} (hG : ∀ m c, G m c → G' m c) {m : Method}
    {history : List Call} (h : Along G m history) : Along G' m history := by
  induction history generalizing m with
  | nil => trivial
  | cons c rest ih =>
    rcases h with ⟨hc, hrest⟩
    exact ⟨hG m c hc, ih hrest⟩

theorem along_and {G G' : Method → Call → Prop} {m : Method} {history : List Call} :
    Along (fun m c => G m c ∧ G' m c) m history ↔ Along G m history ∧ Along G' m history := by
  induction history generalizing m with
  | nil => exact ⟨fun _ => ⟨trivial, trivial⟩, fun _ => trivial⟩
  | cons c rest ih =>
    simp only [Along, ih]
    exact and_and_and_comm

/-- A history that is threaded through one supply is one whose calls name their supplies. -/
theorem exists_calls (history : List Mutation) (m : Method) (s : Supply) :
    ∃ calls : List Call, calls.map (·.mutation) = history ∧
      (Mutation.runAll history (m, s)).1 = m.after calls := by
  induction history generalizing m s with
  | nil => exact ⟨[], rfl, rfl⟩
  | cons c rest ih =>
    rcases ih _ (finalState (c.perform (m, s))).2 with ⟨calls, hmap, hrun⟩
    exact ⟨{ mutation := c, supply := s } :: calls, congrArg (c :: ·) hmap, hrun⟩

/-- What each call keeps under `G` holds after a history of such calls. -/
theorem invariant_after {P : Method → Prop} {G : Method → Call → Prop}
    (hstep : ∀ m c, P m → G m c → P (c.next m)) {m : Method} {history : List Call} (hm : P m)
    (h : Along G m history) : P (m.after history) := by
  induction history generalizing m with
  | nil => exact hm
  | cons c rest ih =>
    rcases h with ⟨hc, hrest⟩
    exact ih (hstep m c hm hc) hrest

/-- An invariant that survives the steps of mutators survives every call, if it does so where the
checks are chosen, where an argument of a node is set and where a result is named. -/
theorem KeptBySteps.keeps_next {P : Method → Prop} (h : KeptBySteps P) {m : Method} {c : Call}
    (hm : P m) (hchecks : ∀ k, c.mutation = .setChecks k → P { m with checks := k })
    (hset : ∀ id k a, c.mutation = .setArg id k a → P (finalState (Method.setArg id k a m)))
    (hreplace : ∀ id old new, c.mutation = .replaceArg id old new →
      P (finalState (Method.replaceArg id old new m)))
    (hresult : ∀ id r, c.mutation = .setResult id r → P (finalState (Method.setResult id r m)))
    (hassign : ∀ id v, c.mutation = .assignResult id v →
      P (finalState (Method.assignResult id v m))) :
    P (c.next m) := by
  rw [Call.next_eq, Call.edit]
  cases hc : c.mutation with
  | newVar reg version => exact keeps_map (h.newVar reg version) m hm
  | newNode op => exact keeps_map (h.newNode op) m hm
  | newPhi reg => exact keeps_map (h.newPhi reg _) m hm
  | bindPhi phi pred => exact keeps_map (h.keeps_bindPhi phi pred _) m hm
  | bindPhiArg phi arg pred => exact keeps_map (h.keeps_bindPhiArg phi arg pred) m hm
  | removePhiArg phi arg => exact keeps_map (h.removals.keeps_removePhiArg phi arg) m hm
  | removePhiArgAt phi k => exact keeps_map (h.removals.keeps_removePhiArgAt phi k) m hm
  | addArg id a => exact keeps_map (h.keeps_addArg id a) m hm
  | removeArg id a => exact keeps_map (h.removals.keeps_removeArg id a) m hm
  | attachVar id k v => exact keeps_map (h.keeps_attachVar id k v) m hm
  | unbindInsn id => exact keeps_map (h.removals.keeps_unbindInsn id) m hm
  | removePhi phi => exact keeps_map (h.removals.keeps_removePhi phi) m hm
  | removePhis phis => exact keeps_map (h.removals.keeps_removePhis phis) m hm
  | setChecks checks =>
    rw [Mutation.onMethod, finalState_map]
    exact hchecks checks hc
  | setArg id k a =>
    rw [Mutation.onMethod, finalState_map]
    exact hset id k a hc
  | replaceArg id old new =>
    rw [Mutation.onMethod, finalState_map]
    exact hreplace id old new hc
  | setResult id r =>
    rw [Mutation.onMethod, finalState_map]
    exact hresult id r hc
  | assignResult id v =>
    rw [Mutation.onMethod, finalState_map]
    exact hassign id v hc

/-- Every call keeps instructions well formed, whatever it is given and however it ends. -/
theorem wellFormed_next {m : Method} (hm : m.WellFormed) (c : Call) : (c.next m).WellFormed := by
  refine wellFormed_keptBySteps.keeps_next hm ?_ ?_ ?_ ?_ ?_
  · intro checks _
    exact hm
  · intro id k a _
    exact keeps_wellFormed_setArg id k a m hm
  · intro id old new _
    exact keeps_wellFormed_replaceArg id old new m hm
  · intro id r _
    exact keeps_wellFormed_setResult id r m hm
  · intro id v _
    exact keeps_wellFormed_assignResult id v m hm

theorem spoilsNode_of_ok {m : Method} {c : Call} {a : Answer} (h : c.verdict m = .ok a) :
    c.spoilsNode m = false := by
  have hfails : c.fails m = false := by simp only [Call.fails, h]
  rw [Call.spoilsNode, hfails, Bool.and_false]

/-! ## Calls that edit one instruction -/

section Edits

variable {α : Type} {m : Method} {c : Call} {f : α → Answer} {id : InsnId}
  {act : Edit (Linked Insn) α}

/-- What the call leaves is what the edit of the instruction leaves. -/
theorem next_of_edit {i : Insn} (hedit : c.edit = f <$> verified (editInsn id act))
    (hi : m.insn? id = some i) : c.next m = m.putInsn id (finalState (act ⟨i, m.vars⟩)) := by
  rw [Call.next_eq, hedit, finalState_map, finalState_verified, finalState_editInsn hi]

/-- So is what it returns, in a method that does not check itself. -/
theorem verdict_of_edit {i : Insn} (hedit : c.edit = f <$> verified (editInsn id act))
    (hi : m.insn? id = some i) (hoff : m.checks.afterMutation = false) :
    c.verdict m = (Edit.verdict (act ⟨i, m.vars⟩)).map f := by
  have hunchecked : (finalState (editInsn id act m)).checks.afterMutation = false := by
    rw [finalState_editInsn hi]
    exact hoff
  rw [Call.verdict_eq, hedit, verdict_map, verified_of_unchecked hunchecked, verdict_editInsn hi]

/-- What a successful call has returned and left is what the edit of the instruction has. -/
theorem call_of_ok (id : InsnId) {act : Edit (Linked Insn) α}
    (hedit : c.edit = f <$> verified (editInsn id act)) {b : Answer} (hok : c.verdict m = .ok b) :
    ∃ i a s, m.insn? id = some i ∧ act ⟨i, m.vars⟩ = .ok a s ∧ b = f a ∧
      c.next m = m.putInsn id s := by
  rw [Call.verdict_eq, hedit, verdict_map, map_eq_ok] at hok
  rcases hok with ⟨a, hverified, rfl⟩
  rcases insn?_of_verdict_eq_ok (verdict_of_verified_eq_ok hverified) with ⟨i, hi, hact⟩
  rw [verdict_eq_ok] at hact
  exact ⟨i, a, _, hi, hact, rfl, next_of_edit hedit hi⟩

/-- What an edit does, the call does in a method that does not check itself. -/
theorem call_of_edit {i : Insn} (hedit : c.edit = f <$> verified (editInsn id act))
    (hi : m.insn? id = some i) (hoff : m.checks.afterMutation = false) {a : α} {s : Linked Insn}
    (hact : act ⟨i, m.vars⟩ = .ok a s) : c.verdict m = .ok (f a) ∧ c.next m = m.putInsn id s := by
  constructor
  · rw [verdict_of_edit hedit hi hoff, hact]
    rfl
  · rw [next_of_edit hedit hi, hact]
    rfl

/-- What an edit refuses, the call refuses. -/
theorem call_of_error {i : Insn} (hedit : c.edit = f <$> verified (editInsn id act))
    (hi : m.insn? id = some i) {e : Fault} (hact : act ⟨i, m.vars⟩ = .error e ⟨i, m.vars⟩) :
    c.verdict m = .error e ∧ c.next m = m := by
  have hrun : verified (editInsn id act) m = .error e m := by
    rw [verified_apply, editInsn_of_error hi hact]
  exact Call.outcome_of_error hedit hrun

end Edits

end Method

end SsaForm
