import SsaForm.Proofs.Acceptance

/-!
# SsaForm.Proofs.Transparency — checking every mutation changes nothing

A method can be set to check itself after every mutation, which may turn a success into a fault.
For callers that keep to SSA form it does not: along a run of calls that keep a method
consistent (`Call.KeepsForm`) the strict check accepts every state, also those between the
unbinding and the removal of a phi, so the same calls on a method that checks itself return the
same and leave the same (`strict_agrees`).

The comparison is made edit by edit. `TransparentAt m act` says that `act` does the same on `m`
whether or not `m` checks itself; a change that looks at instructions and variables only is
transparent anywhere, and a checked one where it leaves a consistent method.
-/

namespace SsaForm

open Edit

namespace Method

variable {α β : Type} {m : Method}

/-! ## The same edit under other checks -/

/-- The method with other checks. -/
def withChecks (m : Method) (c : Checks) : Method := { m with checks := c }

/-- The outcome with other checks. -/
def reconfigured (c : Checks) : EStateM.Result Fault Method α → EStateM.Result Fault Method α
  | .ok a m => .ok a (m.withChecks c)
  | .error e m => .error e (m.withChecks c)

/-- The edit does the same on the method whether or not that checks itself strictly. -/
def TransparentAt (m : Method) (act : Edit Method α) : Prop :=
  act (m.withChecks .strict) = reconfigured .strict (act m)

theorem TransparentAt.verdict {act : Edit Method α} (h : TransparentAt m act) :
    Edit.verdict (act (m.withChecks .strict)) = Edit.verdict (act m) := by
  rw [h]
  cases act m <;> rfl

theorem TransparentAt.finalState {act : Edit Method α} (h : TransparentAt m act) :
    Edit.finalState (act (m.withChecks .strict)) =
      (Edit.finalState (act m)).withChecks .strict := by
  rw [h]
  cases act m <;> rfl

/-- The edit does the same whatever the method is set to check. -/
def IgnoresChecks (act : Edit Method α) : Prop :=
  ∀ m c, act (m.withChecks c) = reconfigured c (act m)

theorem IgnoresChecks.transparentAt {act : Edit Method α} (h : IgnoresChecks act) (m : Method) :
    TransparentAt m act := h m .strict

/-- A change of one instruction does not look at the checks. -/
theorem ignoresChecks_editInsn (id : InsnId) (act : Edit (Linked Insn) α) :
    IgnoresChecks (editInsn id act) := by
  intro m c
  cases hi : m.insn? id with
  | none =>
    have hi' : (m.withChecks c).insn? id = none := hi
    rw [editInsn_of_none hi, editInsn_of_none hi']
    rfl
  | some i =>
    have hi' : (m.withChecks c).insn? id = some i := hi
    apply result_ext
    · have hv : verdict (editInsn id act m) = verdict (act ⟨i, m.vars⟩) := verdict_editInsn hi
      rw [verdict_editInsn hi']
      cases hr : editInsn id act m <;> exact (hr ▸ hv).symm
    · have hf : finalState (editInsn id act m) = m.putInsn id (finalState (act ⟨i, m.vars⟩)) :=
        finalState_editInsn hi
      rw [finalState_editInsn hi']
      cases hr : editInsn id act m with
      | ok a s =>
        rw [hr] at hf
        exact congrArg (withChecks · c) hf.symm
      | error e s =>
        rw [hr] at hf
        exact congrArg (withChecks · c) hf.symm

theorem ignoresChecks_askPhi (id : InsnId) : IgnoresChecks (ask (·.phi id)) := by
  intro m c
  have hphi : (m.withChecks c).phi id = m.phi id := rfl
  simp only [ask, hphi]
  cases m.phi id <;> rfl

theorem ignoresChecks_takePhi (id : InsnId) : IgnoresChecks (takePhi id) := by
  intro m c
  have hphi : (m.withChecks c).phi id = m.phi id := rfl
  have hvars : (m.withChecks c).vars = m.vars := rfl
  simp only [takePhi, hphi]
  cases m.phi id with
  | error e => rfl
  | ok p =>
    simp only [hvars]
    cases m.vars.removeDefiner p.result <;> rfl

theorem transparentAt_bind {act : Edit Method α} {k : α → Edit Method β} (h : TransparentAt m act)
    (hk : ∀ a s, act m = .ok a s → TransparentAt s (k a)) : TransparentAt m (act >>= k) := by
  rw [TransparentAt, bind_apply, bind_apply, h]
  cases hr : act m with
  | error e s => rfl
  | ok a s => exact hk a s hr

theorem transparentAt_pure (m : Method) (a : α) : TransparentAt m (pure a) := rfl

theorem transparentAt_map {act : Edit Method α} (f : α → β) (h : TransparentAt m act) :
    TransparentAt m (f <$> act) := by
  rw [map_eq_pure_bind]
  exact transparentAt_bind h fun a s _ => transparentAt_pure s (f a)

/-! ## Checked edits -/

/-- The method is consistent and does not check itself. -/
structure Settled (m : Method) : Prop extends Consistent m where
  unchecked : m.checks.afterMutation = false

/-- The check that follows an edit is transparent where the edit leaves a consistent method. -/
theorem transparentAt_verified {act : Edit Method α} (h : TransparentAt m act)
    (hleft : (Edit.finalState (act m)).Settled) : TransparentAt m (verified act) := by
  rw [TransparentAt, verified_apply, verified_apply, h]
  cases hr : act m with
  | error e s => rfl
  | ok a s =>
    rw [hr] at hleft
    have hsettled : s.Settled := hleft
    have hloose : s.recheck = .ok () := recheck_of_unchecked hsettled.unchecked
    have hstrict : (s.withChecks .strict).recheck = .ok () := by
      rw [recheck_of_checked rfl]
      exact hsettled.toConsistent.verify rfl
    simp only [reconfigured, hloose, hstrict]

theorem keptBySteps_checks (c : Checks) : KeptBySteps fun m => m.checks = c where
  newVar _ _ _ h := h
  newNode _ _ h := h
  newPhi _ _ _ h := h
  addArg _ _ _ _ h _ := h
  removeArg _ _ _ _ h _ := h
  insertBinding _ _ _ _ _ _ h _ _ := h
  removeBinding _ _ _ _ h _ := h
  attachVar _ _ _ := keeps_editInsn fun _ _ h _ => h
  takePhi id m p h hp _ := by
    rcases finalState_takePhi hp with ⟨t, heq, -⟩
    rw [heq]
    exact h

/-- A method stays settled in an edit that keeps whatever removals keep. -/
theorem keeps_settled {act : Edit Method α} (hact : ∀ {P}, KeptByRemovals P → Keeps P act) :
    Keeps Settled act := by
  intro m h
  have hconsistent : (finalState (act m)).Consistent :=
    ⟨hact coherent_keptBySteps.removals m h.toCoherent,
      hact definitionsRecorded_keptByResults.keptBySteps.removals m h.definitions,
      hact VarTable.numbered_keptByChanges.keptBySteps.removals m h.numbered⟩
  refine ⟨hconsistent, ?_⟩
  rw [hact (keptBySteps_checks m.checks).removals m rfl]
  exact h.unchecked

theorem keeps_settled_unbindInsn (id : InsnId) : Keeps Settled (unbindInsn id) :=
  keeps_settled fun h => h.keeps_unbindInsn id

theorem keeps_settled_removePhi (id : InsnId) : Keeps Settled (removePhi id) :=
  keeps_settled fun h => h.keeps_removePhi id

/-! ## Removing phis -/

theorem Settled.transparentAt_unbindInsn (h : m.Settled) (id : InsnId) :
    TransparentAt m (unbindInsn id) := by
  have hleft := keeps_settled_unbindInsn id m h
  rw [unbindInsn, finalState_verified] at hleft
  exact transparentAt_verified ((ignoresChecks_editInsn id _).transparentAt m) hleft

theorem Settled.transparentAt_removePhi (h : m.Settled) (id : InsnId) :
    TransparentAt m (removePhi id) := by
  apply transparentAt_bind ((ignoresChecks_askPhi id).transparentAt m)
  intro p s hs
  have hsame : s = m := by
    rw [← finalState_ask (fun m => m.phi id) m, hs]
    rfl
  subst hsame
  exact transparentAt_bind (h.transparentAt_unbindInsn id) fun _ s' _ =>
    (ignoresChecks_takePhi id).transparentAt s'

theorem Settled.transparentAt_removePhis (h : m.Settled) (ids : List InsnId) :
    TransparentAt m (removePhis ids) := by
  -- each phi is removed from the settled method that the removals before it left
  have hloop : ∀ (ids : List InsnId) (m : Method), m.Settled →
      TransparentAt m (ids.mapM removePhi) := by
    intro ids
    induction ids with
    | nil =>
      intro m _
      exact transparentAt_pure m []
    | cons id rest ih =>
      intro m h
      rw [List.mapM_cons]
      apply transparentAt_bind (h.transparentAt_removePhi id)
      intro p s hs
      have hsettled : (Edit.finalState (removePhi id m)).Settled := keeps_settled_removePhi id m h
      rw [hs] at hsettled
      exact transparentAt_bind (ih s hsettled) fun ps s' _ => transparentAt_pure s' (p :: ps)
  exact transparentAt_bind (hloop ids.eraseDups m h) fun ps s _ => transparentAt_pure s ps.length

/-- The states through which removing phis leads: each phi is unbound, and then it is gone. -/
def removalStates : List InsnId → Method → List Method
  | [], _ => []
  | id :: rest, m =>
    match m.phi id with
    | .error _ => []
    | .ok _ =>
      finalState (unbindInsn id m) ::
        match removePhi id m with
        | .ok _ s => s :: removalStates rest s
        | .error _ s => [s]

theorem Settled.removalStates {ids : List InsnId} (h : m.Settled) :
    ∀ s ∈ removalStates ids m, s.Settled := by
  induction ids generalizing m with
  | nil => exact fun s hs => nomatch hs
  | cons id rest ih =>
    intro s hs
    unfold Method.removalStates at hs
    have hremoved := keeps_settled_removePhi id m h
    cases hp : m.phi id with
    | error e =>
      rw [hp] at hs
      cases hs
    | ok p =>
      simp only [hp] at hs
      rcases List.mem_cons.1 hs with rfl | hs
      · exact keeps_settled_unbindInsn id m h
      · cases hr : removePhi id m with
        | error e s' =>
          rw [hr] at hs hremoved
          rw [List.mem_singleton.1 hs]
          exact hremoved
        | ok q s' =>
          rw [hr] at hs hremoved
          rcases List.mem_cons.1 hs with rfl | hs
          · exact hremoved
          · exact ih hremoved s hs

end Method

/-! ## Calls -/

namespace Call

/-- The states inside a call in which a phi is unbound or gone and others are
still to be removed. -/
def passes (c : Call) (m : Method) : List Method :=
  match c.mutation with
  | .removePhi id => Method.removalStates [id] m
  | .removePhis ids => Method.removalStates ids.eraseDups m
  | _ => []

/-- The call keeps to SSA form: it does not fail to set an argument of a node, it takes over no
definition, and it leaves the choice of checks alone. -/
def KeepsForm (c : Call) (m : Method) : Prop :=
  c.spoilsNode m = false ∧ c.Sole m ∧ ∀ k, c.mutation ≠ .setChecks k

end Call

namespace Method

variable {m : Method} {c : Call}

theorem checks_next (hset : ∀ k, c.mutation ≠ .setChecks k) : (c.next m).checks = m.checks := by
  -- an edit of one instruction does not touch the checks
  have hedit : ∀ {α : Type} (id : InsnId) (act : Edit (Linked Insn) α),
      Keeps (fun s : Method => s.checks = m.checks) (verified (editInsn id act)) := by
    intro α id act
    apply keeps_verified
    apply keeps_editInsn
    intro s i hs _
    exact hs
  refine (keptBySteps_checks m.checks).keeps_next (c := c) (m := m) rfl ?_ ?_ ?_ ?_ ?_
  · intro k hk
    exact absurd hk (hset k)
  · intro id k a _
    exact hedit id (Insn.setArg k a) m rfl
  · intro id old new _
    exact hedit id (Insn.replaceArg old new) m rfl
  · intro id r _
    exact hedit id (Insn.setResult r) m rfl
  · intro id v _
    exact hedit id (Insn.assignResult v) m rfl

theorem Settled.next (h : m.Settled) (hc : c.KeepsForm m) : (c.next m).Settled := by
  refine ⟨h.toConsistent.next hc.1 hc.2.1, ?_⟩
  rw [checks_next hc.2.2]
  exact h.unchecked

theorem Settled.passes (h : m.Settled) : ∀ s ∈ c.passes m, s.Settled := by
  unfold Call.passes
  split
  · exact h.removalStates
  · exact h.removalStates
  · exact fun s hs => nomatch hs

/-- A call that keeps to SSA form does the same whether or not the method checks itself. -/
theorem Settled.transparentAt (h : m.Settled) (hc : c.KeepsForm m) : TransparentAt m c.edit := by
  have hleft := h.next hc
  -- most calls are a checked edit of one instruction
  have hchecked : ∀ {α : Type} (f : α → Answer) (id : InsnId) (act : Edit (Linked Insn) α),
      c.edit = f <$> verified (editInsn id act) → TransparentAt m c.edit := by
    intro α f id act heq
    rw [Call.next_eq, heq, finalState_map, finalState_verified] at hleft
    rw [heq]
    have hedit := (ignoresChecks_editInsn id act).transparentAt m
    exact transparentAt_map f (transparentAt_verified hedit hleft)
  unfold Call.edit at hchecked ⊢
  cases hm : c.mutation with
  | newVar reg version => rfl
  | newNode op => rfl
  | newPhi reg => rfl
  | removePhi phi => exact transparentAt_map _ (h.transparentAt_removePhi phi)
  | removePhis phis => exact transparentAt_map _ (h.transparentAt_removePhis phis)
  | setChecks k => exact absurd hm (hc.2.2 k)
  | _ => exact hm ▸ hchecked _ _ _ (by rw [hm]; rfl)

/-- Two runs of the same calls, one of which checks itself, go side by side. -/
theorem Settled.strict_run (h : m.Settled) {history : List Call}
    (hrun : Along (fun m c => c.KeepsForm m) m history) :
    (m.withChecks .strict).after history = (m.after history).withChecks .strict ∧
      (m.withChecks .strict).verdicts history = m.verdicts history := by
  -- the methods stay the same but for their checks
  induction history generalizing m with
  | nil => exact ⟨rfl, rfl⟩
  | cons c rest ih =>
    rcases hrun with ⟨hc, hrest⟩
    have hsame := h.transparentAt hc
    have hnext : c.next (m.withChecks .strict) = (c.next m).withChecks .strict := by
      rw [Call.next_eq, Call.next_eq, hsame.finalState]
    have hverdict : c.verdict (m.withChecks .strict) = c.verdict m := by
      rw [Call.verdict_eq, Call.verdict_eq, hsame.verdict]
    rcases ih (h.next hc) hrest with ⟨hafter, hverdicts⟩
    constructor
    · change (c.next (m.withChecks .strict)).after rest = _
      rw [hnext, hafter]
      rfl
    · rw [verdicts, verdicts, hverdict, hnext, hverdicts]

/-- **Checking is transparent.** Along a run that keeps to SSA form, on a method that does not check
itself, the strict check accepts every state, those inside the removal of phis included; and the
same calls on a method that checks itself strictly return the same, one by one, and leave the same
instructions and variables. -/
theorem strict_agrees {checks : Checks} (hunchecked : checks.afterMutation = false)
    {history : List Call} (h : Along (fun m c => c.KeepsForm m) { checks := checks } history) :
    (∀ front back, front ++ back = history →
      (({ checks := checks } : Method).after front).verify .strict = .ok () ∧
      (∀ c rest, back = c :: rest →
        ∀ s ∈ c.passes (({ checks := checks } : Method).after front), s.verify .strict = .ok ()) ∧
      ({ checks := .strict } : Method).after front =
        (({ checks := checks } : Method).after front).withChecks .strict) ∧
    ({ checks := .strict } : Method).verdicts history =
      ({ checks := checks } : Method).verdicts history := by
  have hempty : ({ checks := checks } : Method).Settled := ⟨consistent_empty checks, hunchecked⟩
  refine ⟨?_, (hempty.strict_run h).2⟩
  intro front back hsplit
  rw [← hsplit, along_append] at h
  have hsettled : (({ checks := checks } : Method).after front).Settled := by
    refine invariant_after (G := fun m c => c.KeepsForm m) ?_ hempty h.1
    intro m c hm hc
    exact hm.next hc
  refine ⟨hsettled.toConsistent.verify rfl, ?_, (hempty.strict_run h.1).1⟩
  intro c rest _ s hs
  have hpassed : s.Settled := hsettled.passes s hs
  exact hpassed.toConsistent.verify rfl

/-- A node defines a variable, a phi reads it, defines another one and is removed. -/
theorem strict_agrees_on_removal :
    let history : List Call := [⟨.newVar 0 0, {}⟩, ⟨.newVar 0 1, {}⟩, ⟨.newNode .const, {}⟩,
      ⟨.setResult ⟨0⟩ { id := ⟨0⟩, reg := 0, var := some ⟨0⟩ }, {}⟩, ⟨.newPhi 0, ⟨1⟩⟩,
      ⟨.bindPhiArg ⟨1⟩ { id := ⟨2⟩, reg := 0, var := some ⟨0⟩ } ⟨7⟩, {}⟩,
        ⟨.assignResult ⟨1⟩ ⟨1⟩, {}⟩,
      ⟨.removePhi ⟨1⟩, {}⟩]
    Along (fun m c => c.KeepsForm m) {} history ∧
      ({ checks := .strict } : Method).verdicts history = ({} : Method).verdicts history := by
  intro history
  have hkeeps : Along (fun m c => c.KeepsForm m) {} history :=
    ⟨⟨by decide, by decide, nofun⟩, ⟨by decide, by decide, nofun⟩, ⟨by decide, by decide, nofun⟩,
      ⟨by decide, by decide, nofun⟩, ⟨by decide, by decide, nofun⟩, ⟨by decide, by decide, nofun⟩,
      ⟨by decide, by decide, nofun⟩, ⟨by decide, by decide, nofun⟩, trivial⟩
  exact ⟨hkeeps, (strict_agrees rfl hkeeps).2⟩

end Method

end SsaForm
