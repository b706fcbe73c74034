import SsaForm.Proofs.Transparency

/-!
# SsaForm.Proofs.Rechecking — what checking after a mutation shows

A method that checks itself after every mutation is meant to report more faults and to do the same.
`Call.Observed c m` says so of one call, by comparing the method that checks itself
(`rechecking true`) with the one that does not: the calls leave the same instructions and variables,
the checked call is refused exactly where the other one is or where the check refuses what that
leaves, and where both succeed they return the same.

No assumption is made about the method: its records may be corrupt and any check may be chosen.

* A call that edits one instruction is observed (`observed_of_edited`): its check comes last.
* Removing a phi is a checked unbinding followed by an unchecked removal. It is observed exactly if
  the check accepts the unbound phi and, where the removal succeeds, what the removal leaves
  (`observed_iff`).
-/

namespace SsaForm

open Edit

namespace Method

/-- The method set to check itself after every mutation, or not to. -/
def rechecking (m : Method) (b : Bool) : Method :=
  m.withChecks { m.checks with afterMutation := b }

/-! ## Checked edits -/

section Checked

variable {α : Type} {m : Method} {c : Checks} {act : Edit Method α}

/-- The outcome with checks that are made at the end, from the one without. -/
def rechecked (c : Checks) : EStateM.Result Fault Method α → EStateM.Result Fault Method α
  | .ok a s =>
    match s.verify c with
    | .ok _ => .ok a (s.withChecks c)
    | .error e => .error e (s.withChecks c)
  | .error e s => .error e (s.withChecks c)

theorem finalState_rechecked (r : EStateM.Result Fault Method α) :
    finalState (rechecked c r) = (finalState r).withChecks c := by
  cases r with
  | error e s => rfl
  | ok a s =>
    simp only [rechecked, finalState]
    cases s.verify c <;> rfl

theorem verdict_rechecked (r : EStateM.Result Fault Method α) :
    verdict (rechecked c r) = (do
      let a ← verdict r
      (finalState r).verify c
      return a) := by
  cases r with
  | error e s => rfl
  | ok a s =>
    simp only [rechecked, finalState]
    cases s.verify c <;> rfl

/-- A checked edit shows what the edit does, and what the check finds then. -/
theorem verified_withChecks (hc : c.afterMutation = true) (hact : IgnoresChecks act)
    (h : (finalState (act m)).checks.afterMutation = false) :
    verified act (m.withChecks c) = rechecked c (verified act m) := by
  rw [verified_of_unchecked h, verified_apply, hact m c]
  cases hr : act m with
  | error e s => rfl
  | ok a s =>
    have hrecheck : (s.withChecks c).recheck = s.verify c := recheck_of_checked hc
    cases hv : s.verify c with
    | ok u => simp only [reconfigured, rechecked, hrecheck, hv]
    | error e => simp only [reconfigured, rechecked, hrecheck, hv]

theorem checks_editInsn (id : InsnId) (act : Edit (Linked Insn) α) (m : Method) :
    (finalState (editInsn id act m)).checks = m.checks := by
  have hkept : Keeps (·.checks = m.checks) (editInsn id act) := keeps_editInsn fun _ _ h _ => h
  exact hkept m rfl

end Checked

end Method

/-! ## Calls -/

namespace Mutation

/-- The one instruction that the call names: it edits it, or removes it if it is a phi. -/
def target? : Mutation → Option InsnId
  | .removePhi id => some id
  | c => c.edited?

end Mutation

namespace Call

/-- Checking after the call shows what the call does and what the check finds then. -/
structure Observed (c : Call) (m : Method) : Prop where
  slots : (c.next (m.rechecking true)).slots = (c.next (m.rechecking false)).slots
  vars : (c.next (m.rechecking true)).vars = (c.next (m.rechecking false)).vars
  refused : (∃ e, c.verdict (m.rechecking true) = .error e) ↔
    (∃ e, c.verdict (m.rechecking false) = .error e) ∨
      ∃ e, (c.next (m.rechecking false)).verify (c.next (m.rechecking false)).checks = .error e
  value : ∀ a b, c.verdict (m.rechecking true) = .ok a → c.verdict (m.rechecking false) = .ok b →
    a = b

end Call

namespace Method

variable {α : Type} {m : Method} {c : Call}

/-- A call is observed if all that checking changes is a check at the end. -/
theorem observed_of_rechecked {f : α → Answer} {act : Edit Method α} (hedit : c.edit = f <$> act)
    (hchecks : (finalState (act (m.rechecking false))).checks = (m.rechecking false).checks)
    (h : act (m.rechecking true) =
      rechecked (m.rechecking true).checks (act (m.rechecking false))) :
    c.Observed m := by
  have hnext : c.next (m.rechecking true) =
      (c.next (m.rechecking false)).withChecks (m.rechecking true).checks := by
    rw [Call.next_eq, Call.next_eq, hedit, finalState_map, finalState_map, h, finalState_rechecked]
  have hleft : (c.next (m.rechecking false)).checks = (m.rechecking false).checks := by
    rw [Call.next_eq, hedit, finalState_map, hchecks]
  have hverdict : c.verdict (m.rechecking true) = (do
      let a ← c.verdict (m.rechecking false)
      (c.next (m.rechecking false)).verify (m.rechecking true).checks
      return a) := by
    rw [Call.verdict_eq, Call.verdict_eq, Call.next_eq, hedit, finalState_map, verdict_map,
      verdict_map, h, verdict_rechecked]
    cases verdict (act (m.rechecking false)) with
    | error e => rfl
    | ok a =>
      cases (finalState (act (m.rechecking false))).verify (m.rechecking true).checks <;> rfl
  -- whether it is asked for after mutations makes no difference to what the check looks at
  have hverify : (c.next (m.rechecking false)).verify (m.rechecking true).checks =
      (c.next (m.rechecking false)).verify (c.next (m.rechecking false)).checks := by
    rw [hleft]
    rfl
  rw [hverify] at hverdict
  refine ⟨by rw [hnext]; rfl, by rw [hnext]; rfl, ?_, ?_⟩
  · rw [hverdict]
    cases c.verdict (m.rechecking false) with
    | error e => simp [bind, Except.bind]
    | ok a =>
      cases (c.next (m.rechecking false)).verify (c.next (m.rechecking false)).checks <;>
        simp [bind, Except.bind, pure, Except.pure]
  · intro a b ha hb
    rw [hverdict, hb, bind_eq_ok] at ha
    rcases ha with ⟨_, hok, hrest⟩
    cases hok
    rcases bind_eq_ok.1 hrest with ⟨_, -, hpure⟩
    cases hpure
    rfl

/-- The check of a call that edits one instruction comes last. -/
theorem observed_of_edited {id : InsnId} (h : c.mutation.edited? = some id) (m : Method) :
    c.Observed m := by
  rcases Call.edit_of_edited? h with ⟨α, f, act, hedit⟩
  have hkept : (finalState (editInsn id act (m.rechecking false))).checks =
      (m.rechecking false).checks := checks_editInsn id act _
  refine observed_of_rechecked hedit ?_ ?_
  · rw [finalState_verified, hkept]
  · refine verified_withChecks (m := m.rechecking false) (c := (m.rechecking true).checks) rfl
      (ignoresChecks_editInsn id act) ?_
    rw [hkept]
    rfl

/-! ## Removing a phi -/

/-- The check accepts the method in which the phi is unbound but still there, and, where the phi can
be taken out, the method without it. -/
def RemovalAccepted (id : InsnId) (m : Method) : Prop :=
  ∀ p s, m.insn? id = some (.phi p) → unbindInsn id m = .ok () s →
    s.verify s.checks = .ok () ∧ ∀ q s', takePhi id s = .ok q s' → s'.verify s'.checks = .ok ()

theorem checks_takePhi (id : InsnId) (m : Method) :
    (finalState (takePhi id m)).checks = m.checks := by
  cases hp : m.phi id with
  | error e =>
    simp only [takePhi, hp]
    rfl
  | ok p =>
    rcases finalState_takePhi (phi_eq_ok.1 hp) with ⟨t, heq, -⟩
    rw [heq]
    rfl

section Removing

variable {id : InsnId} {k : Checks} {p : Phi} {s : Method}

/-- A removal goes on to take the phi out where the unbinding has succeeded. -/
theorem removePhi_of_phi (hp : m.phi id = .ok p) :
    removePhi id m = (unbindInsn id >>= fun _ => takePhi id) m :=
  bind_of_ok (ask_of_ok hp)

theorem checks_unbindInsn (id : InsnId) (m : Method) :
    (finalState (unbindInsn id m)).checks = m.checks := by
  rw [unbindInsn, finalState_verified, checks_editInsn]

theorem checks_removePhi (id : InsnId) (m : Method) :
    (finalState (removePhi id m)).checks = m.checks := by
  have hkept : Keeps (·.checks = m.checks) (removePhi id) := by
    refine keeps_bind (keeps_ask _) fun p => keeps_bind ?_ fun u => ?_
    · intro s hs
      rw [checks_unbindInsn, hs]
    · intro s hs
      rw [checks_takePhi, hs]
  exact hkept m rfl

theorem unbindInsn_withChecks (hm : m.checks.afterMutation = false) (hk : k.afterMutation = true)
    (id : InsnId) : unbindInsn id (m.withChecks k) = rechecked k (unbindInsn id m) :=
  verified_withChecks hk (ignoresChecks_editInsn id _) (by rw [checks_editInsn, hm])

/-- Between unbinding a phi and taking it out, a removal that checks itself may stop. -/
theorem removePhi_withChecks (hm : m.checks.afterMutation = false) (hk : k.afterMutation = true)
    (hp : m.phi id = .ok p) {s : Method} (hs : unbindInsn id m = .ok () s) :
    removePhi id (m.withChecks k) = match s.verify k with
      | .ok _ => reconfigured k (takePhi id s)
      | .error e => .error e (s.withChecks k) := by
  have hunbind := unbindInsn_withChecks hm hk id
  rw [hs] at hunbind
  rw [removePhi_of_phi (show (m.withChecks k).phi id = .ok p from hp)]
  cases hv : s.verify k with
  | ok u =>
    simp only [rechecked, hv] at hunbind
    rw [bind_of_ok hunbind, ignoresChecks_takePhi id s k]
  | error e =>
    simp only [rechecked, hv] at hunbind
    rw [bind_of_error hunbind]

/-- Where the check accepts both states, a removal that checks itself does the same and passes. -/
theorem RemovalAccepted.removePhi_withChecks (hm : m.checks.afterMutation = false)
    (h : RemovalAccepted id m) :
    removePhi id (m.rechecking true) = rechecked (m.rechecking true).checks (removePhi id m) := by
  -- the checks stay as they are, but for the question whether mutations ask for them
  have hverify : ∀ s : Method, s.checks = m.checks →
      s.verify (m.rechecking true).checks = s.verify s.checks := fun s hs => by rw [hs]; rfl
  cases hp : m.phi id with
  | error e =>
    have hplain : removePhi id m = .error e m := bind_of_error (ask_of_error hp)
    have hchecked : removePhi id (m.rechecking true) = .error e (m.rechecking true) :=
      bind_of_error (ask_of_error hp)
    rw [hplain, hchecked]
    rfl
  | ok p =>
    have hkept := checks_unbindInsn id m
    cases hs : unbindInsn id m with
    | error e s =>
      have hunbind := unbindInsn_withChecks hm (k := (m.rechecking true).checks) rfl id
      rw [hs] at hunbind
      rw [removePhi_of_phi hp, bind_of_error hs,
        removePhi_of_phi (show (m.rechecking true).phi id = .ok p from hp)]
      exact bind_of_error hunbind
    | ok u s =>
      rw [hs] at hkept
      rcases h p s (phi_eq_ok.1 hp) hs with ⟨hunbound, hgone⟩
      rw [← hverify s hkept] at hunbound
      have hchecked := Method.removePhi_withChecks hm (k := (m.rechecking true).checks) rfl hp hs
      simp only [hunbound] at hchecked
      rw [removePhi_of_phi hp, bind_of_ok hs]
      refine hchecked.trans ?_
      have htaken := checks_takePhi id s
      cases hr : takePhi id s with
      | error e s' => rfl
      | ok q s' =>
        rw [hr] at htaken
        have hfinal := hgone q s' hr
        rw [← hverify s' (htaken.trans hkept)] at hfinal
        simp only [reconfigured, rechecked, hfinal]

/-- A refused check between the two halves leaves the phi where it was. -/
theorem slots_takePhi_ne (hp : s.insn? id = some (.phi p)) :
    s.slots ≠ (finalState (takePhi id s)).slots := by
  intro heq
  rcases finalState_takePhi hp with ⟨t, hfinal, -⟩
  have hgone : (finalState (takePhi id s)).insn? id = none := by
    rw [hfinal]
    exact (insn?_without s id id).trans (if_pos rfl)
  rw [insn?, heq] at hp
  exact nomatch hp.symm.trans hgone

end Removing

/-- An observed removal passes the check on the way and at the end. -/
theorem removalAccepted_of_observed {phi : InsnId} (hc : c.mutation = .removePhi phi)
    (h : c.Observed m) : RemovalAccepted phi (m.rechecking false) := by
  intro p s hp hs
  have hedit : c.edit = .phi <$> removePhi phi := by rw [Call.edit, hc]; rfl
  have hplain : c.next (m.rechecking false) = finalState (takePhi phi s) := by
    rw [Call.next_eq, hedit, finalState_map, removePhi_of_phi (phi_eq_ok.2 hp), bind_of_ok hs]
  have hkept : s.checks = (m.rechecking false).checks := by
    have hkept := checks_unbindInsn phi (m.rechecking false)
    rwa [hs] at hkept
  have hchecked := removePhi_withChecks (m := m.rechecking false) (k := (m.rechecking true).checks)
    rfl rfl (phi_eq_ok.2 hp) hs
  rw [show s.verify (m.rechecking true).checks = s.verify s.checks by rw [hkept]; rfl] at hchecked
  -- were the check to refuse the unbound phi, the phi would stay
  have haccepted : s.verify s.checks = .ok () := by
    cases hv : s.verify s.checks with
    | ok u => rfl
    | error e =>
      simp only [hv] at hchecked
      have hstays : c.next (m.rechecking true) = s.withChecks (m.rechecking true).checks := by
        rw [Call.next_eq, hedit, finalState_map]
        exact congrArg finalState hchecked
      have hslots := h.slots
      rw [hplain, hstays] at hslots
      exact absurd hslots (slots_takePhi_ne (insn?_unbindInsn hp hs))
  refine ⟨haccepted, fun q s' hq => ?_⟩
  simp only [haccepted, hq] at hchecked
  -- the checked removal succeeds, so there is nothing for the check to find at the end
  have hok : c.verdict (m.rechecking true) = .ok (.phi q) := by
    rw [Call.verdict_eq, hedit, verdict_map]
    exact congrArg (fun r => (verdict r).map Answer.phi) hchecked
  cases hv : s'.verify s'.checks with
  | ok u => rfl
  | error e =>
    have hleft : c.next (m.rechecking false) = s' := by rw [hplain, hq]; rfl
    rcases h.refused.2 (Or.inr ⟨e, by rw [hleft, hv]⟩) with ⟨e', he'⟩
    rw [hok] at he'
    cases he'

/-- **Checking after a mutation only observes, but for the removal of a phi.** A call that names one
instruction is observed, on any method, if it is no removal of a phi; and a removal of a phi is
observed exactly if the check accepts the method in which the phi is unbound and still there, and,
where the phi can be taken out, the method without it. -/
theorem observed_iff (m : Method) {id : InsnId} (h : c.mutation.target? = some id) :
    c.Observed m ↔
      ∀ phi, c.mutation = .removePhi phi → RemovalAccepted phi (m.rechecking false) := by
  refine ⟨fun hobserved phi hphi => removalAccepted_of_observed hphi hobserved, fun haccepted => ?_⟩
  unfold Mutation.target? at h
  split at h
  · rename_i phi hphi
    have hedit : c.edit = .phi <$> removePhi phi := by rw [Call.edit, hphi]; rfl
    exact observed_of_rechecked hedit (checks_removePhi phi _)
      ((haccepted phi hphi).removePhi_withChecks rfl)
  · exact observed_of_edited h m

/-- The only phi of a method is unbound and removed. -/
theorem observed_iff_only_phi :
    let m := ({} : Method).after [⟨.newPhi 0, ⟨0⟩⟩, ⟨.bindPhi ⟨0⟩ ⟨7⟩, ⟨1⟩⟩]
    (⟨.removePhi ⟨0⟩, {}⟩ : Call).mutation.target? = some ⟨0⟩ ∧
      (⟨.removePhi ⟨0⟩, {}⟩ : Call).Observed m := by
  intro m
  refine ⟨rfl, (observed_iff m rfl).2 fun phi hphi p s _ hs => ?_⟩
  cases hphi
  cases hs
  refine ⟨by decide, fun q s' hq => ?_⟩
  cases hq
  decide

/-- A phi carries more arguments than the method allows, and another phi is removed: the check that
interrupts the removal refuses the method, and the phi stays. The method that does not check itself
loses it. -/
theorem removal_interrupted :
    let m := ({ checks := { Checks.strict with maxPhiArgs := 1 } } : Method).after
      [⟨.newPhi 0, ⟨0⟩⟩, ⟨.newPhi 1, ⟨1⟩⟩, ⟨.bindPhi ⟨1⟩ ⟨0⟩, ⟨2⟩⟩, ⟨.bindPhi ⟨1⟩ ⟨1⟩, ⟨3⟩⟩]
    let c : Call := ⟨.removePhi ⟨0⟩, {}⟩
    c.mutation.target? = some ⟨0⟩ ∧ ¬ c.Observed m ∧
      (c.next (m.rechecking true)).insn? ⟨0⟩ = some (.phi (.ofResult ⟨0⟩ 0 ⟨0⟩)) ∧
      (c.next (m.rechecking false)).insn? ⟨0⟩ = none := by
  intro m c
  refine ⟨rfl, fun h => ?_, by decide, by decide⟩
  have hslots : (c.next (m.rechecking true)).slots ≠ (c.next (m.rechecking false)).slots := by
    decide
  exact hslots h.slots

/-- What a removal leaves is not checked: a node has taken over the result of a phi, the phi goes
and with it the definition, and the call succeeds. -/
example :
    let m := ({ checks := .strict } : Method).after
      [⟨.newVar 0 0, {}⟩, ⟨.newPhi 0, ⟨0⟩⟩, ⟨.assignResult ⟨0⟩ ⟨0⟩, {}⟩, ⟨.newNode .const, {}⟩,
        ⟨.setResult ⟨1⟩ { id := ⟨0⟩, reg := 0, var := some ⟨0⟩, owner := some ⟨0⟩ }, {}⟩]
    let c : Call := ⟨.removePhi ⟨0⟩, {}⟩
    (c.verdict m).isOk = true ∧
      (c.next m).verify .strict = .error (.inconsistent (.foreignDefinition ⟨1⟩ ⟨0⟩)) := by
  decide

end Method

end SsaForm
