import SsaForm.Consistency.Verify
import SsaForm.Proofs.TableChanges

/-!
# SsaForm.Proofs.Agreement — what the check accepts

The consistency check is a sequence of loops, each of which stops at its first finding.
`Method.AgreesUnder c` says without any order what the loops look for, one field for each relation:
what a phi owes by itself, which consumers a variable lists, and how arguments and results relate to
the recorded uses and definitions (`Method.UseListsAgree`).

Each part of the check is an equation here (`..._eq_ok`). Put together they say that a method is
accepted if and only if it agrees (`verify_accepts_iff`). Nothing is assumed about the method: its
table may have been changed at will, and every choice of checks is covered.
-/

namespace SsaForm

/-! ## Sequences of checks -/

section Sequences

variable {b : Bool} {x y : Except Fault Unit}

theorem then_eq_ok : (x >>= fun _ => y) = .ok () ↔ x = .ok () ∧ y = .ok () := by
  rw [bind_eq_ok]
  exact ⟨fun ⟨_, hx, hy⟩ => ⟨hx, hy⟩, fun ⟨hx, hy⟩ => ⟨(), hx, hy⟩⟩

/-- A check that may be disabled, before the others. -/
theorem enabled_then_eq_ok :
    (if b = true then (x >>= fun _ => y) else y) = .ok () ↔ (b = true → x = .ok ()) ∧ y = .ok () := by
  cases b with
  | true => simp [then_eq_ok]
  | false => simp

/-- A check that may be disabled, after the others. -/
theorem enabled_eq_ok : (if b = true then x else pure ()) = .ok () ↔ (b = true → x = .ok ()) := by
  cases b with
  | true => simp
  | false => simp [pure, Except.pure]

end Sequences

namespace VarTable

/-- A check of a variable that is looked up first. -/
theorem find_then_eq_ok {t : VarTable} {v : VarId} {f : Variable → Except Fault Unit} :
    (t.find v >>= f) = .ok () ↔ ∃ x, t.get? v = some x ∧ f x = .ok () := by
  simp only [bind_eq_ok, find_eq_ok]

/-- A check of every variable of a table. -/
theorem forM_vars_eq_ok {t : VarTable} {f : Variable → Except Fault Unit} :
    t.vars.forM f = .ok () ↔ ∀ v x, t.get? v = some x → f x = .ok () := by
  rw [forM_eq_ok]
  simp only [mem_vars]
  exact ⟨fun h v x hx => h x ⟨v, hx⟩, fun h x ⟨v, hx⟩ => h v x hx⟩

end VarTable

/-! ## One phi by itself -/

namespace Phi

variable {c : Checks} {t : VarTable} {p : Phi}

theorem checkFlags_eq_ok : p.checkFlags = .ok () ↔ p.attributes.contains .phi = true :=
  require_eq_ok

theorem checkArgCount_eq_ok {limit : Nat} :
    p.checkArgCount limit = .ok () ↔ (limit ≠ 0 → p.bindings.length ≤ limit) := by
  simp only [checkArgCount, require_eq_ok, Bool.or_eq_true, beq_iff_eq, decide_eq_true_eq]
  exact Decidable.or_iff_not_imp_left

theorem checkOwnership_eq_ok : p.checkOwnership = .ok () ↔ ∀ r ∈ p.args, r.owner = some p.id := by
  simp only [checkOwnership, forM_eq_ok, require_eq_ok, beq_iff_eq]

theorem checkPreds_eq_ok : p.checkPreds = .ok () ↔ p.preds.Nodup := by
  have hnone : p.checkPreds = .ok () ↔ firstRepeat? [] p.preds = none := by
    unfold checkPreds
    cases firstRepeat? [] p.preds <;> simp
  rw [hnone, firstRepeat?_eq_none]
  exact and_iff_left fun _ _ => List.not_mem_nil

theorem checkListed_eq_ok :
    p.checkListed t = .ok () ↔ ∀ v ∈ p.usedVars, ∃ x, t.get? v = some x ∧ p.id ∈ x.consumers := by
  simp only [checkListed, forM_eq_ok, VarTable.find_then_eq_ok, require_eq_ok, decide_eq_true_eq]

theorem check_eq_ok :
    p.check c t = .ok () ↔ (c.phiFlags = true → p.attributes.contains .phi = true) ∧
      (c.maxPhiArgs ≠ 0 → p.bindings.length ≤ c.maxPhiArgs) ∧
      (c.parallelBindings = true → ∀ r ∈ p.args, r.owner = some p.id) ∧
      (c.uniquePredecessors = true → p.preds.Nodup) ∧
      (c.backReferences = true →
        ∀ v ∈ p.usedVars, ∃ x, t.get? v = some x ∧ p.id ∈ x.consumers) := by
  rw [← checkFlags_eq_ok, ← checkArgCount_eq_ok, ← checkOwnership_eq_ok, ← checkPreds_eq_ok,
    ← checkListed_eq_ok]
  unfold check
  rw [enabled_then_eq_ok, then_eq_ok, enabled_then_eq_ok, enabled_then_eq_ok, enabled_eq_ok]

end Phi

namespace Method

variable {m : Method}

/-! ## Consumers -/

theorem phiReads_iff {id : InsnId} {v : VarId} :
    m.phiReads id v = true ↔ ∃ p, m.insn? id = some (.phi p) ∧ v ∈ p.usedVars := by
  have hphi : ∀ p, ((m.insn? id).bind Insn.phi?) = some p ↔ m.insn? id = some (.phi p) := by
    intro p
    cases m.insn? id with
    | none => simp
    | some i => cases i <;> simp [Insn.phi?]
  simp only [phiReads, Option.any_eq_true, hphi, decide_eq_true_eq]

theorem checkConsumers_eq_ok :
    m.checkConsumers = .ok () ↔ ∀ v x, m.vars.get? v = some x → ∀ id ∈ x.consumers,
      ∃ p, m.insn? id = some (.phi p) ∧ x.id ∈ p.usedVars := by
  unfold checkConsumers
  rw [VarTable.forM_vars_eq_ok]
  simp only [forM_eq_ok, require_eq_ok, phiReads_iff]

/-! ## Uses and definitions -/

/-- What the instructions owe to the recorded uses and definitions, and the other way round. An
argument is recorded under its variable at the place where it stands; of a result only the instance
is compared. A recorded place has to be that of some argument (or result) that names a variable. -/
structure UseListsAgree (m : Method) : Prop where
  args : ∀ i ∈ m.insns, ∀ r ∈ i.registers, ∀ v, r.var = some v →
    r.owner = some i.id ∧ ∃ x, m.vars.get? v = some x ∧ ⟨r.id, some i.id⟩ ∈ x.uses
  results : ∀ i ∈ m.insns, ∀ r, i.result? = some r → ∀ v, r.var = some v →
    ∃ x s, m.vars.get? v = some x ∧ x.definition = some s ∧ s.operand = r.id
  definitions : ∀ v x, m.vars.get? v = some x → ∀ s, x.definition = some s →
    ∃ i ∈ m.insns, s.insn = some i.id ∧
      ∃ r w, i.result? = some r ∧ r.id = s.operand ∧ r.var = some w
  uses : ∀ v x, m.vars.get? v = some x → ∀ s ∈ x.uses,
    ∃ i ∈ m.insns, s.insn = some i.id ∧
      ∃ r w, r ∈ i.registers ∧ r.id = s.operand ∧ r.var = some w

theorem checkArg_eq_ok {t : VarTable} {holder : InsnId} {r : Register} :
    checkArg t holder r = .ok () ↔ ∀ v, r.var = some v →
      r.owner = some holder ∧ ∃ x, t.get? v = some x ∧ ⟨r.id, some holder⟩ ∈ x.uses := by
  unfold checkArg
  cases r.var with
  | none => simp
  | some v =>
    simp only [then_eq_ok, VarTable.find_then_eq_ok, require_eq_ok, beq_iff_eq, decide_eq_true_eq,
      Option.some.injEq, forall_eq']
    refine and_congr_right fun howner => ?_
    rw [Register.site, howner]

theorem checkResult_eq_ok {t : VarTable} {holder : InsnId} {r : Register} :
    checkResult t holder r = .ok () ↔ ∀ v, r.var = some v →
      ∃ x s, t.get? v = some x ∧ x.definition = some s ∧ s.operand = r.id := by
  unfold checkResult
  cases r.var with
  | none => simp
  | some v =>
    simp only [VarTable.find_then_eq_ok, require_eq_ok, Variable.definedBy_iff, Option.some.injEq,
      forall_eq', exists_and_left]

theorem checkInsn_eq_ok {t : VarTable} {i : Insn} :
    checkInsn t i = .ok () ↔ (∀ r ∈ i.registers, checkArg t i.id r = .ok ()) ∧
      ∀ r, i.result? = some r → checkResult t i.id r = .ok () := by
  unfold checkInsn
  simp only [then_eq_ok, forM_eq_ok, Option.mem_toList]

/-- A site lies among the places that instructions give if it is one that a live instruction gives. -/
theorem isAmong_flatMap {f : Insn → List Register} {s : Site} :
    isAmong (m.insns.flatMap fun i =>
      ((f i).filter (·.var.isSome)).map fun r => (r.id, i.id)) s = true ↔
      ∃ i ∈ m.insns, s.insn = some i.id ∧
        ∃ r w, r ∈ f i ∧ r.id = s.operand ∧ r.var = some w := by
  simp only [isAmong, Option.any_eq_true, decide_eq_true_eq, List.mem_flatMap, List.mem_map,
    List.mem_filter, Option.isSome_iff_exists, Prod.mk.injEq]
  constructor
  · rintro ⟨_, hs, i, hi, r, ⟨hr, w, hw⟩, hid, rfl⟩
    exact ⟨i, hi, hs, r, w, hr, hid, hw⟩
  · rintro ⟨i, hi, hs, r, w, hr, hid, hw⟩
    exact ⟨i.id, hs, i, hi, r, ⟨hr, w, hw⟩, hid, rfl⟩

theorem isAmong_liveUses {s : Site} :
    isAmong m.liveUses s = true ↔ ∃ i ∈ m.insns, s.insn = some i.id ∧
      ∃ r w, r ∈ i.registers ∧ r.id = s.operand ∧ r.var = some w :=
  isAmong_flatMap

theorem isAmong_liveDefs {s : Site} :
    isAmong m.liveDefs s = true ↔ ∃ i ∈ m.insns, s.insn = some i.id ∧
      ∃ r w, i.result? = some r ∧ r.id = s.operand ∧ r.var = some w := by
  rw [liveDefs, isAmong_flatMap]
  simp only [Option.mem_toList]

theorem checkRecords_eq_ok {uses defs : List (OperandId × InsnId)} {x : Variable} :
    checkRecords uses defs x = .ok () ↔
      (∀ s, x.definition = some s → isAmong defs s = true) ∧ ∀ s ∈ x.uses, isAmong uses s = true := by
  unfold checkRecords
  simp only [then_eq_ok, forM_eq_ok, require_eq_ok, Option.mem_toList]

theorem checkUseLists_eq_ok : m.checkUseLists = .ok () ↔ m.UseListsAgree := by
  have hpasses : m.checkUseLists = .ok () ↔ (∀ i ∈ m.insns, checkInsn m.vars i = .ok ()) ∧
      ∀ v x, m.vars.get? v = some x → checkRecords m.liveUses m.liveDefs x = .ok () := by
    unfold checkUseLists
    rw [then_eq_ok, VarTable.forM_vars_eq_ok, forM_eq_ok]
  rw [hpasses]
  simp only [checkInsn_eq_ok, checkArg_eq_ok, checkResult_eq_ok, checkRecords_eq_ok,
    isAmong_liveUses, isAmong_liveDefs]
  constructor
  · rintro ⟨hinsns, hvars⟩
    exact {
      args := fun i hi => (hinsns i hi).1
      results := fun i hi => (hinsns i hi).2
      definitions := fun v x hx => (hvars v x hx).1
      uses := fun v x hx => (hvars v x hx).2 }
  · intro h
    exact ⟨fun i hi => ⟨h.args i hi, h.results i hi⟩,
      fun v x hx => ⟨h.definitions v x hx, h.uses v x hx⟩⟩

/-! ## The whole method -/

/-- What has to hold of a method for the checks `c`: of each relation, if it is looked at. -/
structure AgreesUnder (m : Method) (c : Checks) : Prop where
  /-- Phis carry their markers. -/
  flags : c.phiFlags = true → ∀ p ∈ m.phis, p.attributes.contains .phi = true
  /-- No phi has more arguments than allowed. -/
  limit : c.maxPhiArgs ≠ 0 → ∀ p ∈ m.phis, p.bindings.length ≤ c.maxPhiArgs
  /-- Phis own their arguments. -/
  owned : c.parallelBindings = true → ∀ p ∈ m.phis, ∀ r ∈ p.args, r.owner = some p.id
  /-- No phi binds a predecessor twice. -/
  preds : c.uniquePredecessors = true → ∀ p ∈ m.phis, p.preds.Nodup
  /-- What a phi reads is in the table and lists the phi. -/
  listed : c.backReferences = true → ∀ p ∈ m.phis, ∀ v ∈ p.usedVars,
    ∃ x, m.vars.get? v = some x ∧ p.id ∈ x.consumers
  /-- What a variable lists is a live phi that reads the variable, by the identity that it carries. -/
  consumers : c.backReferences = true → ∀ v x, m.vars.get? v = some x → ∀ id ∈ x.consumers,
    ∃ p, m.insn? id = some (.phi p) ∧ x.id ∈ p.usedVars
  /-- Arguments and results agree with the recorded uses and definitions. -/
  useLists : c.useLists = true → m.UseListsAgree

theorem checkRelations_eq_ok {c : Checks} :
    m.checkRelations c = .ok () ↔ (∀ p ∈ m.phis, p.check c m.vars = .ok ()) ∧
      (c.backReferences = true → m.checkConsumers = .ok ()) ∧
      (c.useLists = true → m.checkUseLists = .ok ()) := by
  unfold checkRelations
  rw [then_eq_ok, enabled_then_eq_ok, enabled_eq_ok, forM_eq_ok]

/-- Not looking at the method makes no difference: without a relation to look at nothing is found. -/
theorem verify_eq_checkRelations (m : Method) (c : Checks) : m.verify c = m.checkRelations c := by
  unfold verify
  by_cases hany : c.anyEnabled = true
  · rw [if_pos hany]
  · rw [if_neg hany]
    simp only [Checks.anyEnabled, Bool.or_eq_true, bne_iff_ne, not_or, Decidable.not_not] at hany
    rcases hany with ⟨⟨⟨⟨⟨howned, hpreds⟩, hback⟩, huses⟩, hflags⟩, hlimit⟩
    refine (checkRelations_eq_ok.2 ⟨fun p _ => ?_, (absurd · hback), (absurd · huses)⟩).symm
    exact Phi.check_eq_ok.2 ⟨(absurd · hflags), (absurd hlimit ·), (absurd · howned),
      (absurd · hpreds), (absurd · hback)⟩

theorem verify_eq_ok {c : Checks} :
    m.verify c = .ok () ↔ (∀ p ∈ m.phis, p.check c m.vars = .ok ()) ∧
      (c.backReferences = true → m.checkConsumers = .ok ()) ∧
      (c.useLists = true → m.checkUseLists = .ok ()) := by
  rw [verify_eq_checkRelations, checkRelations_eq_ok]

/-- Many methods pass if each of them does, in whatever order they are looked at. -/
theorem verifyAll_eq_ok {c : Checks} {ms : List Method} :
    verifyAll c ms = .ok () ↔ ∀ m ∈ ms, m.verify c = .ok () :=
  forM_eq_ok

/-- **What the check accepts.** A method passes the check, whatever state it is in and whatever is
looked at, if and only if every relation that is looked at holds. -/
theorem verify_accepts_iff (m : Method) (c : Checks) : m.verify c = .ok () ↔ m.AgreesUnder c := by
  rw [verify_eq_ok, checkConsumers_eq_ok, checkUseLists_eq_ok]
  simp only [Phi.check_eq_ok]
  constructor
  · rintro ⟨hphis, hconsumers, huses⟩
    refine { flags := ?_, limit := ?_, owned := ?_, preds := ?_, listed := ?_,
             consumers := hconsumers, useLists := huses }
    · intro hc p hp
      exact (hphis p hp).1 hc
    · intro hc p hp
      exact (hphis p hp).2.1 hc
    · intro hc p hp
      exact (hphis p hp).2.2.1 hc
    · intro hc p hp
      exact (hphis p hp).2.2.2.1 hc
    · intro hc p hp
      exact (hphis p hp).2.2.2.2 hc
  · intro h
    refine ⟨fun p hp => ?_, h.consumers, h.useLists⟩
    exact ⟨fun hc => h.flags hc p hp, fun hc => h.limit hc p hp, fun hc => h.owned hc p hp,
      fun hc => h.preds hc p hp, fun hc => h.listed hc p hp⟩

/-- The second variable was overwritten with the first. It goes by the identity that it carries, so
the phi that it lists reads it. -/
example :
    let r : Register := { id := ⟨1⟩, reg := 0, var := some ⟨0⟩, owner := some ⟨0⟩ }
    let p : Phi := { Phi.ofResult ⟨0⟩ 0 ⟨0⟩ with bindings := [⟨r, ⟨7⟩⟩] }
    let x : Variable := { id := ⟨0⟩, reg := 0, version := 0, uses := [r.site], consumers := [p.id] }
    ({ slots := [some (.phi p)], vars := ⟨[x, x]⟩ } : Method).verify .standard = .ok () :=
  rfl

end Method

end SsaForm
