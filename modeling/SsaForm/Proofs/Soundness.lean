import Mathlib.Data.List.Perm.Subperm
import SsaForm.Proofs.Agreement
import SsaForm.Proofs.Definitions
import SsaForm.Proofs.Events
import SsaForm.Proofs.Readers

/-!
# SsaForm.Proofs.Soundness — what an accepted table tells about the instructions

After arbitrary changes of the table, let the standard check accept a method. Then every reading is
recorded, and what is recorded is live (`Method.RecordsLive`): a variable without recorded uses is
read by nothing. One would expect more, that the records of a variable are those of its own readers
and of its own definition (`Method.RecordsSound`). The check does not see to that. It looks a recorded
place up among the places of all variables together, and of a result it compares the instance alone.

`recordsSound_iff` says exactly what is missing: the records are sound if and only if no place is
recorded by two variables and results are recorded where they stand (`Method.RecordsApart`).
-/

namespace SsaForm

namespace Method

variable {m : Method}

/-! ## Counting readers -/

/-- The number of arguments that read a variable. -/
def readCount (m : Method) (v : VarId) : Nat := (m.insns.flatMap Insn.usedVars).count v

/-- Where a variable is read. -/
def readSites (m : Method) (v : VarId) : List Site :=
  m.insns.flatMap fun i =>
    (i.registers.filter fun r => r.var == some v).map fun r => ⟨r.id, some i.id⟩

theorem length_readSites (m : Method) (v : VarId) : (m.readSites v).length = m.readCount v := by
  have hinsn : ∀ i : Insn,
      ((i.registers.filter fun r => r.var == some v).map fun r => Site.mk r.id (some i.id)).length =
        i.usedVars.count v := by
    intro i
    rw [List.length_map, ← List.countP_eq_length_filter, Insn.usedVars, List.count_filterMap]
  rw [readSites, readCount, List.length_flatMap, List.count_flatMap]
  congr 1
  exact List.map_congr_left fun i _ => hinsn i

theorem WellFormed.mem_readSites (h : m.WellFormed) {v : VarId} {s : Site} :
    s ∈ m.readSites v ↔ ∃ id, s.insn = some id ∧ m.Reads v s.operand id := by
  simp only [readSites, List.mem_flatMap, List.mem_map, List.mem_filter, beq_iff_eq]
  constructor
  · rintro ⟨i, hi, r, ⟨hr, hv⟩, rfl⟩
    rcases mem_insns.1 hi with ⟨id, hid⟩
    rw [(h id i hid).id_eq]
    exact ⟨id, rfl, r, ⟨i, hid, hr⟩, rfl, hv⟩
  · rintro ⟨id, hs, r, ⟨i, hi, hr⟩, hid, hv⟩
    refine ⟨i, mem_insns.2 ⟨id, hi⟩, r, ⟨hr, hv⟩, ?_⟩
    rw [(h id i hi).id_eq, hid, ← hs]

/-- No place is counted twice. -/
theorem WellFormed.nodup_readSites (h : m.WellFormed) (v : VarId) : (m.readSites v).Nodup := by
  rw [readSites, List.nodup_flatMap]
  constructor
  · intro i hi
    rcases mem_insns.1 hi with ⟨id, hid⟩
    have hfilter : ((i.registers.filter fun r => r.var == some v).map (·.id)).Nodup :=
      (h id i hid).nodup_registers.sublist (List.filter_sublist.map _)
    refine List.Nodup.of_map Site.operand ?_
    rw [List.map_map]
    exact hfilter
  · refine h.pairwise_insns.imp fun {i j} hne => ?_
    intro s hsi hsj
    rcases List.mem_map.1 hsi with ⟨r, -, rfl⟩
    rcases List.mem_map.1 hsj with ⟨q, -, heq⟩
    simp only [Site.mk.injEq, Option.some.injEq] at heq
    exact hne heq.2.symm

/-! ## What an accepted table records -/

/-- Everything that reads a variable is recorded, and everything recorded reads, or defines, some
variable. -/
structure RecordsLive (m : Method) : Prop where
  reads : ∀ v a id, m.Reads v a id → ∃ x, m.vars.get? v = some x ∧ ⟨a, some id⟩ ∈ x.uses
  uses : ∀ v x, m.vars.get? v = some x → ∀ s ∈ x.uses,
    ∃ id w, s.insn = some id ∧ m.Reads w s.operand id
  count : ∀ v x, m.vars.get? v = some x → m.readCount v ≤ x.uses.length
  dead : ∀ v x, m.vars.get? v = some x → x.isDead = true → ∀ a id, ¬ m.Reads v a id
  results : ∀ id r v, m.HasResult id r → r.var = some v →
    ∃ x s, m.vars.get? v = some x ∧ x.definition = some s ∧ s.operand = r.id
  definitions : ∀ v x, m.vars.get? v = some x → ∀ s, x.definition = some s → ∃ w, m.DefinedAt w s

/-- The uses of a variable are its readers, counted exactly; its definition is a live result that
names it, and no second one does. -/
structure RecordsSound (m : Method) : Prop where
  uses : ∀ v x, m.vars.get? v = some x → ∀ s ∈ x.uses,
    ∃ id, s.insn = some id ∧ m.Reads v s.operand id
  count : ∀ v x, m.vars.get? v = some x → x.uses.length = m.readCount v
  dead : ∀ v x, m.vars.get? v = some x → (x.isDead = true ↔ ∀ a id, ¬ m.Reads v a id)
  definitions : ∀ v x, m.vars.get? v = some x → ∀ s, x.definition = some s → m.DefinedAt v s
  unique : ∀ v id r id' r', m.HasResult id r → r.var = some v → m.HasResult id' r' →
    r'.var = some v → id = id'

/-- No place is recorded by two variables, and a result is recorded at the place where it stands. -/
structure RecordsApart (m : Method) : Prop where
  uses : ∀ v w x y s, m.vars.get? v = some x → m.vars.get? w = some y → s ∈ x.uses → s ∈ y.uses →
    v = w
  definitions : ∀ v w x y s, m.vars.get? v = some x → m.vars.get? w = some y →
    x.definition = some s → y.definition = some s → v = w
  results : ∀ id r v x, m.HasResult id r → r.var = some v → m.vars.get? v = some x →
    x.definition = some ⟨r.id, some id⟩

/-- A variable counts as dead if no use is recorded. -/
theorem isDead_iff {x : Variable} : x.isDead = true ↔ x.uses = [] := List.isEmpty_iff

theorem UseListsAgree.recordsLive (h : m.UseListsAgree) (hw : m.WellFormed) :
    m.RecordsLive := by
  have hreads : ∀ v a id, m.Reads v a id →
      ∃ x, m.vars.get? v = some x ∧ ⟨a, some id⟩ ∈ x.uses := by
    rintro v a id ⟨r, ⟨i, hi, hr⟩, rfl, hv⟩
    have harg := h.args i (mem_insns.2 ⟨id, hi⟩) r hr v hv
    rw [(hw id i hi).id_eq] at harg
    exact harg.2
  refine { reads := hreads, uses := ?_, count := ?_, dead := ?_, results := ?_, definitions := ?_ }
  · intro v x hx s hs
    rcases h.uses v x hx s hs with ⟨i, hi, hinsn, r, w, hr, hid, hrw⟩
    rcases mem_insns.1 hi with ⟨id, hid'⟩
    rw [(hw id i hid').id_eq] at hinsn
    exact ⟨id, w, hinsn, r, ⟨i, hid', hr⟩, hid, hrw⟩
  · intro v x hx
    -- the places where the variable is read are distinct, and each of them is recorded
    have hsub : m.readSites v ⊆ x.uses := by
      intro s hs
      rcases hw.mem_readSites.1 hs with ⟨id, hinsn, hread⟩
      rcases hreads v s.operand id hread with ⟨y, hy, hmem⟩
      rw [hx, Option.some.injEq] at hy
      rw [hy, show s = ⟨s.operand, some id⟩ from congrArg (Site.mk s.operand) hinsn]
      exact hmem
    rw [← length_readSites]
    exact ((hw.nodup_readSites v).subperm hsub).length_le
  · intro v x hx hdead a id hread
    rcases hreads v a id hread with ⟨y, hy, hmem⟩
    rw [hx, Option.some.injEq] at hy
    rw [← hy, isDead_iff.1 hdead] at hmem
    cases hmem
  · rintro id r v ⟨i, hi, hr⟩ hv
    exact h.results i (mem_insns.2 ⟨id, hi⟩) r hr v hv
  · intro v x hx s hs
    rcases h.definitions v x hx s hs with ⟨i, hi, hinsn, r, w, hr, hid, hrw⟩
    rcases mem_insns.1 hi with ⟨id, hid'⟩
    rw [(hw id i hid').id_eq] at hinsn
    obtain ⟨a, o⟩ := s
    cases hinsn
    cases hid
    exact ⟨w, id, r, ⟨i, hid', hr⟩, hrw, rfl⟩

/-- An instance is read in an instruction under one variable. -/
theorem WellFormed.reads_unique (h : m.WellFormed) {v w : VarId} {a : OperandId} {id : InsnId}
    (hv : m.Reads v a id) (hw : m.Reads w a id) : v = w := by
  rcases hv with ⟨r, ⟨i, hi, hr⟩, hra, hrv⟩
  rcases hw with ⟨q, ⟨j, hj, hq⟩, hqa, hqw⟩
  rw [hi, Option.some.injEq] at hj
  subst hj
  have heq : r = q :=
    List.inj_on_of_nodup_map (h id i hi).nodup_registers hr hq (hra.trans hqa.symm)
  rw [heq, hqw, Option.some.injEq] at hrv
  exact hrv.symm

/-- A place defines one variable. -/
theorem definedAt_unique {v w : VarId} {s : Site} (hv : m.DefinedAt v s) (hw : m.DefinedAt w s) :
    v = w := by
  rcases hv with ⟨id, r, ⟨i, hi, hr⟩, hrv, rfl⟩
  rcases hw with ⟨id', q, ⟨j, hj, hq⟩, hqw, heq⟩
  simp only [Site.mk.injEq, Option.some.injEq] at heq
  rw [← heq.2, hi, Option.some.injEq] at hj
  rw [← hj, hr, Option.some.injEq] at hq
  rw [← hq, hrv, Option.some.injEq] at hqw
  exact hqw

theorem RecordsSound.apart (h : m.RecordsSound) (hlive : m.RecordsLive) (hw : m.WellFormed) :
    m.RecordsApart := by
  refine { uses := ?_, definitions := ?_, results := ?_ }
  · intro v w x y s hx hy hsx hsy
    rcases h.uses v x hx s hsx with ⟨id, hinsn, hv⟩
    rcases h.uses w y hy s hsy with ⟨id', hinsn', hw'⟩
    rw [hinsn, Option.some.injEq] at hinsn'
    exact hw.reads_unique hv (hinsn' ▸ hw')
  · intro v w x y s hx hy hsx hsy
    exact definedAt_unique (h.definitions v x hx s hsx) (h.definitions w y hy s hsy)
  · intro id r v x hr hv hx
    rcases hlive.results id r v hr hv with ⟨y, s, hy, hs, -⟩
    rw [hx, Option.some.injEq] at hy
    subst hy
    -- the recorded result is the only one that names the variable
    rcases h.definitions v x hx s hs with ⟨id', r', hr', hv', rfl⟩
    have hid : id' = id := h.unique v id' r' id r hr' hv' hr hv
    subst hid
    rcases hr with ⟨i, hi, hri⟩
    rcases hr' with ⟨j, hj, hrj⟩
    rw [hi, Option.some.injEq] at hj
    rw [← hj, hri, Option.some.injEq] at hrj
    rw [hs, hrj]

theorem RecordsLive.sound (h : m.RecordsLive) (hapart : m.RecordsApart) (hw : m.WellFormed)
    (honce : m.vars.UsesOnce) : m.RecordsSound := by
  -- a recorded place is read under some variable, which records it too
  have huses : ∀ v x, m.vars.get? v = some x → ∀ s ∈ x.uses,
      ∃ id, s.insn = some id ∧ m.Reads v s.operand id := by
    intro v x hx s hs
    rcases h.uses v x hx s hs with ⟨id, w, hinsn, hread⟩
    rcases h.reads w s.operand id hread with ⟨y, hy, hmem⟩
    rw [← show s = ⟨s.operand, some id⟩ from congrArg (Site.mk s.operand) hinsn] at hmem
    rw [hapart.uses v w x y s hx hy hs hmem]
    exact ⟨id, hinsn, hread⟩
  have hmem : ∀ v x, m.vars.get? v = some x → ∀ s, s ∈ x.uses ↔ s ∈ m.readSites v := by
    intro v x hx s
    rw [hw.mem_readSites]
    refine ⟨huses v x hx s, ?_⟩
    rintro ⟨id, hinsn, hread⟩
    rcases h.reads v s.operand id hread with ⟨y, hy, hs⟩
    rw [hx, Option.some.injEq] at hy
    rw [hy, show s = ⟨s.operand, some id⟩ from congrArg (Site.mk s.operand) hinsn]
    exact hs
  refine { uses := huses, count := ?_, dead := ?_, definitions := ?_, unique := ?_ }
  · intro v x hx
    have hperm : x.uses.Perm (m.readSites v) :=
      (List.perm_ext_iff_of_nodup (honce v x hx).of_map (hw.nodup_readSites v)).2 (hmem v x hx)
    rw [hperm.length_eq, length_readSites]
  · intro v x hx
    refine ⟨h.dead v x hx, fun hnone => isDead_iff.2 ?_⟩
    rw [List.eq_nil_iff_forall_not_mem]
    intro s hs
    rcases huses v x hx s hs with ⟨id, -, hread⟩
    exact hnone s.operand id hread
  · intro v x hx s hs
    rcases h.definitions v x hx s hs with ⟨w, id, r, hr, hrw, rfl⟩
    rcases h.results id r w hr hrw with ⟨y, s', hy, hs', -⟩
    have hdef := hapart.results id r w y hr hrw hy
    rw [hapart.definitions v w x y _ hx hy hs hdef]
    exact ⟨id, r, hr, hrw, rfl⟩
  · intro v id r id' r' hr hv hr' hv'
    rcases h.results id r v hr hv with ⟨x, s, hx, -, -⟩
    have hdef := hapart.results id r v x hr hv hx
    rw [hapart.results id' r' v x hr' hv' hx] at hdef
    simp only [Option.some.injEq, Site.mk.injEq] at hdef
    exact hdef.2.symm

/-! ## After arbitrary changes of the table -/

/-- **Soundness of the check.** Let the standard check accept a method that mutators have built and
whose table was changed at will. Then every reading is recorded and every record is live, and the
records are sound if and only if they are apart. -/
theorem recordsSound_iff {checks : Checks} {events : List Event}
    (hswap : ∀ t, Event.swap t ∈ events → t.UsesOnce)
    (hverify : (({ checks := checks } : Method).through events).verify .standard = .ok ()) :
    (({ checks := checks } : Method).through events).RecordsLive ∧
      ((({ checks := checks } : Method).through events).RecordsSound ↔
        (({ checks := checks } : Method).through events).RecordsApart) := by
  have hw := wellFormed_through (wellFormed_empty checks) events
  have honce : (({ checks := checks } : Method).through events).vars.UsesOnce :=
    usesOnce_through hswap
  have hagree := checkUseLists_eq_ok.1 ((verify_eq_ok.1 hverify).2.2 rfl)
  have hlive := hagree.recordsLive hw
  exact ⟨hlive, fun hsound => hsound.apart hlive hw, fun hapart => hlive.sound hapart hw honce⟩

/-- A record is lost, put in under a wrong instruction and moved to the right one; with one variable
there is nothing to be shared. -/
theorem recordsSound_iff_rerecorded :
    let events : List Event := [.call ⟨.newVar 0 0, {}⟩, .call ⟨.newNode .const, {}⟩,
      .call ⟨.addArg ⟨0⟩ (.register { id := ⟨0⟩, reg := 0, var := some ⟨0⟩ }), {}⟩,
      .edit (.dropUse ⟨0⟩ ⟨0⟩), .edit (.recordUse ⟨0⟩ ⟨⟨0⟩, some ⟨4⟩⟩),
      .edit (.recordUse ⟨0⟩ ⟨⟨0⟩, some ⟨0⟩⟩)]
    (∀ t, Event.swap t ∈ events → t.UsesOnce) ∧
      (({} : Method).through events).verify .standard = .ok () ∧
      (({} : Method).through events).RecordsSound := by
  intro events
  have hswap : ∀ t, Event.swap t ∈ events → t.UsesOnce := by
    intro t ht
    simp [events] at ht
  have hverify : (({} : Method).through events).verify .standard = .ok () := by decide
  refine ⟨hswap, hverify, (recordsSound_iff hswap hverify).2.2 ?_⟩
  have hone : ∀ v w, v ∈ (({} : Method).through events).vars →
      w ∈ (({} : Method).through events).vars → v = w := by
    rintro ⟨v⟩ ⟨w⟩ hv hw
    have hv' : v < 1 := hv
    have hw' : w < 1 := hw
    simp only [VarId.mk.injEq]
    omega
  refine { uses := ?_, definitions := ?_, results := ?_ }
  · intro v w x y s hx hy _ _
    exact hone v w (VarTable.mem_of_get? hx) (VarTable.mem_of_get? hy)
  · intro v w x y s hx hy _ _
    exact hone v w (VarTable.mem_of_get? hx) (VarTable.mem_of_get? hy)
  · rintro ⟨id⟩ r v x ⟨i, hi, hr⟩
    cases id with
    | zero =>
      cases hi
      cases hr
    | succ id => cases hi

/-- A variable that nothing reads records an argument that reads another variable. The check accepts
it. -/
theorem foreignUse_accepted :
    let m := ({} : Method).through [.call ⟨.newVar 0 0, {}⟩, .call ⟨.newVar 0 1, {}⟩,
      .call ⟨.newNode .const, {}⟩,
      .call ⟨.addArg ⟨0⟩ (.register { id := ⟨0⟩, reg := 0, var := some ⟨0⟩ }), {}⟩,
      .edit (.recordUse ⟨1⟩ ⟨⟨0⟩, some ⟨0⟩⟩)]
    m.verify .standard = .ok () ∧ (m.vars.get? ⟨1⟩).map (·.uses) = some [⟨⟨0⟩, some ⟨0⟩⟩] ∧
      m.readCount ⟨1⟩ = 0 ∧ ¬ m.RecordsSound := by
  intro m
  refine ⟨by decide, by decide, by decide, fun h => ?_⟩
  have hcount := h.count ⟨1⟩ _ rfl
  exact absurd hcount (by decide)

/-- Nor does the check tell two results apart that are copies of one instance. -/
example :
    let r : Register := { id := ⟨0⟩, reg := 0, var := some ⟨0⟩ }
    let m := ({} : Method).through [.call ⟨.newVar 0 0, {}⟩, .call ⟨.newNode .const, {}⟩,
      .call ⟨.newNode .const, {}⟩, .call ⟨.setResult ⟨0⟩ r, {}⟩, .call ⟨.setResult ⟨1⟩ r, {}⟩]
    m.verify .standard = .ok () ∧
      m.insns.map Insn.result? = [some (r.ownedBy ⟨0⟩), some (r.ownedBy ⟨1⟩)] := by
  decide

end Method

end SsaForm
