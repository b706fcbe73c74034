import SsaForm.Proofs.Agreement
import SsaForm.Proofs.Definitions
import SsaForm.Proofs.Events
import SsaForm.Proofs.Readers

/-!
# SsaForm.Proofs.Acceptance — the check accepts what the mutators leave

`Method.Consistent` joins the invariants: instructions are well formed, readings and definitions are
recorded, and variables carry the identities by which they are found. Every relation that the
consistency check looks at follows from them, so it accepts every consistent method unless a phi
exceeds the limit on arguments (`Consistent.verify`).

The mutators keep a method consistent as long as no call fails to set an argument of a node and
every call that names a variable in a result names one that no other result names. The second
condition is not guaranteed by the mutators: `singleDefinition_reached_iff` says that it is exactly
what decides, in a run without failures, whether variables keep their single definitions.
-/

namespace SsaForm

open Edit

namespace Method

variable {m : Method} {id : InsnId}

/-- Instructions are well formed, and variables record their readers and their definitions under
their own identities. -/
structure Consistent (m : Method) : Prop extends Coherent m where
  definitions : m.DefinitionsRecorded
  numbered : m.vars.Numbered

/-! ## The check -/

theorem Coherent.check (h : m.Coherent) {p : Phi} (hp : m.insn? id = some (.phi p)) {c : Checks}
    (hlimit : c.maxPhiArgs = 0) : p.check c m.vars = .ok () := by
  rcases Insn.wellFormed_phi.1 (h.formed id _ hp) with ⟨hid, -, howned, hpreds, hflags⟩
  refine Phi.check_eq_ok.2 ⟨fun _ => hflags, fun hne => absurd hlimit hne, fun _ => howned,
    fun _ => hpreds, fun _ v hv => ?_⟩
  rcases List.mem_filterMap.1 hv with ⟨r, hr, hrv⟩
  have hheld : m.Holds id r := (holds_of_insn? hp).2 hr
  rcases VarTable.exists_get? (h.readers.known id r hheld v hrv) with ⟨x, hx⟩
  exact ⟨x, hx, ((h.readers.consumers v x hx).mem p.id).2 (hid ▸ ⟨⟨p, hp⟩, r, hheld, hrv⟩)⟩

theorem Consistent.checkConsumers (h : m.Consistent) : m.checkConsumers = .ok () := by
  rw [checkConsumers_eq_ok]
  intro v x hx k hk
  rw [h.numbered v x hx]
  rcases ((h.readers.consumers v x hx).mem k).1 hk with ⟨⟨p, hp⟩, r, hr, hv⟩
  exact ⟨p, hp, List.mem_filterMap.2 ⟨r, (holds_of_insn? hp).1 hr, hv⟩⟩

/-- The records that the mutators keep are those that the check compares. -/
theorem Consistent.useListsAgree (h : m.Consistent) : m.UseListsAgree := by
  refine { args := ?_, results := ?_, definitions := ?_, uses := ?_ }
  · intro i hi r hr v hv
    rcases mem_insns.1 hi with ⟨k, hk⟩
    have hheld : m.Holds k r := (holds_of_insn? hk).2 hr
    rcases VarTable.exists_get? (h.readers.known k r hheld v hv) with ⟨x, hx⟩
    rw [(h.formed k i hk).id_eq]
    exact ⟨h.readers.owned k r hheld, x, hx,
      (h.readers.uses v x hx).mem_mk.2 ⟨r, hheld, rfl, hv⟩⟩
  · intro i hi r hr v hv
    rcases mem_insns.1 hi with ⟨k, hk⟩
    have hresult : m.HasResult k r := (hasResult_of_insn? hk).2 hr
    rcases VarTable.exists_get? (h.definitions.known k r hresult v hv) with ⟨x, hx⟩
    exact ⟨x, _, hx, (h.definitions.recorded v x hx _).2 ⟨k, r, hresult, hv, rfl⟩, rfl⟩
  · intro v x hx s hs
    rcases (h.definitions.recorded v x hx s).1 hs with ⟨k, r, ⟨i, hi, hr⟩, hv, rfl⟩
    exact ⟨i, mem_insns.2 ⟨k, hi⟩, congrArg some (h.formed k i hi).id_eq.symm, r, v, hr, rfl, hv⟩
  · intro v x hx s hs
    rcases ((h.readers.uses v x hx).mem s).1 hs with ⟨k, hk, r, ⟨i, hi, hr⟩, hid, hv⟩
    rw [← (h.formed k i hi).id_eq] at hk
    exact ⟨i, mem_insns.2 ⟨k, hi⟩, hk, r, v, hr, hid, hv⟩

/-- The check accepts a consistent method, whatever it looks at, if it sets no
limit on arguments. -/
theorem Consistent.verify (h : m.Consistent) {c : Checks} (hlimit : c.maxPhiArgs = 0) :
    m.verify c = .ok () := by
  refine verify_eq_ok.2 ⟨fun p hp => ?_, fun _ => h.checkConsumers,
    fun _ => checkUseLists_eq_ok.2 h.useListsAgree⟩
  rcases mem_phis.1 hp with ⟨id, hid⟩
  exact h.toCoherent.check hid hlimit

/-! ## Runs -/

theorem consistent_empty (checks : Checks) : ({ checks := checks } : Method).Consistent :=
  ⟨coherent_empty checks, definitionsRecorded_empty checks, fun _ _ hx => nomatch hx⟩

/-- A call keeps a method consistent, unless it fails to set an argument of a node or takes over a
definition. -/
theorem Consistent.next (h : m.Consistent) {c : Call} (hspoils : c.spoilsNode m = false)
    (hsole : c.Sole m) : (c.next m).Consistent :=
  ⟨h.toCoherent.next hspoils, h.definitions.next h.formed hsole,
    VarTable.numbered_keptByChanges.next_call h.numbered c⟩

/-- **Single definitions.** In a run without failures every reached state has single
definitions, and passes the check, if and only if each call that named a variable in
a result was alone to do so. -/
theorem singleDefinition_reached_iff {checks : Checks} {history : List Call}
    (hok : Along (fun m c => ∃ a, c.verdict m = .ok a) { checks := checks } history) :
    (∀ front back, front ++ back = history →
        (({ checks := checks } : Method).after front).SingleDefinition ∧
          (({ checks := checks } : Method).after front).verify .standard = .ok ()) ↔
      Along (fun m c => c.Sole m) { checks := checks } history := by
  constructor
  · intro hreached
    -- by induction on the calls to come: what succeeds and leaves single definitions was alone
    have hrun : ∀ (rest front : List Call), front ++ rest = history →
        Along (fun m c => c.Sole m) (({ checks := checks } : Method).after front) rest := by
      intro rest
      induction rest with
      | nil => exact fun _ _ => trivial
      | cons c rest ih =>
        intro front hfront
        have hsplit : (front ++ [c]) ++ rest = history := by
          rw [List.append_assoc]
          exact hfront
        have hnext := (hreached (front ++ [c]) rest hsplit).1
        have hrest := ih (front ++ [c]) hsplit
        rw [after_append] at hnext hrest
        rw [← hfront, along_append] at hok
        rcases hok.2.1 with ⟨a, ha⟩
        exact ⟨hnext.sole ha, hrest⟩
    exact hrun history [] rfl
  · intro hsole front back hsplit
    -- consistency is the invariant, and a call that succeeds spoils no node
    rw [← hsplit, along_append] at hok hsole
    have hspares : Along (fun m c => c.spoilsNode m = false) { checks := checks } front :=
      hok.1.imp fun _ _ ⟨_, ha⟩ => spoilsNode_of_ok ha
    have hboth : Along (fun m c => c.spoilsNode m = false ∧ c.Sole m) { checks := checks } front :=
      along_and.2 ⟨hspares, hsole.1⟩
    have hconsistent : (({ checks := checks } : Method).after front).Consistent := by
      refine invariant_after (G := fun m c => c.spoilsNode m = false ∧ c.Sole m) ?_
        (consistent_empty checks) hboth
      intro m c hm hc
      exact hm.next hc.1 hc.2
    exact ⟨hconsistent.definitions.single, hconsistent.verify rfl⟩

/-- A variable is defined by one node, given up for another variable, and defined
by a second node. -/
theorem singleDefinition_reached_iff_handed_on :
    let history : List Call := [⟨.newVar 0 0, {}⟩, ⟨.newVar 0 1, {}⟩, ⟨.newNode .const, {}⟩,
      ⟨.newNode .const, {}⟩,
      ⟨.setResult ⟨0⟩ { id := ⟨0⟩, reg := 0, var := some ⟨0⟩ }, {}⟩,
      ⟨.setResult ⟨0⟩ { id := ⟨1⟩, reg := 0, var := some ⟨1⟩ }, {}⟩,
      ⟨.setResult ⟨1⟩ { id := ⟨2⟩, reg := 0, var := some ⟨0⟩ }, {}⟩]
    Along (fun m c => ∃ a, c.verdict m = .ok a) {} history ∧
      ∀ front back, front ++ back = history →
        (({} : Method).after front).SingleDefinition ∧
          (({} : Method).after front).verify .standard = .ok () := by
  intro history
  have hok : Along (fun m c => ∃ a, c.verdict m = .ok a) {} history :=
    ⟨⟨_, rfl⟩, ⟨_, rfl⟩, ⟨_, rfl⟩, ⟨_, rfl⟩, ⟨_, rfl⟩, ⟨_, rfl⟩, ⟨_, rfl⟩, trivial⟩
  exact ⟨hok, (singleDefinition_reached_iff hok).2 (by decide)⟩

/-- Two nodes may define one variable. Each call succeeds, and then the first node no
longer defines what it names. -/
theorem twice_defined :
    let history : List Call := [⟨.newVar 0 0, {}⟩, ⟨.newNode .const, {}⟩, ⟨.newNode .const, {}⟩,
      ⟨.setResult ⟨0⟩ { id := ⟨0⟩, reg := 0, var := some ⟨0⟩ }, {}⟩,
      ⟨.setResult ⟨1⟩ { id := ⟨1⟩, reg := 0, var := some ⟨0⟩ }, {}⟩]
    Along (fun m c => ∃ a, c.verdict m = .ok a) {} history ∧
      ¬ (({} : Method).after history).SingleDefinition ∧
      (({} : Method).after history).verify .standard ≠ .ok () := by
  intro history
  refine ⟨⟨⟨_, rfl⟩, ⟨_, rfl⟩, ⟨_, rfl⟩, ⟨_, rfl⟩, ⟨_, rfl⟩, trivial⟩, fun h => ?_, by decide⟩
  have hfirst : (({} : Method).after history).HasResult ⟨0⟩
      { id := ⟨0⟩, reg := 0, var := some ⟨0⟩, owner := some ⟨0⟩ } := ⟨_, rfl, rfl⟩
  have hsecond : (({} : Method).after history).HasResult ⟨1⟩
      { id := ⟨1⟩, reg := 0, var := some ⟨0⟩, owner := some ⟨1⟩ } := ⟨_, rfl, rfl⟩
  cases h.unique ⟨0⟩ ⟨0⟩ _ ⟨1⟩ _ hfirst rfl hsecond rfl

end Method

end SsaForm
