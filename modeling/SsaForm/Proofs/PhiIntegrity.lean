import SsaForm.Proofs.Agreement
import SsaForm.Proofs.Events
import SsaForm.Proofs.Faults

/-!
# SsaForm.Proofs.PhiIntegrity — phis stay intact whatever happens to the table

A phi keeps each argument with its predecessor. However the table is treated between calls, and
wherever a call breaks off because the table lacks a variable, the phi owns its arguments, holds an
instance once and binds a predecessor once (`Method.PhisIntact`). So it does not matter how a binding
is looked up: by position, by instance or by predecessor (`Phi.LookupsAgree`). This is what the check
of phis alone looks for, and why no argument is ever found without its predecessor.
-/

namespace SsaForm

/-! ## Looking up a binding -/

namespace Phi

/-- Looking up by position, by instance and by predecessor finds the same binding. -/
structure LookupsAgree (p : Phi) : Prop where
  position : ∀ k, k < p.bindings.length → ∃ r b, p.argAt? k = some r ∧ p.blockAt? k = some b ∧
    p.argIndex r.id = some k ∧ p.blockOf? r.id = some b ∧ p.argFor? b = some r
  predecessor : ∀ b, p.hasPredecessor b = true ↔ (p.argFor? b).isSome = true

/-- If no predecessor is bound twice, a predecessor leads to the binding that has it. -/
theorem argFor?_of_getElem? {p : Phi} (h : p.preds.Nodup) {k : Nat} {b : Binding}
    (hb : p.bindings[k]? = some b) : p.argFor? b.pred = some b.arg := by
  have hmem : b ∈ p.bindings := List.mem_of_getElem? hb
  unfold argFor?
  cases hfind : p.bindings.find? (fun c => c.pred == b.pred) with
  | none =>
    have hne := List.find?_eq_none.1 hfind b hmem
    simp at hne
  | some c =>
    have hpred : c.pred = b.pred := by simpa using List.find?_some hfind
    have heq : c = b :=
      List.inj_on_of_nodup_map h (List.mem_of_find?_eq_some hfind) hmem hpred
    rw [heq]
    rfl

theorem lookupsAgree {p : Phi} {id : InsnId} (h : (Insn.phi p).WellFormed id) :
    p.LookupsAgree := by
  constructor
  · intro k hk
    have hb := List.getElem?_eq_getElem hk
    have hindex := argIndex_of_getElem? h hb
    have hblock : p.blockAt? k = some p.bindings[k].pred := by rw [blockAt?, hb]; rfl
    refine ⟨p.bindings[k].arg, p.bindings[k].pred, ?_, hblock, hindex, ?_, ?_⟩
    · rw [argAt?, hb]
      rfl
    · rw [blockOf?, hindex]
      exact hblock
    · exact argFor?_of_getElem? (h.phi p rfl).preds_nodup hb
  · intro b
    simp [hasPredecessor, argFor?]

end Phi

namespace Method

/-! ## Intact phis -/

/-- Phis own their arguments, bind no predecessor twice, carry their markers and can be looked into
any way. Instructions of either kind know who they are and hold no instance twice. -/
structure PhisIntact (m : Method) : Prop where
  identified : ∀ id i, m.insn? id = some i → i.id = id
  owned : ∀ id p, m.insn? id = some (.phi p) → ∀ r ∈ p.args, r.owner = some id
  distinct : ∀ id i, m.insn? id = some i → (i.args.map Operand.id).Nodup
  preds : ∀ id p, m.insn? id = some (.phi p) → p.preds.Nodup
  flags : ∀ id p, m.insn? id = some (.phi p) → p.attributes.contains .phi = true
  lookups : ∀ id p, m.insn? id = some (.phi p) → p.LookupsAgree

variable {m : Method}

theorem WellFormed.phisIntact (h : m.WellFormed) : m.PhisIntact where
  identified id i hi := (h id i hi).id_eq
  owned id p hp r hr := by
    have hid : p.id = id := (h id _ hp).id_eq
    exact hid ▸ ((h id _ hp).phi p rfl).owned r hr
  distinct id i hi := (h id i hi).distinct
  preds id p hp := ((h id _ hp).phi p rfl).preds_nodup
  flags id p hp := ((h id _ hp).phi p rfl).flags
  lookups id _ hp := Phi.lookupsAgree (h id _ hp)

/-- The check of phis alone does not look at the table. -/
theorem WellFormed.verify_minimal (h : m.WellFormed) :
    m.verify { Checks.minimal with phiFlags := true } = .ok () := by
  refine verify_eq_ok.2 ⟨fun p hp => ?_, ?_, ?_⟩
  · rcases mem_phis.1 hp with ⟨id, hid⟩
    have hphi := (h id _ hid).phi p rfl
    refine Phi.check_eq_ok.2 ⟨fun _ => hphi.flags, fun hlimit => absurd rfl hlimit,
      fun _ => hphi.owned, fun _ => hphi.preds_nodup, ?_⟩
    intro hc
    cases hc
  · intro hc
    cases hc
  · intro hc
    cases hc

end Method

/-- No event finds an argument without its predecessor, whatever state it meets. -/
theorem Event.occurs_verdict (e : Event) (m : Method) : FailsIn Fault.Occurs (e.verdict m) := by
  cases e with
  | call c =>
    rw [Event.verdict, Call.verdict_eq]
    exact c.mutation.occurs_onMethod c.supply.draw.1 m
  | edit e => exact failsIn_map (e.occurs_perform m.vars)
  | swap t => exact failsIn_ok _
  | newPhiArg phi id var => exact failsIn_map (m.occurs_newPhiArg phi id var)
  | check c => exact failsIn_map (m.occurs_verify c)

namespace Method

/-- **Phis stay intact.** Whatever calls are made on an empty method, however they end, and whatever
is done to its table in between: phis are intact, the check of phis alone passes, and no operation
reports an argument without a predecessor. -/
theorem phisIntact_through (checks : Checks) (events : List Event) :
    (({ checks := checks } : Method).through events).PhisIntact ∧
      (({ checks := checks } : Method).through events).verify
          { Checks.minimal with phiFlags := true } = .ok () ∧
      ∀ (e : Event) (a : OperandId) (p : InsnId),
        e.verdict (({ checks := checks } : Method).through events) ≠
          .error (.unknownPredecessor a p) := by
  have hformed := wellFormed_through (wellFormed_empty checks) events
  refine ⟨hformed.phisIntact, hformed.verify_minimal, ?_⟩
  intro e a p he
  exact e.occurs_verdict _ _ he

/-- The table is lost while a phi reads a variable. Replacing the argument breaks off when it has been
taken out, and the phi is left with nothing bound. -/
example :
    let m := ({} : Method).through [.call ⟨.newVar 0 0, {}⟩, .call ⟨.newVar 0 1, {}⟩,
      .call ⟨.newPhi 0, {}⟩, .call ⟨.bindPhiArg ⟨0⟩ { id := ⟨1⟩, reg := 0, var := some ⟨1⟩ } ⟨7⟩, {}⟩,
      .swap ⟨[{ id := ⟨0⟩, reg := 0, version := 0 }]⟩]
    let e := Event.call ⟨.replaceArg ⟨0⟩ (.register { id := ⟨1⟩, reg := 0 })
      (.register { id := ⟨2⟩, reg := 0, var := some ⟨0⟩ }), {}⟩
    e.verdict m = .error (.unknownVariable ⟨1⟩) ∧ (e.next m).phis.map Phi.args = [[]] := by
  decide

end Method

end SsaForm
