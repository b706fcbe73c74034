import Mathlib.Data.List.Pairwise
import SsaForm.Proofs.Readers

/-!
# SsaForm.Proofs.Places — where instances stand

An instance should stand at one argument position at most (`Method.OnePlace`). A well-formed
instruction holds it once, so that is a matter of instructions: no two of them hold the same instance
(`Method.Exclusive`). A change of one instruction keeps instances apart if what it brings was held
there or nowhere, and whatever removes arguments does (`exclusive_keptByRemovals`).
-/

namespace SsaForm

open Edit

namespace Method

variable {m : Method} {id : InsnId} {i : Insn}

/-! ## Where instances stand -/

/-- No instruction holds the instance. -/
def Unheld (m : Method) (a : OperandId) : Prop := ∀ k r, m.Holds k r → r.id ≠ a

/-- Every instance stands in one instruction at most. -/
def Exclusive (m : Method) : Prop := ∀ i j r s, m.Holds i r → m.Holds j s → r.id = s.id → i = j

/-- No instance stands at two argument positions of live instructions. -/
def OnePlace (m : Method) : Prop := ((m.insns.flatMap Insn.registers).map (·.id)).Nodup

instance (m : Method) : Decidable m.OnePlace :=
  inferInstanceAs (Decidable ((m.insns.flatMap Insn.registers).map (·.id)).Nodup)

/-- Whether an instance is held can be read off the instructions. -/
instance (m : Method) (a : OperandId) : Decidable (m.Unheld a) :=
  decidable_of_iff (∀ i ∈ m.insns, ∀ r ∈ i.registers, r.id ≠ a) <| by
    constructor
    · rintro h k r ⟨i, hi, hr⟩
      exact h i (mem_insns.2 ⟨k, hi⟩) r hr
    · intro h i hi r hr
      rcases mem_insns.1 hi with ⟨k, hk⟩
      exact h k r ⟨i, hk, hr⟩

/-- An instruction holds an instance once, so two positions are positions of two instructions. -/
theorem WellFormed.onePlace_iff (h : m.WellFormed) : m.OnePlace ↔ m.Exclusive := by
  rw [OnePlace, List.map_flatMap, List.nodup_flatMap]
  constructor
  · rintro ⟨-, hpairs⟩ k l r s ⟨i, hi, hr⟩ ⟨j, hj, hs⟩ heq
    by_contra hne
    have hij : i ≠ j := by
      rintro rfl
      exact hne ((h k i hi).id_eq.symm.trans (h l i hj).id_eq)
    have hsymm : Std.Symm (Function.onFun List.Disjoint fun i : Insn => i.registers.map (·.id)) :=
      ⟨fun _ _ hxy _ ha hb => hxy hb ha⟩
    have hdisjoint := hpairs.forall (mem_insns.2 ⟨k, hi⟩) (mem_insns.2 ⟨l, hj⟩) hij
    have hmem : s.id ∈ i.registers.map (·.id) := heq ▸ List.mem_map.2 ⟨r, hr, rfl⟩
    exact hdisjoint hmem (List.mem_map.2 ⟨s, hs, rfl⟩)
  · intro hexclusive
    constructor
    · intro i hi
      rcases mem_insns.1 hi with ⟨k, hk⟩
      exact (h k i hk).nodup_registers
    · refine h.pairwise_insns.imp_of_mem fun {i j} hi hj hne => ?_
      rcases mem_insns.1 hi with ⟨k, hk⟩
      rcases mem_insns.1 hj with ⟨l, hl⟩
      intro a hai haj
      rcases List.mem_map.1 hai with ⟨r, hr, rfl⟩
      rcases List.mem_map.1 haj with ⟨s, hs, heq⟩
      have hkl := hexclusive k l r s ⟨i, hk, hr⟩ ⟨j, hl, hs⟩ heq.symm
      rw [(h k i hk).id_eq, (h l j hl).id_eq] at hne
      exact hne hkl

/-- Instances that stay where they are or that nothing held are shared as little as before. -/
theorem Exclusive.putInsn (h : m.Exclusive) {i j : Insn} (hi : m.insn? id = some i) {t : VarTable}
    (hids : ∀ r ∈ j.registers, (∃ s ∈ i.registers, s.id = r.id) ∨ m.Unheld r.id) :
    (m.putInsn id ⟨j, t⟩).Exclusive := by
  -- what the changed instruction holds, no other one held before
  have hother : ∀ k r s, k ≠ id → r ∈ j.registers → m.Holds k s → r.id ≠ s.id := by
    intro k r s hk hr hs heq
    rcases hids r hr with ⟨r₀, hr₀, heq₀⟩ | hunheld
    · exact hk (h k id s r₀ hs ((holds_of_insn? hi).2 hr₀) (heq₀.trans heq).symm)
    · exact hunheld k s hs heq.symm
  intro k l r s hr hs heq
  rw [holds_putInsn hi] at hr hs
  by_cases hk : id = k
  · by_cases hl : id = l
    · exact hk.symm.trans hl
    · rw [if_pos hk] at hr
      rw [if_neg hl] at hs
      exact absurd heq (hother l r s (Ne.symm hl) hr hs)
  · rw [if_neg hk] at hr
    by_cases hl : id = l
    · rw [if_pos hl] at hs
      exact absurd heq.symm (hother k s r (Ne.symm hk) hs hr)
    · rw [if_neg hl] at hs
      exact h k l r s hr hs heq

/-- A new instruction holds nothing. -/
theorem Exclusive.grown (h : m.Exclusive) {i : Insn} (hnone : i.registers = []) :
    (m.grown i).Exclusive := by
  have hold : ∀ k r, (m.grown i).Holds k r → m.Holds k r := by
    rintro k r ⟨j, hj, hr⟩
    rw [insn?_grown] at hj
    by_cases hk : k = ⟨m.slots.length⟩
    · rw [if_pos hk, Option.some.injEq] at hj
      rw [← hj, hnone] at hr
      cases hr
    · rw [if_neg hk] at hj
      exact ⟨j, hj, hr⟩
  exact fun k l r s hr hs heq => h k l r s (hold k r hr) (hold l s hs) heq

/-- An instruction whose arguments are copies of some that it held before. -/
theorem Exclusive.sub (h : m.Exclusive) {i j : Insn} (hi : m.insn? id = some i) {t : VarTable}
    (hsub : ∀ r ∈ j.registers, ∃ s ∈ i.registers, s.id = r.id) :
    (m.putInsn id ⟨j, t⟩).Exclusive :=
  h.putInsn hi fun r hr => Or.inl (hsub r hr)

/-- Removing shares nothing. -/
theorem exclusive_keptByRemovals : KeptByRemovals Exclusive where
  removeArg id k m n h hn := by
    cases hold : n.args[k]? with
    | none =>
      rw [Node.removeArgAt_of_none hold]
      exact (putInsn_self hn).symm ▸ h
    | some old =>
      rcases Node.finalState_removeArgAt (s := ⟨n, m.vars⟩) hold with ⟨t, heq, -⟩
      rw [heq]
      refine h.sub hn fun r hr => ⟨r, Insn.mem_registers.2 ?_, rfl⟩
      exact List.mem_of_mem_eraseIdx (Insn.mem_registers.1 hr)
  removeBinding id k m p h hp := by
    cases hold : p.bindings[k]? with
    | none =>
      rw [Phi.removeArgAt_of_none hold]
      exact (putInsn_self hp).symm ▸ h
    | some old =>
      rcases Phi.finalState_removeArgAt (s := ⟨p, m.vars⟩) hold with ⟨t, heq, -⟩
      rw [heq]
      refine h.sub hp fun r hr => ?_
      rcases List.mem_map.1 hr with ⟨b, hb, rfl⟩
      exact ⟨b.arg, List.mem_map.2 ⟨b, List.mem_of_mem_eraseIdx hb, rfl⟩, rfl⟩
  takePhi id m p h hp _ := by
    rcases finalState_takePhi hp with ⟨t, heq, -⟩
    rw [heq]
    have hold : ∀ k r, ({ m.without id with vars := t } : Method).Holds k r → m.Holds k r := by
      rintro k r ⟨i, hi, hr⟩
      change (m.without id).insn? k = some i at hi
      rw [insn?_without] at hi
      by_cases hk : k = id
      · rw [if_pos hk] at hi
        cases hi
      · rw [if_neg hk] at hi
        exact ⟨i, hi, hr⟩
    exact fun k l r s hr hs heq => h k l r s (hold k r hr) (hold l s hs) heq

end Method

end SsaForm
