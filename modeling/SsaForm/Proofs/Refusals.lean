import SsaForm.Proofs.Faults

/-!
# SsaForm.Proofs.Refusals — what stands in the way of an operand

An operand that stands somewhere already is refused, and the fault names an instruction. The name has
three sources: the instruction that is to take the operand, if that holds the instance; the owner that
the handle names; and the place that the variable of the handle records for the instance. The relation
`Insn.Blocks` covers the three, and each step that refuses an operand names an instruction in that
relation (`Node.blocks_of_argAdded` and so on). Giving an argument a variable has the last source only
(`Insn.useSite_of_varAttached`). Nothing is assumed about the records.
-/

namespace SsaForm

open Edit

/-- The fault names no instruction in which an instance stands. -/
def Fault.NamesNoHolder : Fault → Prop
  | .alreadyBound _ _ => False
  | _ => True

theorem Fault.unknownVariable_namesNoHolder (v : VarId) :
    (Fault.unknownVariable v).NamesNoHolder := trivial

open Fault (unknownVariable_namesNoHolder)

/-! ## Holders -/

namespace Register

variable {r : Register} {t : VarTable} {a : OperandId} {k : InsnId}

/-- The holder is the owner that the handle names, or else what the variable records. -/
theorem holder_eq_some :
    r.holder t = .ok (some k) ↔ t.Knows r.var ∧ (r.owner = some k ∨ r.owner = none ∧
      ∃ v x, r.var = some v ∧ t.get? v = some x ∧ x.useSite r.id = some k) := by
  cases hv : r.var with
  | none => simp [holder, hv, VarTable.knows_none]
  | some v =>
    simp only [holder, hv, map_eq_ok, VarTable.find_eq_ok, Option.or_eq_some_iff,
      VarTable.knows_some, Option.some.injEq]
    constructor
    · rintro ⟨x, hx, howner | ⟨hnone, hsite⟩⟩
      · exact ⟨VarTable.mem_of_get? hx, Or.inl howner⟩
      · exact ⟨VarTable.mem_of_get? hx, Or.inr ⟨hnone, v, x, rfl, hx, hsite⟩⟩
    · rintro ⟨hknown, howner | ⟨hnone, _, x, rfl, hx, hsite⟩⟩
      · rcases VarTable.exists_get? hknown with ⟨x, hx⟩
        exact ⟨x, hx, Or.inl howner⟩
      · exact ⟨x, hx, Or.inr ⟨hnone, hsite⟩⟩

theorem failsIn_holder {F : Fault → Prop} (hunknown : ∀ v, F (.unknownVariable v)) (r : Register)
    (t : VarTable) : FailsIn F (r.holder t) := by
  unfold holder
  cases r.var with
  | none => exact failsIn_ok _
  | some v => exact failsIn_map (VarTable.failsIn_find hunknown v)

theorem ensureDetached_eq_alreadyBound :
    r.ensureDetached t = .error (.alreadyBound a k) ↔ a = r.id ∧ r.holder t = .ok (some k) := by
  simp only [ensureDetached, bind_eq_error]
  constructor
  · rintro (hfault | ⟨o, ho, hfault⟩)
    · exact (failsIn_holder unknownVariable_namesNoHolder r t _ hfault).elim
    · cases o with
      | none => cases hfault
      | some j =>
        cases hfault
        exact ⟨rfl, ho⟩
  · rintro ⟨rfl, hholder⟩
    exact Or.inr ⟨some k, hholder, rfl⟩

theorem attached_eq_alreadyBound {i : InsnId} :
    r.attached i t = .error (.alreadyBound a k) ↔ a = r.id ∧ r.holder t = .ok (some k) := by
  rw [← ensureDetached_eq_alreadyBound, attached, bind_eq_error]
  refine or_iff_left ?_
  rintro ⟨_, -, hfault⟩
  exact VarTable.failsIn_addReader unknownVariable_namesNoHolder _ _ hfault

end Register

/-- The instruction `i`, which is to take the operand, finds `k` in the way: that is `i` itself if it
holds the instance, and else the holder of a register, as far as the handle and the records can
tell. -/
inductive Insn.Blocks (i : Insn) (t : VarTable) (a : Operand) : InsnId → Prop where
  | self (hheld : ∃ b ∈ i.args, b.id = a.id) : Blocks i t a i.id
  | holder {r : Register} {k : InsnId} (habsent : ∀ b ∈ i.args, b.id ≠ a.id)
    (hr : a = .register r) (hholder : r.holder t = .ok (some k)) : Blocks i t a k

namespace Operand

variable {a : Operand} {t : VarTable} {b : OperandId} {k : InsnId}

/-- What makes an operand fail to be detached stands in the way of an instruction that does not hold
it. -/
theorem blocks_of_ensureDetached {i : Insn} (habsent : ∀ b ∈ i.args, b.id ≠ a.id)
    (h : a.ensureDetached t = .error (.alreadyBound b k)) : b = a.id ∧ i.Blocks t a k := by
  cases a with
  | literal l => cases h
  | register r =>
    rcases Register.ensureDetached_eq_alreadyBound.1 h with ⟨hid, hholder⟩
    exact ⟨hid, .holder habsent rfl hholder⟩

theorem attached_eq_alreadyBound {i : InsnId} :
    a.attached i t = .error (.alreadyBound b k) ↔
      ∃ r, a = .register r ∧ b = r.id ∧ r.holder t = .ok (some k) := by
  cases a with
  | literal l => simp [attached]
  | register r => simp [attached, Register.attached_eq_alreadyBound]

theorem blocks_of_attached {i : Insn} {j : InsnId} (habsent : ∀ b ∈ i.args, b.id ≠ a.id)
    (h : a.attached j t = .error (.alreadyBound b k)) : b = a.id ∧ i.Blocks t a k := by
  rcases attached_eq_alreadyBound.1 h with ⟨r, rfl, hid, hholder⟩
  exact ⟨hid, .holder habsent rfl hholder⟩

end Operand

/-! ## Nodes -/

namespace Node

variable {a : Operand} {s s' : Linked Node} {b : OperandId} {k : InsnId}

theorem forall_ne_of_not_holds {n : Node} {c : OperandId} (h : n.holds c ≠ true) :
    ∀ b ∈ n.args, b.id ≠ c :=
  fun b hb hid => h (holds_iff.2 ⟨b, hb, hid⟩)

theorem blocks_of_argAdded (h : argAdded a s = .error (.alreadyBound b k)) :
    b = a.id ∧ (Insn.node s.insn).Blocks s.vars a k := by
  rw [argAdded, refusal_eq_error] at h
  rcases h with ⟨hheld, hself⟩ | ⟨habsent, hattach⟩
  · cases hself
    exact ⟨rfl, .self (holds_iff.1 hheld)⟩
  · rw [bind_eq_error] at hattach
    rcases hattach with hattach | ⟨t, -, hrest⟩
    · exact Operand.blocks_of_attached (forall_ne_of_not_holds habsent) hattach
    · cases hrest

theorem blocks_of_replacement {index : Nat}
    (h : replacement index a s = .error (.alreadyBound b k)) :
    b = a.id ∧ (Insn.node s.insn).Blocks s.vars a k := by
  unfold replacement at h
  cases hindex : s.insn.argIndex a.id with
  | some i =>
    simp only [hindex] at h
    by_cases hi : i = index
    · rw [if_pos hi] at h
      cases h
    · rw [if_neg hi] at h
      cases h
      rcases argIndex_eq_some hindex with ⟨o, ho, hid⟩
      exact ⟨rfl, .self ⟨o, List.mem_of_getElem? ho, hid⟩⟩
  | none =>
    simp only [hindex, map_eq_error] at h
    exact Operand.blocks_of_ensureDetached (argIndex_eq_none.1 hindex) h

/-- An operand that is to be set is refused at once, or on being attached in the place that another one
has left. -/
theorem setArg_eq_alreadyBound {index : Nat}
    (h : setArg index a s = .error (.alreadyBound b k) s') :
    (s' = s ∧ b = a.id ∧ (Insn.node s.insn).Blocks s.vars a k) ∨
      ∃ old o, s.insn.args[index]? = some old ∧ replacement index a s = .ok o ∧
        o.attached s.insn.id (s.vars.onVar old.var? (·.dropUse old.id)) =
          .error (.alreadyBound b k) := by
  cases hrep : replacement index a s with
  | error e =>
    rw [setArg_refused hrep] at h
    cases h
    exact Or.inl ⟨rfl, blocks_of_replacement hrep⟩
  | ok o =>
    rw [setArg_of_replacement hrep, run_bind_eq_error] at h
    rcases h with hvacate | ⟨d, s₁, hvacate, hrest⟩
    · -- giving up the old argument finds no fault with the new one
      have hfault := failsIn_vacate (F := Fault.NamesNoHolder) (k := index)
        unknownVariable_namesNoHolder trivial s
      rw [hvacate] at hfault
      exact (hfault _ rfl).elim
    · rw [run_bind_eq_error, run_atomically_eq_error] at hrest
      rcases hrest with ⟨hoccupy, -⟩ | ⟨_, _, -, hpure⟩
      · unfold vacate at hvacate
        cases hold : s.insn.args[index]? with
        | none =>
          rw [hold] at hvacate
          cases hvacate
        | some old =>
          simp only [hold] at hvacate
          cases hrelease : old.release s.vars with
          | error e =>
            rw [hrelease] at hvacate
            cases hvacate
          | ok t =>
            rw [hrelease] at hvacate
            cases hvacate
            rw [occupied, bind_eq_error] at hoccupy
            rcases hoccupy with hattach | ⟨_, -, hrest⟩
            · rw [(Operand.release_eq_ok.1 hrelease).2] at hattach
              exact Or.inr ⟨old, o, rfl, rfl, hattach⟩
            · cases hrest
      · cases hpure

end Node

/-! ## Phis -/

namespace Phi

variable {r : Register} {s s' : Linked Phi} {b : OperandId} {k : InsnId}

theorem holds_iff_exists_arg {p : Phi} {a : OperandId} :
    p.holds a = true ↔ ∃ b ∈ (Insn.phi p).args, b.id = a := by
  simp [holds_iff, Insn.args, Operand.id]

theorem forall_ne_of_not_holds {p : Phi} {c : OperandId} (h : p.holds c ≠ true) :
    ∀ b ∈ (Insn.phi p).args, b.id ≠ c :=
  fun b hb hid => h (holds_iff_exists_arg.2 ⟨b, hb, hid⟩)

theorem blocks_of_bindingInserted {index : Nat} {pred : BlockId}
    (h : bindingInserted index r pred s = .error (.alreadyBound b k)) :
    pred ∉ s.insn.preds ∧ b = r.id ∧ (Insn.phi s.insn).Blocks s.vars (.register r) k := by
  rw [bindingInserted, refusal_eq_error, refusal_eq_error] at h
  rcases h with ⟨-, hduplicate⟩ | ⟨hpred, ⟨hheld, hself⟩ | ⟨habsent, hattach⟩⟩
  · cases hduplicate
  · cases hself
    exact ⟨fun hmem => hpred (hasPredecessor_iff.2 hmem), rfl, .self (holds_iff_exists_arg.1 hheld)⟩
  · refine ⟨fun hmem => hpred (hasPredecessor_iff.2 hmem), ?_⟩
    rw [bind_eq_error] at hattach
    rcases hattach with hattach | ⟨t, -, hrest⟩
    · exact Operand.blocks_of_attached (a := .register r) (forall_ne_of_not_holds habsent)
        hattach
    · rw [bind_eq_error] at hrest
      rcases hrest with hlist | ⟨_, -, hpure⟩
      · exact (VarTable.failsIn_addConsumerFor unknownVariable_namesNoHolder _ _ _ hlist).elim
      · cases hpure

theorem blocks_of_replacement {old : OperandId}
    (h : replacement old r s = .error (.alreadyBound b k)) :
    b = r.id ∧ (Insn.phi s.insn).Blocks s.vars (.register r) k := by
  rw [replacement, bind_eq_error] at h
  rcases h with hknown | ⟨_, -, h⟩
  · exact (VarTable.failsIn_ensureKnown unknownVariable_namesNoHolder _ _ hknown).elim
  · by_cases hid : r.id = old
    · rw [if_pos hid] at h
      cases h
    · rw [if_neg hid, refusal_eq_error] at h
      rcases h with ⟨hheld, hself⟩ | ⟨habsent, hdetached⟩
      · cases hself
        exact ⟨rfl, .self (holds_iff_exists_arg.1 hheld)⟩
      · rw [bind_eq_error] at hdetached
        rcases hdetached with hdetached | ⟨_, -, hpure⟩
        · exact Operand.blocks_of_ensureDetached (a := .register r)
            (forall_ne_of_not_holds habsent) hdetached
        · cases hpure

/-- A register that is to replace another one is refused at once, or on being bound in its place. -/
theorem replaceArg_eq_alreadyBound {old : OperandId}
    (h : replaceArg old r s = .error (.alreadyBound b k) s') :
    (s' = s ∧ s.insn.argIndex old ≠ none ∧ b = r.id ∧
        (Insn.phi s.insn).Blocks s.vars (.register r) k) ∨
      ∃ index pred r' o s₁, s.insn.argIndex old = some index ∧ replacement old r s = .ok r' ∧
        removeArgAt index s = .ok o s₁ ∧
        bindingInserted index r' pred s₁ = .error (.alreadyBound b k) := by
  rw [replaceArg_apply] at h
  cases hindex : s.insn.argIndex old with
  | none =>
    rw [hindex] at h
    cases h
  | some index =>
    rcases blockAt?_of_argIndex hindex with ⟨pred, hpred⟩
    cases hrep : replacement old r s with
    | error e =>
      simp only [hindex, hpred, hrep] at h
      cases h
      exact Or.inl ⟨rfl, Option.some_ne_none index, blocks_of_replacement hrep⟩
    | ok r' =>
      simp only [hindex, hpred, hrep, run_bind_eq_error, run_atomically_eq_error] at h
      rcases h with hremove | ⟨o, s₁, hremove, ⟨hins, -⟩ | ⟨_, _, -, hpure⟩⟩
      · have hfault := failsIn_removeArgAt (F := Fault.NamesNoHolder) (k := index)
          unknownVariable_namesNoHolder trivial s
        rw [hremove] at hfault
        exact (hfault _ rfl).elim
      · exact Or.inr ⟨index, pred, r', o, s₁, rfl, rfl, hremove, hins⟩
      · cases hpure

end Phi

/-! ## Renaming -/

namespace Insn

variable {v : VarId} {a : OperandId} {k : InsnId}

theorem useSite_of_readerMoved {r : Register} {t : VarTable}
    (h : readerMoved r v t = .error (.alreadyBound a k)) :
    ∃ x, t.get? v = some x ∧ x.useSite a = some k := by
  have hmove : ∀ e, (t.removeReader r >>= fun t => t.addReader (r.naming v)) = .error e →
      e.NamesNoHolder :=
    failsIn_bind (VarTable.failsIn_removeReader unknownVariable_namesNoHolder r) fun _ =>
      VarTable.failsIn_addReader unknownVariable_namesNoHolder _
  rw [readerMoved, bind_eq_error] at h
  rcases h with hfind | ⟨x, hx, h⟩
  · exact (VarTable.failsIn_find unknownVariable_namesNoHolder v _ hfind).elim
  · cases hsite : x.useSite r.id with
    | none =>
      rw [hsite] at h
      exact (hmove _ h).elim
    | some i =>
      simp only [hsite] at h
      by_cases howner : r.owner ≠ some i
      · rw [if_pos howner] at h
        cases h
        exact ⟨x, VarTable.find_eq_ok.1 hx, hsite⟩
      · rw [if_neg howner] at h
        exact (hmove _ h).elim

/-- What is in the way of an argument that is to read `v` is where `v` records the instance. -/
theorem useSite_of_varAttached {index : Nat} {s : Linked Insn}
    (h : varAttached index v s = .error (.alreadyBound a k)) :
    ∃ x, s.vars.get? v = some x ∧ x.useSite a = some k := by
  obtain ⟨i, t⟩ := s
  rw [varAttached, bind_eq_error] at h
  rcases h with hknown | ⟨_, -, h⟩
  · exact (VarTable.failsIn_ensureKnown unknownVariable_namesNoHolder _ _ hknown).elim
  · cases i with
    | phi p =>
      cases hb : p.bindings[index]? with
      | none =>
        simp only [hb] at h
        cases h
      | some b =>
        simp only [hb, bind_eq_error] at h
        rcases h with hmove | ⟨_, -, hrefresh | ⟨_, -, hadd | ⟨_, -, hpure⟩⟩⟩
        · exact useSite_of_readerMoved hmove
        · exact (VarTable.failsIn_refreshConsumersFor unknownVariable_namesNoHolder _ _
            hrefresh).elim
        · exact (VarTable.failsIn_update unknownVariable_namesNoHolder _ _ _ hadd).elim
        · cases hpure
    | node n =>
      cases hb : n.args[index]? with
      | none =>
        simp only [hb] at h
        cases h
      | some b =>
        cases b with
        | literal l =>
          simp only [hb] at h
          cases h
        | register r =>
          simp only [hb, bind_eq_error] at h
          rcases h with hmove | ⟨_, -, hpure⟩
          · exact useSite_of_readerMoved hmove
          · cases hpure

end Insn

end SsaForm
