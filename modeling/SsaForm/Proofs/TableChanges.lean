import SsaForm.Attachment
import SsaForm.Proofs.Edits

/-!
# SsaForm.Proofs.TableChanges — changes of the table on behalf of an operand

The records are changed through functions that fail on an unknown variable. Each of them is an
equation here: it succeeds exactly if the table knows the variable, and then it changes that
variable alone (`VarTable.onVar`). With them, `Register.attached_eq_ok` and `Operand.attached_eq_ok`
say when an operand can be attached (`Free`) and what that leaves.

A change of one record leaves the others alone: `VarTable.Same π` compares two tables by
what `π` reads of each variable.
-/

namespace SsaForm

/-- A sequence of steps succeeds if the first one does and the others do with its value. -/
theorem bind_eq_ok {ε α β : Type} {x : Except ε α} {f : α → Except ε β} {b : β} :
    (x >>= f) = .ok b ↔ ∃ a, x = .ok a ∧ f a = .ok b := by
  cases x with
  | error e => simp [bind, Except.bind]
  | ok a => simp [bind, Except.bind]

theorem map_eq_ok {ε α β : Type} {x : Except ε α} {f : α → β} {b : β} :
    x.map f = .ok b ↔ ∃ a, x = .ok a ∧ f a = b := by
  cases x with
  | error e => simp [Except.map]
  | ok a => simp [Except.map]

/-- A sequence of steps fails where the first one does, or where the others do with its value. -/
theorem bind_eq_error {ε α β : Type} {x : Except ε α} {f : α → Except ε β} {e : ε} :
    (x >>= f) = .error e ↔ x = .error e ∨ ∃ a, x = .ok a ∧ f a = .error e := by
  cases x with
  | error e => simp [bind, Except.bind]
  | ok a => simp [bind, Except.bind]

theorem map_eq_error {ε α β : Type} {x : Except ε α} {f : α → β} {e : ε} :
    x.map f = .error e ↔ x = .error e := by
  cases x with
  | error e => simp [Except.map]
  | ok a => simp [Except.map]

/-- A refusal that stands before the other steps. -/
theorem refusal_eq_ok {ε β : Type} {c : Prop} [Decidable c] {e : ε} {x : Except ε β} {b : β} :
    (if c then (Except.error e >>= fun _ : Unit => x) else x) = .ok b ↔ ¬ c ∧ x = .ok b := by
  by_cases h : c
  · simp [h, bind, Except.bind]
  · simp [h]

theorem refusal_eq_error {ε β : Type} {c : Prop} [Decidable c] {e e' : ε} {x : Except ε β} :
    (if c then (Except.error e >>= fun _ : Unit => x) else x) = .error e' ↔
      c ∧ e = e' ∨ ¬ c ∧ x = .error e' := by
  by_cases h : c
  · simp [h, bind, Except.bind]
  · simp [h]

namespace VarTable

/-! ## One variable, if any -/

/-- Changes a variable if one is named; without effect where the table does not have it. -/
def onVar (t : VarTable) (v : Option VarId) (f : Variable → Variable) : VarTable :=
  match v with
  | some v => t.modify v f
  | none => t

/-- Does the table have the variable, if one is named? -/
def Knows (t : VarTable) (v : Option VarId) : Prop := ∀ w, v = some w → w ∈ t

theorem get?_onVar (t : VarTable) (v : Option VarId) (f : Variable → Variable) (w : VarId) :
    (t.onVar v f).get? w = (t.get? w).map fun x => if v = some w then f x else x := by
  cases v with
  | none => simp [onVar]
  | some v =>
    rw [onVar, get?_modify]
    by_cases h : v = w
    · simp [h]
    · simp [h]

/-- Tables are told apart by their variables. -/
theorem ext_get? {t s : VarTable} (h : ∀ v, s.get? v = t.get? v) : s = t := by
  obtain ⟨l⟩ := t
  obtain ⟨l'⟩ := s
  exact congrArg VarTable.mk (List.ext_getElem? fun k => h ⟨k⟩)

/-- Changes that take each other back leave the table as it was. -/
theorem onVar_eq_self {t : VarTable} {v : Option VarId} {f : Variable → Variable}
    (h : ∀ w x, v = some w → t.get? w = some x → f x = x) : t.onVar v f = t := by
  refine ext_get? fun w => ?_
  rw [get?_onVar]
  cases hx : t.get? w with
  | none => rfl
  | some x =>
    by_cases hv : v = some w
    · rw [Option.map_some, if_pos hv, h w x hv hx]
    · rw [Option.map_some, if_neg hv]

theorem onVar_onVar (t : VarTable) (v : Option VarId) (f g : Variable → Variable) :
    (t.onVar v f).onVar v g = t.onVar v fun x => g (f x) := by
  cases v with
  | none => rfl
  | some v => exact congrArg VarTable.mk (List.modify_modify_eq f g _ _)

/-- Changes of different variables do not get into each other's way. -/
theorem onVar_comm {v w : Option VarId} (h : v ≠ w) (t : VarTable) (f g : Variable → Variable) :
    (t.onVar v f).onVar w g = (t.onVar w g).onVar v f := by
  cases v with
  | none => rfl
  | some v =>
    cases w with
    | none => rfl
    | some w =>
      have hne : v.index ≠ w.index := by
        intro heq
        cases v
        cases w
        cases heq
        exact h rfl
      exact congrArg VarTable.mk (List.modify_modify_ne f g _ hne)

@[simp] theorem mem_onVar {t : VarTable} {v : Option VarId} {f : Variable → Variable} {w : VarId} :
    w ∈ t.onVar v f ↔ w ∈ t := by
  cases v with
  | none => rfl
  | some v => exact mem_modify

@[simp] theorem knows_onVar {t : VarTable} {v w : Option VarId} {f : Variable → Variable} :
    (t.onVar v f).Knows w ↔ t.Knows w := by
  simp [Knows]

theorem knows_none (t : VarTable) : t.Knows none := fun _ h => nomatch h

theorem knows_some {t : VarTable} {v : VarId} : t.Knows (some v) ↔ v ∈ t := by
  simp [Knows]

theorem mem_of_get? {t : VarTable} {v : VarId} {x : Variable} (h : t.get? v = some x) : v ∈ t := by
  rw [← get?_isSome, h]
  rfl

theorem exists_get? {t : VarTable} {v : VarId} (h : v ∈ t) : ∃ x, t.get? v = some x :=
  Option.isSome_iff_exists.1 (get?_isSome.2 h)

theorem get?_alloc (t : VarTable) (reg version : Nat) (v : VarId) :
    (t.alloc reg version).2.get? v =
      if v = ⟨t.vars.length⟩ then some { id := ⟨t.vars.length⟩, reg := reg, version := version }
      else t.get? v := by
  obtain ⟨v⟩ := v
  simp only [get?, alloc, VarId.mk.injEq]
  by_cases hv : v = t.vars.length
  · simp [hv]
  · rw [if_neg hv]
    by_cases hlt : v < t.vars.length
    · rw [List.getElem?_append_left hlt]
    · have hgt : t.vars.length < v := by omega
      rw [List.getElem?_eq_none (Nat.le_of_lt hgt), List.getElem?_eq_none]
      rw [List.length_append]
      exact hgt

theorem not_mem_next (t : VarTable) : (⟨t.vars.length⟩ : VarId) ∉ t := Nat.lt_irrefl _

theorem mem_alloc {t : VarTable} {v : VarId} (h : v ∈ t) (reg version : Nat) :
    v ∈ (t.alloc reg version).2 := by
  rw [mem_def] at h ⊢
  simp only [alloc, List.length_append]
  omega

/-- The table without the definition by a result, if there is one. -/
def forget (t : VarTable) : Option Register → VarTable
  | some r => t.onVar r.var (·.undefine r.id)
  | none => t

@[simp] theorem mem_forget {t : VarTable} {o : Option Register} {v : VarId} :
    v ∈ t.forget o ↔ v ∈ t := by
  cases o with
  | none => rfl
  | some r => exact mem_onVar

/-! ## The changes as equations -/

theorem ensureKnown_eq_ok {t : VarTable} {v : Option VarId} {u : Unit} :
    t.ensureKnown v = .ok u ↔ t.Knows v := by
  cases v with
  | none => simp [ensureKnown, knows_none]
  | some v =>
    rw [knows_some]
    by_cases h : v ∈ t
    · simp [ensureKnown, h]
    · simp [ensureKnown, h]

theorem dropUse_eq_ok {t : VarTable} {v : VarId} {a : OperandId} {r : Bool × VarTable} :
    t.dropUse v a = .ok r ↔
      ∃ x, t.get? v = some x ∧ r = (x.usedBy a, t.modify v (·.dropUse a)) := by
  simp only [dropUse, bind_eq_ok, find_eq_ok, pure, Except.pure, Except.ok.injEq, eq_comm (a := r)]

theorem undefine_eq_ok {t : VarTable} {v : VarId} {a : OperandId} {r : Bool × VarTable} :
    t.undefine v a = .ok r ↔
      ∃ x, t.get? v = some x ∧ r = (x.definedBy a, t.modify v (·.undefine a)) := by
  simp only [undefine, bind_eq_ok, find_eq_ok, pure, Except.pure, Except.ok.injEq, eq_comm (a := r)]

/-- A change of the variable that is named succeeds if the table has it. -/
theorem onVar_eq_ok {t s : VarTable} {v : Option VarId} {f : Variable → Variable} :
    (t.ensureKnown v).map (fun _ => t.onVar v f) = .ok s ↔ t.Knows v ∧ s = t.onVar v f := by
  rw [map_eq_ok]
  constructor
  · rintro ⟨u, hknown, rfl⟩
    exact ⟨ensureKnown_eq_ok.1 hknown, rfl⟩
  · rintro ⟨hknown, rfl⟩
    exact ⟨(), ensureKnown_eq_ok.2 hknown, rfl⟩

theorem update_eq (t : VarTable) (v : VarId) (f : Variable → Variable) :
    t.update v f = (t.ensureKnown (some v)).map fun _ => t.onVar (some v) f := by
  simp only [update, ensureKnown, onVar]
  split <;> rfl

/-- A look at the variable does not make more of a difference than the change. -/
theorem find_bind_modify {β : Type} (t : VarTable) (v : VarId) (g : Variable → β)
    (f : Variable → Variable) :
    (t.find v >>= fun x => pure (g x, t.modify v f)).map (·.2) =
      (t.ensureKnown (some v)).map fun _ => t.onVar (some v) f := by
  simp only [find, ensureKnown, ← get?_isSome, onVar]
  cases t.get? v <;> rfl

theorem addReader_eq (t : VarTable) (r : Register) :
    t.addReader r = (t.ensureKnown r.var).map fun _ => t.onVar r.var (·.recordUse r.site) := by
  unfold addReader
  cases r.var with
  | none => rfl
  | some v => exact t.update_eq v _

theorem removeReader_eq (t : VarTable) (r : Register) :
    t.removeReader r = (t.ensureKnown r.var).map fun _ => t.onVar r.var (·.dropUse r.id) := by
  unfold removeReader
  cases r.var with
  | none => rfl
  | some v => exact t.find_bind_modify v _ _

theorem addConsumerFor_eq (t : VarTable) (r : Register) (p : InsnId) :
    t.addConsumerFor r p =
      (t.ensureKnown r.var).map fun _ => t.onVar r.var (·.addConsumer p) := by
  unfold addConsumerFor
  cases r.var with
  | none => rfl
  | some v => exact t.update_eq v _

theorem refreshConsumersFor_eq (t : VarTable) (r : Register) :
    t.refreshConsumersFor r =
      (t.ensureKnown r.var).map fun _ => t.onVar r.var (·.refreshConsumers) := by
  unfold refreshConsumersFor
  cases r.var with
  | none => rfl
  | some v => exact t.update_eq v _

theorem addDefiner_eq (t : VarTable) (r : Register) :
    t.addDefiner r = (t.ensureKnown r.var).map fun _ => t.onVar r.var (·.define r.site) := by
  unfold addDefiner
  cases r.var with
  | none => rfl
  | some v => exact t.update_eq v _

theorem removeDefiner_eq (t : VarTable) (r : Register) :
    t.removeDefiner r = (t.ensureKnown r.var).map fun _ => t.onVar r.var (·.undefine r.id) := by
  unfold removeDefiner
  cases r.var with
  | none => rfl
  | some v => exact t.find_bind_modify v _ _

theorem addReader_eq_ok {t s : VarTable} {r : Register} :
    t.addReader r = .ok s ↔ t.Knows r.var ∧ s = t.onVar r.var (·.recordUse r.site) := by
  rw [addReader_eq, onVar_eq_ok]

theorem removeReader_eq_ok {t s : VarTable} {r : Register} :
    t.removeReader r = .ok s ↔ t.Knows r.var ∧ s = t.onVar r.var (·.dropUse r.id) := by
  rw [removeReader_eq, onVar_eq_ok]

theorem addConsumerFor_eq_ok {t s : VarTable} {r : Register} {p : InsnId} :
    t.addConsumerFor r p = .ok s ↔ t.Knows r.var ∧ s = t.onVar r.var (·.addConsumer p) := by
  rw [addConsumerFor_eq, onVar_eq_ok]

theorem refreshConsumersFor_eq_ok {t s : VarTable} {r : Register} :
    t.refreshConsumersFor r = .ok s ↔ t.Knows r.var ∧ s = t.onVar r.var (·.refreshConsumers) := by
  rw [refreshConsumersFor_eq, onVar_eq_ok]

theorem addDefiner_eq_ok {t s : VarTable} {r : Register} :
    t.addDefiner r = .ok s ↔ t.Knows r.var ∧ s = t.onVar r.var (·.define r.site) := by
  rw [addDefiner_eq, onVar_eq_ok]

theorem removeDefiner_eq_ok {t s : VarTable} {r : Register} :
    t.removeDefiner r = .ok s ↔ t.Knows r.var ∧ s = t.onVar r.var (·.undefine r.id) := by
  rw [removeDefiner_eq, onVar_eq_ok]

/-! ## What a change leaves alone -/

variable {β : Type} {π : Variable → β}

/-- Two tables with the same variables, of which `π` reads the same. -/
def Same (π : Variable → β) (t s : VarTable) : Prop := ∀ v, (s.get? v).map π = (t.get? v).map π

theorem Same.refl (t : VarTable) : Same π t t := fun _ => rfl

theorem Same.trans {t s u : VarTable} (h : Same π t s) (h' : Same π s u) : Same π t u :=
  fun v => (h' v).trans (h v)

theorem Same.symm {t s : VarTable} (h : Same π t s) : Same π s t := fun v => (h v).symm

/-- A change that `π` does not see. -/
theorem same_onVar {f : Variable → Variable} (hf : ∀ x, π (f x) = π x) (t : VarTable)
    (v : Option VarId) : Same π t (t.onVar v f) := by
  intro w
  rw [get?_onVar, Option.map_map]
  congr 1
  funext x
  by_cases h : v = some w
  · simp [h, hf]
  · simp [h]

theorem Same.mem_iff {t s : VarTable} (h : Same π t s) {v : VarId} : v ∈ s ↔ v ∈ t := by
  rw [← get?_isSome, ← get?_isSome, ← Option.isSome_map (f := π), h v, Option.isSome_map]

theorem Same.knows_iff {t s : VarTable} (h : Same π t s) {v : Option VarId} :
    s.Knows v ↔ t.Knows v := by
  simp only [Knows, h.mem_iff]

/-- What is read of a variable of the later table was there before. -/
theorem Same.get? {t s : VarTable} (h : Same π t s) {v : VarId} {y : Variable}
    (hy : s.get? v = some y) : ∃ x, t.get? v = some x ∧ π y = π x := by
  have hv := h v
  rw [hy] at hv
  cases hx : t.get? v with
  | none => simp [hx] at hv
  | some x =>
    rw [hx] at hv
    exact ⟨x, rfl, by simpa using hv⟩

end VarTable

/-! ## Attaching -/

namespace Register

/-- The register stands nowhere, as far as its handle and the records of its variable can tell. -/
structure Free (r : Register) (t : VarTable) : Prop where
  owner : r.owner = none
  known : t.Knows r.var
  unused : ∀ v x, r.var = some v → t.get? v = some x → x.useSite r.id = none

theorem ensureDetached_eq_ok {r : Register} {t : VarTable} {u : Unit} :
    r.ensureDetached t = .ok u ↔ r.Free t := by
  -- a register is detached if neither the handle nor a record names a holder
  have hnone : r.ensureDetached t = .ok u ↔ r.holder t = .ok none := by
    simp only [ensureDetached, bind_eq_ok]
    constructor
    · rintro ⟨h, hh, hok⟩
      cases h with
      | none => exact hh
      | some i => simp at hok
    · intro h
      exact ⟨none, h, rfl⟩
  rw [hnone]
  cases hv : r.var with
  | none =>
    simp only [holder, hv, Except.ok.injEq]
    exact ⟨fun h => ⟨h, hv ▸ t.knows_none, by simp [hv]⟩, fun h => h.owner⟩
  | some v =>
    simp only [holder, hv, map_eq_ok, VarTable.find_eq_ok, Option.or_eq_none_iff]
    constructor
    · rintro ⟨x, hx, howner, huse⟩
      refine ⟨howner, hv ▸ VarTable.knows_some.2 (VarTable.mem_of_get? hx), ?_⟩
      intro w y hw hy
      rw [hv, Option.some.injEq] at hw
      rw [← hw, hx, Option.some.injEq] at hy
      exact hy ▸ huse
    · intro h
      rcases VarTable.exists_get? (h.known v hv) with ⟨x, hx⟩
      exact ⟨x, hx, h.owner, h.unused v x hv hx⟩

/-- The table in which the register, given to an instruction, is recorded as a use. -/
def attached (r : Register) (insn : InsnId) (t : VarTable) : Except Fault VarTable := do
  r.ensureDetached t
  t.addReader (r.ownedBy insn)

/-- Attaching asks first and writes once. -/
theorem attach_eq (r : Register) (insn : InsnId) :
    r.attach insn = Edit.atomically (r.attached insn) :=
  Edit.ask_bind_atomically _ _

theorem attached_eq_ok {r : Register} {i : InsnId} {t s : VarTable} :
    r.attached i t = .ok s ↔ r.Free t ∧ s = t.onVar r.var (·.recordUse ⟨r.id, some i⟩) := by
  simp only [attached, bind_eq_ok, ensureDetached_eq_ok, VarTable.addReader_eq_ok]
  constructor
  · rintro ⟨_, hfree, -, hs⟩
    exact ⟨hfree, hs⟩
  · rintro ⟨hfree, hs⟩
    exact ⟨(), hfree, hfree.known, hs⟩

end Register

namespace Operand

/-- A literal is free at all times, a register while it stands nowhere. -/
def Free (a : Operand) (t : VarTable) : Prop :=
  match a with
  | register r => r.Free t
  | literal _ => True

theorem Free.known {a : Operand} {t : VarTable} (h : a.Free t) : t.Knows a.var? := by
  cases a with
  | register r => exact Register.Free.known h
  | literal l => exact t.knows_none

theorem ensureDetached_eq_ok {a : Operand} {t : VarTable} {u : Unit} :
    a.ensureDetached t = .ok u ↔ a.Free t := by
  cases a with
  | register r => exact Register.ensureDetached_eq_ok
  | literal l => simp [ensureDetached, Free]

/-- The table in which the operand, given to an instruction, is recorded as a use. -/
def attached (a : Operand) (insn : InsnId) (t : VarTable) : Except Fault VarTable :=
  match a with
  | register r => r.attached insn t
  | literal _ => .ok t

theorem attach_eq (a : Operand) (insn : InsnId) :
    a.attach insn = Edit.atomically (a.attached insn) := by
  cases a with
  | register r => exact r.attach_eq insn
  | literal l => rfl

theorem attached_eq_ok {a : Operand} {i : InsnId} {t s : VarTable} :
    a.attached i t = .ok s ↔
      a.Free t ∧ s = t.onVar a.var? (·.recordUse ⟨a.id, some i⟩) := by
  cases a with
  | literal l => simp [attached, Free, var?, register?, VarTable.onVar, eq_comm]
  | register r => exact Register.attached_eq_ok

theorem release_eq_ok {a : Operand} {t s : VarTable} :
    a.release t = .ok s ↔ t.Knows a.var? ∧ s = t.onVar a.var? (·.dropUse a.id) := by
  cases a with
  | literal l => simp [release, var?, register?, VarTable.knows_none, VarTable.onVar, eq_comm]
  | register r => exact VarTable.removeReader_eq_ok

end Operand

end SsaForm
