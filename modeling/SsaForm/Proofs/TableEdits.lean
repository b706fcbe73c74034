import SsaForm.Proofs.Records
import SsaForm.VarTable.TableEdit

/-!
# SsaForm.Proofs.TableEdits — a change of a table as a change of one variable

Apart from the one that makes a variable, an edit names a variable (`TableEdit.var?`), and that is all
it looks at: where the table lacks it the edit is refused (`perform_of_not_mem`), and otherwise it
returns an answer about the variable and changes that variable alone (`perform_of_get?`).

What holds of a new variable and survives each change holds of every variable that edits leave
(`VarTable.each_keptByChanges`): instances are recorded once, and variables carry the identities by which
they are found.
-/

namespace SsaForm

namespace TableEdit

/-- The variable that is named. A new variable is not. -/
def var? : TableEdit → Option VarId
  | .newVar _ _ => none
  | .setType v _ | .define v _ | .undefine v _ | .recordUse v _ | .dropUse v _ | .addConsumer v _
  | .refreshConsumers v => some v

/-- What becomes of the variable that is named. -/
def change : TableEdit → Variable → Variable
  | .newVar _ _ => id
  | .setType _ type => (·.setType type)
  | .define _ s => (·.define s)
  | .undefine _ a => (·.undefine a)
  | .recordUse _ s => (·.recordUse s)
  | .dropUse _ a => (·.dropUse a)
  | .addConsumer _ p => (·.addConsumer p)
  | .refreshConsumers _ => (·.refreshConsumers)

/-- What is returned about the variable that is named. -/
def answer : TableEdit → Variable → Answer
  | .undefine _ a => fun x => .flag (x.definedBy a)
  | .dropUse _ a => fun x => .flag (x.usedBy a)
  | _ => fun _ => .done

/-- The value or the fault of an edit. -/
def verdict (t : VarTable) (e : TableEdit) : Except Fault Answer := (e.perform t).map (·.1)

/-- The table after an edit. A failed one leaves it as it was. -/
def next (t : VarTable) (e : TableEdit) : VarTable :=
  match e.perform t with
  | .ok r => r.2
  | .error _ => t

/-- No change gives a variable another identity, register or version. -/
theorem label_change (e : TableEdit) (x : Variable) :
    (e.change x).id = x.id ∧ (e.change x).reg = x.reg ∧ (e.change x).version = x.version := by
  cases e with
  | undefine w a => simp [change, Variable.undefine_eq]
  | addConsumer w p => simp [change, Variable.addConsumer_eq]
  | _ => exact ⟨rfl, rfl, rfl⟩

variable {t : VarTable} {e : TableEdit} {v : VarId}

theorem exists_eq_newVar (he : e.var? = none) : ∃ reg version, e = .newVar reg version := by
  cases e with
  | newVar reg version => exact ⟨reg, version, rfl⟩
  | _ => cases he

theorem perform_of_get? (he : e.var? = some v) {x : Variable} (hx : t.get? v = some x) :
    e.perform t = .ok (e.answer x, t.modify v e.change) := by
  have hupdate : ∀ f, perform.done (t.update v f) = .ok (.done, t.modify v f) := by
    intro f
    exact map_eq_ok.2 ⟨_, VarTable.update_eq_ok.2 ⟨VarTable.mem_of_get? hx, rfl⟩, rfl⟩
  cases e with
  | newVar reg version => cases he
  | undefine w a =>
    cases he
    exact map_eq_ok.2 ⟨_, VarTable.undefine_eq_ok.2 ⟨x, hx, rfl⟩, rfl⟩
  | dropUse w a =>
    cases he
    exact map_eq_ok.2 ⟨_, VarTable.dropUse_eq_ok.2 ⟨x, hx, rfl⟩, rfl⟩
  | _ =>
    cases he
    exact hupdate _

theorem perform_of_not_mem (he : e.var? = some v) (hv : v ∉ t) :
    e.perform t = .error (.unknownVariable v) := by
  have hfind : t.find v = .error (.unknownVariable v) := VarTable.find_eq_error.2 ⟨hv, rfl⟩
  have hupdate : ∀ f, perform.done (t.update v f) = .error (.unknownVariable v) := by
    intro f
    exact map_eq_error.2 (VarTable.update_eq_error.2 ⟨hv, rfl⟩)
  cases e with
  | newVar reg version => cases he
  | undefine w a =>
    cases he
    exact map_eq_error.2 (bind_eq_error.2 (Or.inl hfind))
  | dropUse w a =>
    cases he
    exact map_eq_error.2 (bind_eq_error.2 (Or.inl hfind))
  | _ =>
    cases he
    exact hupdate _

/-- An edit is refused only for the variable that it names. -/
theorem perform_eq_error {f : Fault} (h : e.perform t = .error f) : ∃ v, f = .unknownVariable v := by
  cases he : e.var? with
  | none =>
    rcases exists_eq_newVar he with ⟨reg, version, rfl⟩
    cases h
  | some v =>
    by_cases hv : v ∈ t
    · rcases VarTable.exists_get? hv with ⟨x, hx⟩
      rw [perform_of_get? he hx] at h
      cases h
    · rw [perform_of_not_mem he hv, Except.error.injEq] at h
      exact ⟨v, h.symm⟩

theorem next_of_mem (he : e.var? = some v) (hv : v ∈ t) : e.next t = t.modify v e.change := by
  rcases VarTable.exists_get? hv with ⟨x, hx⟩
  rw [next, perform_of_get? he hx]

theorem next_of_not_mem (he : e.var? = some v) (hv : v ∉ t) : e.next t = t := by
  rw [next, perform_of_not_mem he hv]

/-- A refused edit changes nothing. -/
theorem next_of_verdict_error {f : Fault} (hf : e.verdict t = .error f) : e.next t = t := by
  have hperform : e.perform t = .error f := map_eq_error.1 hf
  rw [next, hperform]

/-- An edit changes no variable but the one that it names. -/
theorem get?_next_of_ne (hv : v ∈ t) (he : e.var? ≠ some v) : (e.next t).get? v = t.get? v := by
  cases hvar : e.var? with
  | none =>
    rcases exists_eq_newVar hvar with ⟨reg, version, rfl⟩
    refine (VarTable.get?_alloc t reg version v).trans (if_neg ?_)
    rintro rfl
    exact t.not_mem_next hv
  | some w =>
    by_cases hw : w ∈ t
    · rw [next_of_mem hvar hw, VarTable.get?_modify, if_neg]
      rintro rfl
      exact he hvar
    · rw [next_of_not_mem hvar hw]

end TableEdit

/-! ## What edits keep -/

namespace VarTable

/-- A property of tables that survives a new variable and every change of one variable's records. -/
structure KeptByChanges (T : VarTable → Prop) : Prop where
  alloc : ∀ t reg version, T t → T (t.alloc reg version).2
  setType : ∀ t v type, T t → T (t.onVar v (·.setType type))
  define : ∀ t v s, T t → T (t.onVar v (·.define s))
  undefine : ∀ t v a, T t → T (t.onVar v (·.undefine a))
  recordUse : ∀ t v s, T t → T (t.onVar v (·.recordUse s))
  dropUse : ∀ t v a, T t → T (t.onVar v (·.dropUse a))
  addConsumer : ∀ t v p, T t → T (t.onVar v (·.addConsumer p))
  refreshConsumers : ∀ t v, T t → T (t.onVar v (·.refreshConsumers))

theorem KeptByChanges.next {T : VarTable → Prop} (h : KeptByChanges T) {t : VarTable} (ht : T t)
    (e : TableEdit) : T (e.next t) := by
  cases hvar : e.var? with
  | none =>
    rcases TableEdit.exists_eq_newVar hvar with ⟨reg, version, rfl⟩
    exact h.alloc t reg version ht
  | some v =>
    by_cases hv : v ∈ t
    · rw [TableEdit.next_of_mem hvar hv]
      cases e with
      | newVar reg version => cases hvar
      | setType w type => exact h.setType t (some v) type ht
      | define w s => exact h.define t (some v) s ht
      | undefine w a => exact h.undefine t (some v) a ht
      | recordUse w s => exact h.recordUse t (some v) s ht
      | dropUse w a => exact h.dropUse t (some v) a ht
      | addConsumer w p => exact h.addConsumer t (some v) p ht
      | refreshConsumers w => exact h.refreshConsumers t (some v) ht
    · rw [TableEdit.next_of_not_mem hvar hv]
      exact ht

/-! A property of each variable, and of the place where the table has it, is kept if every new
variable has it and no change takes it away. -/

section Each

variable {Q : VarId → Variable → Prop}

theorem each_alloc (hnew : ∀ v reg version, Q v { id := v, reg := reg, version := version })
    {t : VarTable} (h : ∀ v x, t.get? v = some x → Q v x) (reg version : Nat) :
    ∀ v x, (t.alloc reg version).2.get? v = some x → Q v x := by
  intro v x hx
  rw [get?_alloc] at hx
  by_cases hv : v = ⟨t.vars.length⟩
  · rw [if_pos hv, Option.some.injEq] at hx
    subst hv hx
    exact hnew _ reg version
  · rw [if_neg hv] at hx
    exact h v x hx

theorem each_onVar {f : Variable → Variable} (hf : ∀ v x, Q v x → Q v (f x)) {t : VarTable}
    (h : ∀ v x, t.get? v = some x → Q v x) (v : Option VarId) :
    ∀ w y, (t.onVar v f).get? w = some y → Q w y := by
  intro w y hy
  rw [get?_onVar, Option.map_eq_some_iff] at hy
  rcases hy with ⟨x, hx, rfl⟩
  by_cases hv : v = some w
  · rw [if_pos hv]
    exact hf w x (h w x hx)
  · rw [if_neg hv]
    exact h w x hx

theorem each_keptByChanges (hnew : ∀ v reg version, Q v { id := v, reg := reg, version := version })
    (hchange : ∀ (e : TableEdit) v x, Q v x → Q v (e.change x)) :
    KeptByChanges fun t => ∀ v x, t.get? v = some x → Q v x where
  alloc _ reg version h := each_alloc hnew h reg version
  setType _ v type h := each_onVar (hchange (.setType ⟨0⟩ type)) h v
  define _ v s h := each_onVar (hchange (.define ⟨0⟩ s)) h v
  undefine _ v a h := each_onVar (hchange (.undefine ⟨0⟩ a)) h v
  recordUse _ v s h := each_onVar (hchange (.recordUse ⟨0⟩ s)) h v
  dropUse _ v a h := each_onVar (hchange (.dropUse ⟨0⟩ a)) h v
  addConsumer _ v p h := each_onVar (hchange (.addConsumer ⟨0⟩ p)) h v
  refreshConsumers _ v h := each_onVar (hchange (.refreshConsumers ⟨0⟩)) h v

end Each

/-- Every variable records an instance as a use once at most. -/
def UsesOnce (t : VarTable) : Prop := ∀ v x, t.get? v = some x → (x.uses.map (·.operand)).Nodup

/-- Every table that its functions make records an instance once: recording it again moves it. -/
theorem usesOnce_keptByChanges : KeptByChanges UsesOnce := by
  refine each_keptByChanges (fun _ _ _ => List.nodup_nil) fun e v x hx => ?_
  cases e with
  | recordUse w s => exact Site.nodup_upsert hx
  | dropUse w a => exact hx.sublist (List.filter_sublist.map _)
  | undefine w a =>
    rw [TableEdit.change, Variable.uses_undefine]
    exact hx
  | addConsumer w p =>
    rw [TableEdit.change, Variable.uses_addConsumer]
    exact hx
  | _ => exact hx

/-- Every table that its functions make is numbered: a new variable is given the place where it goes,
and no change of a record touches that. -/
theorem numbered_keptByChanges : KeptByChanges Numbered :=
  each_keptByChanges (fun _ _ _ => rfl) fun e _ x hx => (e.label_change x).1.trans hx

end VarTable

end SsaForm
