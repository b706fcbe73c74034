import SsaForm.Proofs.ReaderChanges
import SsaForm.Proofs.Records

/-!
# SsaForm.Proofs.Footprints — what an edit of arguments looks at

An edit of arguments is given some instances and finds others at the positions where it acts. Of the
records it looks only at the sites of these instances (`Variable.sites`), and at which variables
there are. So on two tables that agree in this it ends alike (`Matched`): with the same value or
fault, with the same instruction, and with tables that agree again. What else the tables record may
differ.

* `Alike` compares two outcomes of a question or a change, `Matched` two outcomes of an edit; both
  go through sequences.
* `Linked.Agree` compares what an edit starts from and what it leaves.
* The edits follow in the order in which they are defined. Removing looks at no sites at all.
-/

namespace SsaForm

open Edit

/-! ## Two outcomes -/

/-- Both fail with the same fault, or they succeed with values that `R` relates. -/
inductive Alike {α : Type} (R : α → α → Prop) : Except Fault α → Except Fault α → Prop where
  | ok {a b : α} (h : R a b) : Alike R (.ok a) (.ok b)
  | error (e : Fault) : Alike R (.error e) (.error e)

namespace Alike

variable {α β : Type} {R : α → α → Prop} {S : β → β → Prop} {x y : Except Fault α}

theorem bind {f g : α → Except Fault β} (h : Alike R x y)
    (hk : ∀ a b, R a b → Alike S (f a) (g b)) : Alike S (x >>= f) (y >>= g) := by
  cases h with
  | ok h => exact hk _ _ h
  | error e => exact .error e

theorem map {f g : α → β} (h : Alike R x y) (hf : ∀ a b, R a b → S (f a) (g b)) :
    Alike S (x.map f) (y.map g) := by
  cases h with
  | ok h => exact .ok (hf _ _ h)
  | error e => exact .error e

/-- What is the same in both is alike. -/
theorem of_eq (h : y = x) (hR : ∀ a, R a a) : Alike R x y := by
  subst h
  cases y with
  | ok a => exact .ok (hR a)
  | error e => exact .error e

theorem eq (h : Alike (fun a b => b = a) x y) : y = x := by
  cases h with
  | ok h => rw [h]
  | error e => rfl

end Alike

/-- Two edits end with the same value or fault, in states that `R` relates. -/
inductive Matched {σ α : Type} (R : σ → σ → Prop) :
    EStateM.Result Fault σ α → EStateM.Result Fault σ α → Prop where
  | ok (a : α) {s s' : σ} (h : R s s') : Matched R (.ok a s) (.ok a s')
  | error (e : Fault) {s s' : σ} (h : R s s') : Matched R (.error e s) (.error e s')

namespace Matched

variable {σ τ α β : Type} {R : σ → σ → Prop} {s s' : σ} {act : Edit σ α}

theorem verdict {r r' : EStateM.Result Fault σ α} (h : Matched R r r') :
    Edit.verdict r' = Edit.verdict r := by
  cases h <;> rfl

theorem finalState {r r' : EStateM.Result Fault σ α} (h : Matched R r r') :
    R (Edit.finalState r) (Edit.finalState r') := by
  cases h with
  | ok a h => exact h
  | error e h => exact h

theorem bind {k : α → Edit σ β} (h : Matched R (act s) (act s'))
    (hk : ∀ a t t', R t t' → Matched R (k a t) (k a t')) :
    Matched R ((act >>= k) s) ((act >>= k) s') := by
  rw [bind_apply, bind_apply]
  generalize act s = r at h
  generalize act s' = r' at h
  cases h with
  | ok a h => exact hk a _ _ h
  | error e h => exact .error e h

theorem map (f : α → β) (h : Matched R (act s) (act s')) :
    Matched R ((f <$> act) s) ((f <$> act) s') := by
  rw [map_eq_pure_bind]
  exact h.bind fun a _ _ ht => .ok (f a) ht

theorem ask {f : σ → Except Fault α} (hs : R s s') (hf : f s' = f s) :
    Matched R (Edit.ask f s) (Edit.ask f s') := by
  simp only [Edit.ask, hf]
  cases f s with
  | ok a => exact .ok a hs
  | error e => exact .error e hs

theorem atomically {f : σ → Except Fault σ} (hs : R s s') (hf : Alike R (f s) (f s')) :
    Matched R (Edit.atomically f s) (Edit.atomically f s') := by
  simp only [Edit.atomically]
  generalize f s = x at hf
  generalize f s' = y at hf
  cases hf with
  | ok h => exact .ok () h
  | error e => exact .error e hs

/-- A loop whose rounds end alike wherever they start from states that are related. -/
theorem mapM {f : β → Edit σ α} (hf : ∀ b t t', R t t' → Matched R (f b t) (f b t')) (l : List β)
    (hs : R s s') : Matched R (l.mapM f s) (l.mapM f s') := by
  induction l generalizing s s' with
  | nil => exact .ok [] hs
  | cons b rest ih =>
    rw [List.mapM_cons]
    refine (hf b s s' hs).bind fun a t t' ht => ?_
    exact (ih ht).bind fun as u u' hu => .ok (a :: as) hu

/-- An edit of a part ends alike if the wholes that are put together are related. -/
theorem zoom {R' : τ → τ → Prop} {part : σ → τ} {whole : σ → τ → σ} {act : Edit τ α}
    (h : Matched R' (act (part s)) (act (part s')))
    (hwhole : ∀ t t', R' t t' → R (whole s t) (whole s' t')) :
    Matched R (Edit.zoom part whole act s) (Edit.zoom part whole act s') := by
  simp only [Edit.zoom]
  generalize act (part s) = r at h
  generalize act (part s') = r' at h
  cases h with
  | ok a h => exact .ok a (hwhole _ _ h)
  | error e h => exact .error e (hwhole _ _ h)

end Matched

/-! ## The sites of some instances -/

namespace Variable

variable {x y : Variable} {l : List OperandId}

/-- Where the instances are recorded as uses of the variable. -/
def sites (l : List OperandId) (x : Variable) : List (Option InsnId) := l.map x.useSite

theorem sites_eq_iff : x.sites l = y.sites l ↔ ∀ a ∈ l, x.useSite a = y.useSite a :=
  List.map_inj_left

theorem sites_of_uses (h : x.uses = y.uses) : x.sites l = y.sites l :=
  sites_eq_iff.2 fun a _ => by rw [useSite, useSite, h]

theorem useSite_dropUse (x : Variable) (a b : OperandId) :
    (x.dropUse a).useSite b = if a = b then none else x.useSite b := by
  simp only [useSite, dropUse, List.find?_filter]
  by_cases h : a = b
  · subst h
    rw [if_pos rfl, List.find?_eq_none.2 (by simp)]
    rfl
  · rw [if_neg h]
    congr 2
    funext s
    by_cases hs : s.operand = b
    · simp [hs, Ne.symm h]
    · simp [hs]

theorem sites_recordUse (s : Site) (h : x.sites l = y.sites l) :
    (x.recordUse s).sites l = (y.recordUse s).sites l := by
  rw [sites_eq_iff] at h ⊢
  intro a ha
  rw [useSite_recordUse, useSite_recordUse, h a ha]

theorem sites_dropUse (a : OperandId) (h : x.sites l = y.sites l) :
    (x.dropUse a).sites l = (y.dropUse a).sites l := by
  rw [sites_eq_iff] at h ⊢
  intro b hb
  rw [useSite_dropUse, useSite_dropUse, h b hb]

end Variable

/-! ## Changes of the table -/

namespace VarTable

variable {l : List OperandId} {t t' : VarTable}

theorem Same.onVar {β : Type} {π : Variable → β} {f : Variable → Variable}
    (hf : ∀ x y, π x = π y → π (f x) = π (f y)) (h : Same π t t') (v : Option VarId) :
    Same π (t.onVar v f) (t'.onVar v f) := by
  intro w
  have hw := h w
  rw [get?_onVar, get?_onVar]
  cases hx : t.get? w with
  | none =>
    rw [hx, Option.map_none, Option.map_eq_none_iff] at hw
    rw [hw]
  | some x =>
    rw [hx, Option.map_some, Option.map_eq_some_iff] at hw
    rcases hw with ⟨y, hy, hxy⟩
    rw [hy]
    by_cases hv : v = some w
    · simp [hv, hf y x hxy]
    · simp [hv, hxy]

theorem ensureKnown_of_same {β : Type} {π : Variable → β} (h : Same π t t') (v : Option VarId) :
    t'.ensureKnown v = t.ensureKnown v := by
  cases v with
  | none => rfl
  | some v => simp only [ensureKnown, h.mem_iff]

theorem find_of_same {β : Type} {π : Variable → β} (h : Same π t t') (v : VarId) :
    Alike (fun x y => π y = π x) (t.find v) (t'.find v) := by
  have hv := h v
  unfold find
  cases hx : t.get? v with
  | none =>
    rw [hx, Option.map_none, Option.map_eq_none_iff] at hv
    rw [hv]
    exact .error _
  | some x =>
    rw [hx, Option.map_some, Option.map_eq_some_iff] at hv
    rcases hv with ⟨y, hy, hxy⟩
    rw [hy]
    exact .ok hxy

/-- A change of the variable that is named, if the table has it. -/
theorem onVar_of_same {β : Type} {π : Variable → β} (h : Same π t t') (v : Option VarId)
    {f : Variable → Variable} (hf : ∀ x y, π x = π y → π (f x) = π (f y)) :
    Alike (Same π) ((t.ensureKnown v).map fun _ => t.onVar v f)
      ((t'.ensureKnown v).map fun _ => t'.onVar v f) := by
  rw [ensureKnown_of_same h v]
  cases t.ensureKnown v with
  | ok u => exact .ok (h.onVar hf v)
  | error e => exact .error e

variable (h : Same (Variable.sites l) t t')

include h

theorem addReader_of_same (r : Register) :
    Alike (Same (Variable.sites l)) (t.addReader r) (t'.addReader r) := by
  rw [addReader_eq, addReader_eq]
  exact onVar_of_same h r.var fun _ _ => Variable.sites_recordUse r.site

theorem removeReader_of_same (r : Register) :
    Alike (Same (Variable.sites l)) (t.removeReader r) (t'.removeReader r) := by
  rw [removeReader_eq, removeReader_eq]
  exact onVar_of_same h r.var fun _ _ => Variable.sites_dropUse r.id

theorem addConsumerFor_of_same (r : Register) (p : InsnId) :
    Alike (Same (Variable.sites l)) (t.addConsumerFor r p) (t'.addConsumerFor r p) := by
  rw [addConsumerFor_eq, addConsumerFor_eq]
  refine onVar_of_same h r.var fun x y hxy => ?_
  rw [Variable.sites_of_uses (x.uses_addConsumer p), Variable.sites_of_uses (y.uses_addConsumer p)]
  exact hxy

theorem refreshConsumersFor_of_same (r : Register) :
    Alike (Same (Variable.sites l)) (t.refreshConsumersFor r) (t'.refreshConsumersFor r) := by
  rw [refreshConsumersFor_eq, refreshConsumersFor_eq]
  -- looking at the consumers leaves the uses
  exact onVar_of_same h r.var fun _ _ hxy =>
    (Variable.sites_of_uses rfl).trans (hxy.trans (Variable.sites_of_uses rfl))

end VarTable


/-! ## Attaching -/

section Attaching

variable {l : List OperandId} {t t' : VarTable} (h : VarTable.Same (Variable.sites l) t t')

include h

theorem Register.ensureDetached_of_same {r : Register} (hr : r.id ∈ l) :
    r.ensureDetached t' = r.ensureDetached t := by
  have hholder : r.holder t' = r.holder t := by
    unfold holder
    cases r.var with
    | none => rfl
    | some v =>
      refine ((VarTable.find_of_same h v).map fun x y hxy => ?_).eq
      simp only [Variable.sites_eq_iff.1 hxy r.id hr]
  simp only [ensureDetached, hholder]

theorem Register.attached_of_same {r : Register} (hr : r.id ∈ l) (i : InsnId) :
    Alike (VarTable.Same (Variable.sites l)) (r.attached i t) (r.attached i t') :=
  (Alike.of_eq (ensureDetached_of_same h hr) fun _ => rfl).bind fun _ _ _ =>
    VarTable.addReader_of_same h _

theorem Operand.ensureDetached_of_same {a : Operand} (ha : a.id ∈ l) :
    a.ensureDetached t' = a.ensureDetached t := by
  cases a with
  | register r => exact Register.ensureDetached_of_same h ha
  | literal c => rfl

theorem Operand.attached_of_same {a : Operand} (ha : a.id ∈ l) (i : InsnId) :
    Alike (VarTable.Same (Variable.sites l)) (a.attached i t) (a.attached i t') := by
  cases a with
  | register r => exact Register.attached_of_same h ha i
  | literal c => exact .ok h

theorem Operand.release_of_same (a : Operand) :
    Alike (VarTable.Same (Variable.sites l)) (a.release t) (a.release t') := by
  cases a with
  | register r => exact VarTable.removeReader_of_same h r
  | literal c => exact .ok h

theorem Phi.release_of_same (r : Register) :
    Alike (VarTable.Same (Variable.sites l)) (Phi.release r t) (Phi.release r t') :=
  (VarTable.removeReader_of_same h r).bind fun _ _ ht => VarTable.refreshConsumersFor_of_same ht r

/-- Before a reader is moved, the sites of its instance are looked at. -/
theorem Insn.readerMoved_of_same {r : Register} (hr : r.id ∈ l) (v : VarId) :
    Alike (VarTable.Same (Variable.sites l)) (Insn.readerMoved r v t) (Insn.readerMoved r v t') := by
  refine (VarTable.find_of_same h v).bind fun x y hxy => ?_
  rw [Variable.sites_eq_iff.1 hxy r.id hr]
  have hmoved := (VarTable.removeReader_of_same h r).bind fun _ _ ht =>
    VarTable.addReader_of_same ht (r.naming v)
  split
  · split
    · exact .error _
    · exact hmoved
  · exact hmoved

end Attaching

/-- Two instructions that are the same beside tables that record the same sites of the instances. -/
structure Linked.Agree {ι : Type} (l : List OperandId) (s s' : Linked ι) : Prop where
  insn : s'.insn = s.insn
  vars : VarTable.Same (Variable.sites l) s.vars s'.vars

theorem Linked.agree_of_same {ι : Type} {l : List OperandId} {t t' : VarTable} (i : ι)
    (h : VarTable.Same (Variable.sites l) t t') : Linked.Agree l ⟨i, t⟩ ⟨i, t'⟩ := ⟨rfl, h⟩

/-- An instruction that has changed before the table does, whether or not the table can. -/
theorem Matched.of_alike {ι α : Type} {l : List OperandId} {t t' : VarTable} (i : ι) (a : α)
    (h : VarTable.Same (Variable.sites l) t t') {x y : Except Fault VarTable} :
    Alike (VarTable.Same (Variable.sites l)) x y →
      Matched (Linked.Agree l)
        (match x with
          | .ok u => .ok a ⟨i, u⟩
          | .error e => .error e ⟨i, t⟩)
        (match y with
          | .ok u => .ok a ⟨i, u⟩
          | .error e => .error e ⟨i, t'⟩) := by
  rintro (hu | e)
  · exact .ok a (Linked.agree_of_same i hu)
  · exact .error e (Linked.agree_of_same i h)

/-! ## Nodes -/

namespace Node

variable {l : List OperandId} {s s' : Linked Node} (h : Linked.Agree l s s')

include h

theorem argAdded_alike {a : Operand} (ha : a.id ∈ l) :
    Alike (Linked.Agree l) (argAdded a s) (argAdded a s') := by
  simp only [argAdded, h.insn]
  split
  · exact .error _
  · exact (Operand.attached_of_same h.vars ha _).bind fun _ _ ht => .ok ⟨rfl, ht⟩

theorem replacement_of_agree {a : Operand} (ha : a.id ∈ l) (k : Nat) :
    replacement k a s' = replacement k a s := by
  simp only [replacement, h.insn, Operand.ensureDetached_of_same h.vars ha]

theorem vacate_matched (k : Nat) : Matched (Linked.Agree l) (vacate k s) (vacate k s') := by
  simp only [vacate, h.insn]
  cases s.insn.args[k]? with
  | none => exact .error _ h
  | some old => exact Matched.of_alike _ _ h.vars (Operand.release_of_same h.vars old)

theorem occupied_alike {a : Operand} (ha : a.id ∈ l) (k : Nat) :
    Alike (Linked.Agree l) (occupied k a s) (occupied k a s') := by
  simp only [occupied, h.insn]
  exact (Operand.attached_of_same h.vars ha _).bind fun _ _ ht => .ok ⟨rfl, ht⟩

theorem setArg_matched {a : Operand} (ha : a.id ∈ l) (k : Nat) :
    Matched (Linked.Agree l) (setArg k a s) (setArg k a s') := by
  have hsame := replacement_of_agree h ha k
  cases hrep : replacement k a s with
  | error e =>
    rw [setArg_refused hrep, setArg_refused (hsame.trans hrep)]
    exact .error e h
  | ok b =>
    have hb : b.id ∈ l := (same_of_replacement hrep).1.symm ▸ ha
    rw [setArg_of_replacement hrep, setArg_of_replacement (hsame.trans hrep)]
    refine (vacate_matched h k).bind fun old u u' hu => ?_
    exact (Matched.atomically hu (occupied_alike hu hb k)).bind fun _ w w' hw => .ok old hw

theorem removeArgAt_matched (k : Nat) :
    Matched (Linked.Agree l) (removeArgAt k s) (removeArgAt k s') := by
  simp only [removeArgAt, h.insn]
  cases s.insn.args[k]? with
  | none => exact .error _ h
  | some old => exact Matched.of_alike _ _ h.vars (Operand.release_of_same h.vars old)

theorem removeArg_matched (a : OperandId) :
    Matched (Linked.Agree l) (removeArg a s) (removeArg a s') := by
  rw [removeArg_apply, removeArg_apply, h.insn]
  cases s.insn.argIndex a with
  | none => exact .ok false h
  | some k => exact (removeArgAt_matched h k).map _

theorem replaceArg_matched {old : OperandId} {a : Operand} (ha : a.id ∈ l) :
    Matched (Linked.Agree l) (replaceArg old a s) (replaceArg old a s') := by
  rw [replaceArg_apply, replaceArg_apply, h.insn]
  cases s.insn.argIndex old with
  | none => exact .ok false h
  | some k => exact (setArg_matched h ha k).map _

theorem unbindAll_matched : Matched (Linked.Agree l) (unbindAll s) (unbindAll s') := by
  have hloop := Matched.mapM (fun (_ : Operand) _ _ ht => removeArgAt_matched ht 0) s.insn.args h
  have hrun : unbindAll s' = (s'.insn.args.mapM fun _ => removeArgAt 0) s' := rfl
  rw [hrun, h.insn]
  exact hloop

end Node

/-! ## Phis -/

namespace Phi

variable {l : List OperandId} {s s' : Linked Phi} (h : Linked.Agree l s s')

include h

theorem bindingInserted_alike {r : Register} (hr : r.id ∈ l) (k : Nat) (pred : BlockId) :
    Alike (Linked.Agree l) (bindingInserted k r pred s) (bindingInserted k r pred s') := by
  simp only [bindingInserted, h.insn]
  split
  · exact .error _
  · split
    · exact .error _
    · refine (Register.attached_of_same h.vars hr _).bind fun u u' hu => ?_
      exact (VarTable.addConsumerFor_of_same hu _ _).bind fun _ _ hw => .ok ⟨rfl, hw⟩

theorem argBound_alike {r : Register} (hr : r.id ∈ l) (pred : BlockId) :
    Alike (Linked.Agree l) (argBound r pred s) (argBound r pred s') := by
  rw [argBound, argBound, h.insn]
  exact bindingInserted_alike h hr _ pred

theorem removeArgAt_matched (k : Nat) :
    Matched (Linked.Agree l) (removeArgAt k s) (removeArgAt k s') := by
  simp only [removeArgAt, h.insn]
  cases s.insn.bindings[k]? with
  | none => exact .error _ h
  | some old => exact Matched.of_alike _ _ h.vars (release_of_same h.vars old.arg)

theorem removeArg_matched (a : OperandId) :
    Matched (Linked.Agree l) (removeArg a s) (removeArg a s') := by
  rw [removeArg_apply, removeArg_apply, h.insn]
  cases s.insn.argIndex a with
  | none => exact .ok false h
  | some k => exact (removeArgAt_matched h k).map _

theorem replacement_of_agree {r : Register} (hr : r.id ∈ l) (old : OperandId) :
    replacement old r s' = replacement old r s := by
  simp only [replacement, h.insn, VarTable.ensureKnown_of_same h.vars,
    Register.ensureDetached_of_same h.vars hr]

theorem replaceArg_matched {old : OperandId} {r : Register} (hr : r.id ∈ l) :
    Matched (Linked.Agree l) (replaceArg old r s) (replaceArg old r s') := by
  rw [replaceArg_apply, replaceArg_apply, h.insn, replacement_of_agree h hr]
  cases s.insn.argIndex old with
  | none => exact .ok false h
  | some k =>
    simp only
    cases s.insn.blockAt? k with
    | none => exact .error _ h
    | some pred =>
      simp only
      cases hrep : replacement old r s with
      | error e => exact .error e h
      | ok r' =>
        simp only
        have hr' : r'.id ∈ l := (same_of_replacement hrep).1.symm ▸ hr
        refine (removeArgAt_matched h k).bind fun o u u' hu => ?_
        exact (Matched.atomically hu (bindingInserted_alike hu hr' k pred)).bind fun _ w w' hw =>
          .ok true hw

theorem unbindAll_matched : Matched (Linked.Agree l) (unbindAll s) (unbindAll s') := by
  have hloop :=
    Matched.mapM (fun (_ : Binding) _ _ ht => removeArgAt_matched ht 0) s.insn.bindings h
  have hrun : unbindAll s' = (s'.insn.bindings.mapM fun _ => removeArgAt 0) s' := rfl
  rw [hrun, h.insn]
  exact hloop

end Phi

/-! ## Instructions of either kind -/

namespace Insn

variable {l : List OperandId} {t t' : VarTable} (h : VarTable.Same (Variable.sites l) t t')

theorem edit_matched {α : Type} {onNode : Edit (Linked Node) α} {onPhi : Edit (Linked Phi) α}
    {i : Insn}
    (hnode : ∀ n, i = .node n → Matched (Linked.Agree l) (onNode ⟨n, t⟩) (onNode ⟨n, t'⟩))
    (hphi : ∀ p, i = .phi p → Matched (Linked.Agree l) (onPhi ⟨p, t⟩) (onPhi ⟨p, t'⟩)) :
    Matched (Linked.Agree l) (edit onNode onPhi ⟨i, t⟩) (edit onNode onPhi ⟨i, t'⟩) := by
  unfold edit
  cases i with
  | node n =>
    exact Matched.zoom (hnode n rfl) fun u u' hu => Linked.Agree.mk (congrArg node hu.insn) hu.vars
  | phi p =>
    exact Matched.zoom (hphi p rfl) fun u u' hu => Linked.Agree.mk (congrArg phi hu.insn) hu.vars

include h

theorem varAttached_alike {i : Insn} {k : Nat} (v : VarId)
    (ha : ∀ b, i.args[k]? = some b → b.id ∈ l) :
    Alike (Linked.Agree l) (varAttached k v ⟨i, t⟩) (varAttached k v ⟨i, t'⟩) := by
  refine (Alike.of_eq (VarTable.ensureKnown_of_same h v) fun _ => rfl).bind fun _ _ _ => ?_
  cases i with
  | node n =>
    simp only
    cases hb : n.args[k]? with
    | none => exact .error _
    | some b =>
      cases b with
      | literal c => exact .error _
      | register r =>
        exact (readerMoved_of_same h (ha _ hb) v).bind fun _ _ hu => .ok ⟨rfl, hu⟩
  | phi p =>
    simp only
    cases hb : p.bindings[k]? with
    | none => exact .error _
    | some b =>
      have harg : (Insn.phi p).args[k]? = some (.register b.arg) := by
        simp [Insn.args, Phi.args, hb]
      refine (readerMoved_of_same h (ha _ harg) v).bind fun _ _ hu => ?_
      refine (VarTable.refreshConsumersFor_of_same hu b.arg).bind fun _ _ hw => ?_
      exact (VarTable.addConsumerFor_of_same hw (b.arg.naming v) p.id).bind fun _ _ hx =>
        .ok ⟨rfl, hx⟩

end Insn


/-! ## Confined edits -/

/-- The edit of `i` looks at and changes the records of the instances in `l` only. -/
structure Confined {ι α : Type} (l : List OperandId) (i : ι) (act : Edit (Linked ι) α) : Prop where
  matched : ∀ t t', VarTable.Same (Variable.sites l) t t' →
    Matched (Linked.Agree l) (act ⟨i, t⟩) (act ⟨i, t'⟩)
  kept : ∀ T, VarTable.KeptByReaders (· ∈ l) T → ∀ t, T t → T (finalState (act ⟨i, t⟩)).vars

namespace Confined

variable {ι α β : Type} {l : List OperandId} {i : ι}

theorem map {act : Edit (Linked ι) α} (f : α → β) (h : Confined l i act) :
    Confined l i (f <$> act) where
  matched _ _ ht := (h.matched _ _ ht).map f
  kept _ hT _ ht := by
    rw [finalState_map]
    exact h.kept _ hT _ ht

/-- A question about the instruction alone. -/
theorem ask {f : Linked ι → Except Fault α} (hf : ∀ t t', f ⟨i, t'⟩ = f ⟨i, t⟩) :
    Confined l i (Edit.ask f) where
  matched _ _ ht := .ask (Linked.agree_of_same i ht) (hf _ _)
  kept _ _ _ ht := by
    rw [finalState_ask]
    exact ht

theorem pure (a : α) : Confined l i (Pure.pure a) where
  matched _ _ ht := .ok a (Linked.agree_of_same i ht)
  kept _ _ _ ht := ht

/-- An edit of either kind of instruction. -/
theorem edit {onNode : Edit (Linked Node) α} {onPhi : Edit (Linked Phi) α} {i : Insn}
    (hnode : ∀ n, i = .node n → Confined l n onNode) (hphi : ∀ p, i = .phi p → Confined l p onPhi) :
    Confined l i (Insn.edit onNode onPhi) where
  matched _ _ ht := Insn.edit_matched (fun n hn => (hnode n hn).matched _ _ ht) fun p hp =>
    (hphi p hp).matched _ _ ht
  kept _ hT _ ht := by
    cases i with
    | node n =>
      rw [Insn.finalState_edit_node]
      exact (hnode n rfl).kept _ hT _ ht
    | phi p =>
      rw [Insn.finalState_edit_phi]
      exact (hphi p rfl).kept _ hT _ ht

/-- An edit of phis, which is refused elsewhere. -/
theorem onPhi {act : Edit (Linked Phi) α} {i : Insn} (id : InsnId)
    (hphi : ∀ p, Confined l p act) : Confined l i (Insn.onPhi id act) :=
  .edit (fun _ _ => .ask fun _ _ => rfl) fun p _ => hphi p

theorem phi_bindArg (r : Register) (pred : BlockId) (p : Phi) :
    Confined [r.id] p (Phi.bindArg r pred) := by
  rw [Phi.bindArg_eq]
  refine ⟨fun _ _ ht => ?_, fun _ hT _ ht => ?_⟩
  · have hagree := Linked.agree_of_same p ht
    exact .atomically hagree (Phi.argBound_alike hagree (List.mem_singleton_self _) pred)
  · exact hT.phi_insertBinding p.bindings.length pred (List.mem_singleton_self _) _ ht

theorem phi_removeArg (a : OperandId) (p : Phi) : Confined [a] p (Phi.removeArg a) where
  matched _ _ ht := Phi.removeArg_matched (Linked.agree_of_same p ht) a
  kept _ hT _ ht := hT.phi_removeArg ht (List.mem_singleton_self _)

theorem addArg (a : Operand) (i : Insn) : Confined [a.id] i (Insn.addArg a) := by
  rw [Insn.addArg, Node.addArg_eq]
  refine .edit (fun n _ => ⟨fun _ _ ht => ?_, fun _ hT _ ht => ?_⟩) fun p _ => .ask fun _ _ => rfl
  · have hagree := Linked.agree_of_same n ht
    exact .atomically hagree (Node.argAdded_alike hagree (List.mem_singleton_self _))
  · exact hT.node_addArg (List.mem_singleton_self _) _ ht

theorem setArg {k : Nat} {a : Operand} {i : Insn} (ha : a.id ∈ l)
    (hold : ∀ old, i.args[k]? = some old → old.id ∈ l) : Confined l i (Insn.setArg k a) := by
  refine .edit (fun n hn => ⟨fun _ _ ht => ?_, fun _ hT _ ht => ?_⟩) fun p _ => .ask fun _ _ => rfl
  · exact Node.setArg_matched (Linked.agree_of_same n ht) ha k
  · subst hn
    exact hT.node_setArg ht ha hold

theorem removeArg (a : Operand) (i : Insn) : Confined [a.id] i (Insn.removeArg a) := by
  refine .edit (fun n _ => ⟨fun _ _ ht => ?_, fun _ hT _ ht => ?_⟩) fun p _ => ?_
  · exact Node.removeArg_matched (Linked.agree_of_same n ht) a.id
  · exact hT.node_removeArg ht (List.mem_singleton_self _)
  · cases a with
    | register r => exact phi_removeArg r.id p
    | literal c => exact .pure false

theorem replaceArg (old new : Operand) (i : Insn) :
    Confined [old.id, new.id] i (Insn.replaceArg old new) := by
  have hold : old.id ∈ [old.id, new.id] := List.mem_cons_self
  have hnew : new.id ∈ [old.id, new.id] := List.mem_cons_of_mem _ (List.mem_singleton_self _)
  refine .edit (fun n _ => ⟨fun _ _ ht => ?_, fun _ hT _ ht => ?_⟩) fun p _ => ?_
  · exact Node.replaceArg_matched (Linked.agree_of_same n ht) hnew
  · exact hT.node_replaceArg ht hold hnew
  · cases old with
    | literal c => exact .pure false
    | register r =>
      cases new with
      | literal c => exact .pure false
      | register s =>
        refine ⟨fun _ _ ht => ?_, fun _ hT _ ht => ?_⟩
        · exact Phi.replaceArg_matched (Linked.agree_of_same p ht) hnew
        · exact hT.phi_replaceArg ht hold hnew

theorem unbindAll (i : Insn) : Confined (i.args.map Operand.id) i Insn.unbindAll := by
  refine .edit (fun n hn => ⟨fun _ _ ht => ?_, fun _ hT _ ht => ?_⟩) fun p hp =>
    .map _ ⟨fun _ _ ht => ?_, fun _ hT _ ht => ?_⟩
  · exact Node.unbindAll_matched (Linked.agree_of_same n ht)
  · refine hT.node_unbindAll ht fun b hb => ?_
    rw [hn]
    exact List.mem_map_of_mem hb
  · exact Phi.unbindAll_matched (Linked.agree_of_same p ht)
  · refine hT.phi_unbindAll ht fun b hb => ?_
    rw [hp]
    have harg : Operand.register b.arg ∈ (Insn.phi p).args :=
      List.mem_map_of_mem (List.mem_map_of_mem hb)
    exact List.mem_map_of_mem (f := Operand.id) harg

theorem attachVar {k : Nat} (v : VarId) {i : Insn} (ha : ∀ b, i.args[k]? = some b → b.id ∈ l) :
    Confined l i (Insn.attachVar k v) := by
  rw [Insn.attachVar_eq]
  refine ⟨fun _ _ ht => ?_, fun _ hT t ht => ?_⟩
  · exact .atomically (Linked.agree_of_same i ht) (Insn.varAttached_alike ht v ha)
  · cases hr : Insn.varAttached k v ⟨i, t⟩ with
    | error e =>
      rw [atomically_of_error hr]
      exact ht
    | ok s =>
      rw [atomically_of_ok hr]
      exact hT.attachVar ht ha hr

end Confined

end SsaForm
