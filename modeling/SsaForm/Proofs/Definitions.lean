import SsaForm.Proofs.Histories
import SsaForm.Proofs.Records

/-!
# SsaForm.Proofs.Definitions — variables record what defines them

A variable is in static single assignment form if at most one live result names it and its recorded
definition is the site of that result (`Method.SingleDefinition`). The mutators do not see to that:
naming in a result a variable that another live result names takes over the definition and leaves
two results behind. They keep the relation where no call does so (`Call.Sole`).

The invariant that carries the proof, `Method.DefinitionsRecorded`, adds that results
belong to their instructions and name variables of the table. Changes of arguments do not
touch it, nor any other invariant about results (`KeptByResults`); a result is changed by forgetting
the definition by the old result (`VarTable.forget`) and recording the one by the new. That results
name variables of the table holds after every call, a failed one included (`ResultsKnown`).
-/

namespace SsaForm

open Edit

namespace VarTable

/-- Both tables have the same variables, with the same definitions. -/
abbrev SameDefinitions (t s : VarTable) : Prop := Same (·.definition) t s

theorem sameDefinitions_recordUse (t : VarTable) (v : Option VarId) (s : Site) :
    t.SameDefinitions (t.onVar v (·.recordUse s)) := by
  refine same_onVar (fun x => ?_) t v
  rfl

theorem sameDefinitions_dropUse (t : VarTable) (v : Option VarId) (a : OperandId) :
    t.SameDefinitions (t.onVar v (·.dropUse a)) := by
  refine same_onVar (fun x => ?_) t v
  rfl

theorem sameDefinitions_addConsumer (t : VarTable) (v : Option VarId) (p : InsnId) :
    t.SameDefinitions (t.onVar v (·.addConsumer p)) := by
  refine same_onVar (fun x => ?_) t v
  exact x.definition_addConsumer p

theorem sameDefinitions_refreshConsumers (t : VarTable) (v : Option VarId) :
    t.SameDefinitions (t.onVar v (·.refreshConsumers)) := by
  refine same_onVar (fun x => ?_) t v
  rfl

end VarTable

namespace Method

variable {m m' : Method} {id : InsnId} {i : Insn}

/-! ## What defines a variable -/

/-- The register is the result of the live instruction `id`. -/
def HasResult (m : Method) (id : InsnId) (r : Register) : Prop :=
  ∃ i, m.insn? id = some i ∧ i.result? = some r

/-- The site is that of a live result that names `v`. -/
def DefinedAt (m : Method) (v : VarId) (s : Site) : Prop :=
  ∃ id r, m.HasResult id r ∧ r.var = some v ∧ s = ⟨r.id, some id⟩

/-- At most one live result names a variable, and the definition that a variable records is the site
of that result; it is missing where there is none. -/
structure SingleDefinition (m : Method) : Prop where
  unique : ∀ v id r id' r', m.HasResult id r → r.var = some v → m.HasResult id' r' →
    r'.var = some v → id = id'
  recorded : ∀ v x, m.vars.get? v = some x → ∀ s, x.definition = some s ↔ m.DefinedAt v s

/-- The invariant of the mutators about definitions. -/
structure DefinitionsRecorded (m : Method) : Prop where
  owned : ∀ id r, m.HasResult id r → r.owner = some id
  known : ∀ id r, m.HasResult id r → m.vars.Knows r.var
  recorded : ∀ v x, m.vars.get? v = some x → ∀ s, x.definition = some s ↔ m.DefinedAt v s

theorem hasResult_of_insn? (hi : m.insn? id = some i) {r : Register} :
    m.HasResult id r ↔ i.result? = some r := by
  simp [HasResult, hi]

theorem DefinitionsRecorded.unique (h : m.DefinitionsRecorded) {v : VarId} {id id' : InsnId}
    {r r' : Register} (hr : m.HasResult id r) (hv : r.var = some v) (hr' : m.HasResult id' r')
    (hv' : r'.var = some v) :
    id = id' := by
  rcases VarTable.exists_get? (h.known id r hr v hv) with ⟨x, hx⟩
  have hdef := (h.recorded v x hx _).2 ⟨id, r, hr, hv, rfl⟩
  have hdef' := (h.recorded v x hx _).2 ⟨id', r', hr', hv', rfl⟩
  rw [hdef] at hdef'
  simp only [Option.some.injEq, Site.mk.injEq] at hdef'
  exact hdef'.2

theorem DefinitionsRecorded.single (h : m.DefinitionsRecorded) : m.SingleDefinition :=
  ⟨fun _ _ _ _ _ hr hv hr' hv' => h.unique hr hv hr' hv', h.recorded⟩

/-- Two methods with the same results and the same recorded definitions are alike
in this respect. -/
theorem DefinitionsRecorded.congr (h : m.DefinitionsRecorded)
    (hvars : m.vars.SameDefinitions m'.vars) (hresult : ∀ k r, m'.HasResult k r ↔ m.HasResult k r) :
    m'.DefinitionsRecorded := by
  refine { owned := ?_, known := ?_, recorded := ?_ }
  · intro k r hr
    exact h.owned k r ((hresult k r).1 hr)
  · intro k r hr
    exact hvars.knows_iff.2 (h.known k r ((hresult k r).1 hr))
  · intro v y hy s
    rcases hvars.get? hy with ⟨x, hx, heq⟩
    rw [heq, h.recorded v x hx]
    exact exists_congr fun k => exists_congr fun r => and_congr_left fun _ => (hresult k r).symm

theorem hasResult_putInsn (hi : m.insn? id = some i) {s : Linked Insn} {k : InsnId} {r : Register} :
    (m.putInsn id s).HasResult k r ↔
      if id = k then s.insn.result? = some r else m.HasResult k r := by
  simp only [HasResult, insn?_putInsn hi]
  by_cases hk : id = k
  · simp [hk]
  · simp [hk]

/-- The result of a new instruction stands beside the others. -/
theorem hasResult_grown {k : InsnId} {r : Register} :
    (m.grown i).HasResult k r ↔
      k = ⟨m.slots.length⟩ ∧ i.result? = some r ∨ m.HasResult k r := by
  simp only [HasResult, insn?_grown]
  by_cases hk : k = ⟨m.slots.length⟩
  · simp [hk, insn?_length]
  · simp [hk]

theorem hasResult_without {t : VarTable} {k : InsnId} {r : Register} :
    ({ m.without id with vars := t } : Method).HasResult k r ↔ k ≠ id ∧ m.HasResult k r := by
  have hfind : ({ m.without id with vars := t } : Method).insn? k =
      if k = id then none else m.insn? k := insn?_without m id k
  simp only [HasResult, hfind]
  by_cases hk : k = id
  · simp [hk]
  · simp [hk]

/-! ## What an invariant about results owes -/

/-- What an invariant about results and definitions owes for the mutators. No change of arguments
touches either, so what is left is where a variable or an instruction comes or goes. -/
structure KeptByResults (P : Method → Prop) : Prop where
  congr : ∀ {m m' : Method}, P m → m.vars.SameDefinitions m'.vars →
    (∀ k r, m'.HasResult k r ↔ m.HasResult k r) → P m'
  newVar : ∀ reg version, Keeps P (newVar reg version)
  grown : ∀ {m : Method} {i : Insn}, P m →
    (∀ r, i.result? = some r → r.owner = some ⟨m.slots.length⟩ ∧ r.var = none) → P (m.grown i)
  takePhi : ∀ id m p, P m → m.insn? id = some (.phi p) → P (finalState (takePhi id m))

namespace KeptByResults

variable {P : Method → Prop} (h : KeptByResults P)

include h

/-- A change of arguments. -/
theorem sameResult (hm : P m) (hi : m.insn? id = some i) {s : Linked Insn}
    (hresult : s.insn.result? = i.result?) (hvars : m.vars.SameDefinitions s.vars) :
    P (m.putInsn id s) := by
  refine h.congr hm hvars fun k r => ?_
  rw [hasResult_putInsn hi, hresult]
  by_cases hk : id = k
  · rw [if_pos hk, ← hk, hasResult_of_insn? hi]
  · rw [if_neg hk]

theorem keepsNode_setArg (id : InsnId) (k : Nat) (a : Operand) :
    KeepsNode P id (Node.setArg k a) := by
  intro m n hm hn
  have hdropped : ∀ (old : Operand) t, t = m.vars ∨ t = m.vars.onVar old.var? (·.dropUse old.id) →
      m.vars.SameDefinitions t := by
    rintro old t (rfl | rfl)
    · exact VarTable.Same.refl _
    · exact VarTable.sameDefinitions_dropUse _ _ _
  rcases Node.setArg_cases k a ⟨n, m.vars⟩ with
    ⟨e, heq⟩ | ⟨old, b, t, -, -, ht, ⟨e, -, heq⟩ | ⟨-, -, -, heq⟩⟩
  · rw [heq]
    exact h.sameResult hm hn rfl (VarTable.Same.refl _)
  · rw [heq]
    exact h.sameResult hm hn rfl (hdropped old t (ht.imp_left And.left))
  · rw [heq]
    exact h.sameResult hm hn rfl
      ((hdropped old t (ht.imp_left And.left)).trans (VarTable.sameDefinitions_recordUse _ _ _))

theorem attachVar (hm : P m) (hi : m.insn? id = some i) (k : Nat) (v : VarId) :
    P (m.putInsn id (finalState (atomically (Insn.varAttached k v) ⟨i, m.vars⟩))) := by
  apply putInsn_atomically hm hi
  intro s hok
  have hmoved : ∀ r t, Insn.readerMoved r v m.vars = .ok t → m.vars.SameDefinitions t := by
    intro r t hmove
    rcases Insn.readerMoved_eq_ok.1 hmove with ⟨-, -, -, rfl⟩
    exact (VarTable.sameDefinitions_dropUse _ _ _).trans (VarTable.sameDefinitions_recordUse _ _ _)
  cases i with
  | node n =>
    rcases Insn.varAttached_node_eq_ok.1 hok with ⟨r, t, -, hmove, rfl⟩
    exact h.sameResult hm hi rfl (hmoved r t hmove)
  | phi p =>
    rcases Insn.varAttached_phi_eq_ok.1 hok with ⟨b, t, -, hmove, rfl⟩
    exact h.sameResult hm hi rfl ((hmoved b.arg t hmove).trans
      ((VarTable.sameDefinitions_refreshConsumers _ _).trans
        (VarTable.sameDefinitions_addConsumer _ _ _)))

theorem keptBySteps : KeptBySteps P where
  newVar := h.newVar
  newNode op m hm := h.grown hm fun r hr => nomatch hr
  newPhi reg result m hm := by
    refine h.grown hm fun r hr => ?_
    cases hr
    exact ⟨rfl, rfl⟩
  addArg id a m n hm hn := by
    apply putNode_atomically hm hn
    intro s hadd
    rcases Node.argAdded_eq_ok.1 hadd with ⟨-, -, rfl⟩
    exact h.sameResult hm hn rfl (VarTable.sameDefinitions_recordUse _ _ _)
  removeArg id k m n hm hn := by
    cases hold : n.args[k]? with
    | none =>
      rw [Node.removeArgAt_of_none hold]
      exact h.sameResult hm hn rfl (VarTable.Same.refl _)
    | some old =>
      rcases Node.finalState_removeArgAt (s := ⟨n, m.vars⟩) hold with ⟨t, heq, ht⟩
      rw [heq]
      apply h.sameResult hm hn rfl
      rcases ht with rfl | rfl
      · exact VarTable.Same.refl _
      · exact VarTable.sameDefinitions_dropUse _ _ _
  insertBinding id m p k r pred hm hp _ := by
    apply putPhi_atomically hm hp
    intro s hins
    rcases Phi.bindingInserted_eq_ok.1 hins with ⟨-, -, -, rfl⟩
    exact h.sameResult hm hp rfl
      ((VarTable.sameDefinitions_recordUse _ _ _).trans
        (VarTable.sameDefinitions_addConsumer _ _ _))
  removeBinding id k m p hm hp := by
    cases hold : p.bindings[k]? with
    | none =>
      rw [Phi.removeArgAt_of_none hold]
      exact h.sameResult hm hp rfl (VarTable.Same.refl _)
    | some old =>
      rcases Phi.finalState_removeArgAt (s := ⟨p, m.vars⟩) hold with ⟨t, heq, ht⟩
      rw [heq]
      apply h.sameResult hm hp rfl
      rcases ht with rfl | rfl
      · exact VarTable.Same.refl _
      · exact (VarTable.sameDefinitions_dropUse _ _ _).trans
          (VarTable.sameDefinitions_refreshConsumers _ _)
  attachVar id k v := keeps_editInsn fun m i hm hi => h.attachVar hm hi k v
  takePhi id m p hm hp _ := h.takePhi id m p hm hp

/-- Every call keeps the invariant, if naming what a result defines does. -/
theorem keeps_next {c : Call} (hm : P m)
    (hresult : ∀ id r, c.mutation = .setResult id r → P (finalState (setResult id r m)))
    (hassign : ∀ id v, c.mutation = .assignResult id v →
      P (finalState (assignResult id v m))) : P (c.next m) := by
  refine h.keptBySteps.keeps_next hm ?_ ?_ ?_ hresult hassign
  · intro checks _
    exact h.congr hm (VarTable.Same.refl _) fun _ _ => Iff.rfl
  · intro id k a _
    exact keeps_verified (keeps_editInsn_edit (h.keepsNode_setArg id k a) (keepsPhi_ask _)) m hm
  · intro id old new _
    have hreplace : KeepsNode P id (Node.replaceArg old.id new) := by
      rw [keepsNode_iff]
      intro m i hi
      apply Node.keeps_replaceArg
      intro k
      exact keepsNode_iff.1 (h.keepsNode_setArg id k new) m i hi
    apply h.keptBySteps.replaceArg_cases hm
    intro n hn
    exact hreplace m n hm hn

end KeptByResults

/-! ## Changing a result -/

/-- Without the definition by the result of `id`, the definitions left are those
by other results. -/
theorem DefinitionsRecorded.forget (h : m.DefinitionsRecorded) (hi : m.insn? id = some i)
    {v : VarId} {y : Variable} (hy : (m.vars.forget i.result?).get? v = some y) (s : Site) :
    y.definition = some s ↔
      ∃ k r, k ≠ id ∧ m.HasResult k r ∧ r.var = some v ∧ s = ⟨r.id, some k⟩ := by
  -- where the result of `id` does not name the variable, nothing is to be left out
  have hothers : (∀ r, i.result? = some r → r.var ≠ some v) →
      (m.DefinedAt v s ↔
        ∃ k r, k ≠ id ∧ m.HasResult k r ∧ r.var = some v ∧ s = ⟨r.id, some k⟩) := by
    intro hnot
    constructor
    · rintro ⟨k, r, hr, hv, hs⟩
      refine ⟨k, r, ?_, hr, hv, hs⟩
      rintro rfl
      exact hnot r ((hasResult_of_insn? hi).1 hr) hv
    · rintro ⟨k, r, -, hr, hv, hs⟩
      exact ⟨k, r, hr, hv, hs⟩
  cases hres : i.result? with
  | none =>
    rw [hres] at hy hothers
    rw [h.recorded v y hy s]
    exact hothers (fun _ hr => nomatch hr)
  | some old =>
    rw [hres] at hy hothers
    rw [VarTable.forget, VarTable.get?_onVar, Option.map_eq_some_iff] at hy
    rcases hy with ⟨x, hx, rfl⟩
    by_cases hv : old.var = some v
    · -- the variable was defined by the old result and by no other
      have hold : m.HasResult id old := (hasResult_of_insn? hi).2 hres
      have hdef : x.definition = some ⟨old.id, some id⟩ :=
        (h.recorded v x hx _).2 ⟨id, old, hold, hv, rfl⟩
      have hnone : (x.undefine old.id).definition = none := by
        have hby : x.definedBy old.id = true := Variable.definedBy_iff.2 ⟨_, hdef, rfl⟩
        rw [Variable.undefine, if_pos hby]
      rw [if_pos hv, hnone]
      refine iff_of_false (fun heq => nomatch heq) ?_
      rintro ⟨k, r, hk, hr, hrv, -⟩
      exact hk (h.unique hr hrv hold hv)
    · rw [if_neg hv, h.recorded v x hx s]
      refine hothers fun r hr => ?_
      cases hr
      exact hv

/-- No live result but that of `id` names `v`. -/
def DefinesAlone (m : Method) (id : InsnId) (v : VarId) : Prop :=
  ∀ k r, m.HasResult k r → r.var = some v → k = id

/-- An instruction gets a new result, which defines its variable alone. -/
theorem DefinitionsRecorded.redefine (h : m.DefinitionsRecorded) (hi : m.insn? id = some i)
    {j : Insn} {r : Register} (hresult : j.result? = some r) (howner : r.owner = some id)
    (hknown : m.vars.Knows r.var) (halone : ∀ v, r.var = some v → m.DefinesAlone id v) :
    (m.putInsn id ⟨j, (m.vars.forget i.result?).onVar r.var
      (·.define ⟨r.id, some id⟩)⟩).DefinitionsRecorded := by
  -- one result is new, the others stay
  have hresults : ∀ k q, (m.putInsn id
      ⟨j, (m.vars.forget i.result?).onVar r.var (·.define ⟨r.id, some id⟩)⟩).HasResult k q ↔
      if id = k then q = r else m.HasResult k q := by
    intro k q
    rw [hasResult_putInsn hi]
    simp only [hresult, Option.some.injEq, eq_comm]
  refine { owned := ?_, known := ?_, recorded := ?_ }
  · intro k q hq
    rw [hresults] at hq
    by_cases hk : id = k
    · rw [if_pos hk] at hq
      rw [hq, ← hk, howner]
    · rw [if_neg hk] at hq
      exact h.owned k q hq
  · intro k q hq
    have hq' : m.vars.Knows q.var := by
      rw [hresults] at hq
      by_cases hk : id = k
      · rw [if_pos hk] at hq
        rw [hq]
        exact hknown
      · rw [if_neg hk] at hq
        exact h.known k q hq
    intro w hw
    exact VarTable.mem_onVar.2 (VarTable.mem_forget.2 (hq' w hw))
  · intro v y hy s
    rw [vars_putInsn, VarTable.get?_onVar, Option.map_eq_some_iff] at hy
    rcases hy with ⟨x, hx, rfl⟩
    -- the variable of the new result is defined by it alone, another one by what was left
    by_cases hv : r.var = some v
    · have hdef : (x.define ⟨r.id, some id⟩).definition = some ⟨r.id, some id⟩ := rfl
      rw [if_pos hv, hdef, Option.some.injEq]
      constructor
      · rintro rfl
        exact ⟨id, r, (hresults id r).2 (by rw [if_pos rfl]), hv, rfl⟩
      · rintro ⟨k, q, hq, hqv, rfl⟩
        rw [hresults] at hq
        by_cases hk : id = k
        · rw [if_pos hk] at hq
          rw [hq, hk]
        · rw [if_neg hk] at hq
          exact absurd (halone v hv k q hq hqv).symm hk
    · rw [if_neg hv, h.forget hi hx s]
      constructor
      · rintro ⟨k, q, hk, hq, hqv, hs⟩
        exact ⟨k, q, (hresults k q).2 (by rwa [if_neg (Ne.symm hk)]), hqv, hs⟩
      · rintro ⟨k, q, hq, hqv, hs⟩
        rw [hresults] at hq
        by_cases hk : id = k
        · rw [if_pos hk] at hq
          exact absurd (hq ▸ hqv) hv
        · rw [if_neg hk] at hq
          exact ⟨k, q, Ne.symm hk, hq, hqv, hs⟩

/-! ## Steps -/

theorem DefinitionsRecorded.grown (h : m.DefinitionsRecorded)
    (hresult : ∀ r, i.result? = some r → r.owner = some ⟨m.slots.length⟩ ∧ r.var = none) :
    (m.grown i).DefinitionsRecorded := by
  have hresults := fun k r => hasResult_grown (m := m) (i := i) (k := k) (r := r)
  refine { owned := ?_, known := ?_, recorded := ?_ }
  · intro k r hr
    rcases (hresults k r).1 hr with ⟨rfl, hnew⟩ | hold
    · exact (hresult r hnew).1
    · exact h.owned k r hold
  · intro k r hr
    rcases (hresults k r).1 hr with ⟨-, hnew⟩ | hold
    · rw [(hresult r hnew).2]
      exact m.vars.knows_none
    · exact h.known k r hold
  · intro v x hx s
    rw [h.recorded v x hx s]
    constructor
    · rintro ⟨k, r, hr, hv, hs⟩
      exact ⟨k, r, (hresults k r).2 (Or.inr hr), hv, hs⟩
    · rintro ⟨k, r, hr, hv, hs⟩
      rcases (hresults k r).1 hr with ⟨-, hnew⟩ | hold
      · rw [(hresult r hnew).2] at hv
        cases hv
      · exact ⟨k, r, hold, hv, hs⟩

/-- With an instruction goes the definition by its result. -/
theorem DefinitionsRecorded.without (h : m.DefinitionsRecorded) (hi : m.insn? id = some i) :
    ({ m.without id with vars := m.vars.forget i.result? } : Method).DefinitionsRecorded := by
  have hresults : ∀ k r,
      ({ m.without id with vars := m.vars.forget i.result? } : Method).HasResult k r ↔
        k ≠ id ∧ m.HasResult k r := fun k r => hasResult_without
  refine { owned := ?_, known := ?_, recorded := ?_ }
  · intro k r hr
    exact h.owned k r ((hresults k r).1 hr).2
  · intro k r hr v hv
    exact VarTable.mem_forget.2 (h.known k r ((hresults k r).1 hr).2 v hv)
  · intro v y hy s
    rw [h.forget hi hy s]
    constructor
    · rintro ⟨k, r, hk, hr, hv, hs⟩
      exact ⟨k, r, (hresults k r).2 ⟨hk, hr⟩, hv, hs⟩
    · rintro ⟨k, r, hr, hv, hs⟩
      exact ⟨k, r, ((hresults k r).1 hr).1, ((hresults k r).1 hr).2, hv, hs⟩

theorem DefinitionsRecorded.newVar (h : m.DefinitionsRecorded) (reg version : Nat) :
    ({ m with vars := (m.vars.alloc reg version).2 } : Method).DefinitionsRecorded := by
  refine { owned := h.owned, known := ?_, recorded := ?_ }
  · intro k r hr v hv
    exact VarTable.mem_alloc (h.known k r hr v hv) reg version
  · intro v x hx s
    rw [VarTable.get?_alloc] at hx
    by_cases hv : v = ⟨m.vars.vars.length⟩
    · rw [if_pos hv, Option.some.injEq] at hx
      subst hv hx
      refine iff_of_false (fun heq => nomatch heq) ?_
      rintro ⟨k, r, hr, hrv, -⟩
      exact m.vars.not_mem_next (h.known k r hr _ hrv)
    · rw [if_neg hv] at hx
      exact h.recorded v x hx s

theorem definitionsRecorded_keptByResults : KeptByResults DefinitionsRecorded where
  congr h hvars hresult := h.congr hvars hresult
  newVar reg version m h := h.newVar reg version
  grown h hresult := h.grown hresult
  takePhi id m p h hp := by
    have hresult := (hasResult_of_insn? hp).2 (rfl : (Insn.phi p).result? = some p.result)
    rcases finalState_takePhi hp with ⟨t, heq, ⟨hunknown, -⟩ | ⟨-, rfl⟩⟩
    · exact absurd (h.known id p.result hresult) hunknown
    · rw [heq]
      exact h.without hp

/-! ## Calls -/

theorem DefinitionsRecorded.setResult (h : m.DefinitionsRecorded) (hw : m.WellFormed) {r : Register}
    (halone : ∀ v, r.var = some v → m.DefinesAlone id v) :
    (finalState (setResult id r m)).DefinitionsRecorded := by
  rw [Method.setResult, finalState_verified]
  apply editInsn_cases h
  intro i hi
  cases i with
  | phi p => exact (putInsn_self hi).symm ▸ h
  | node n =>
    rw [Insn.setResult, Insn.finalState_edit_node, Node.setResult_eq]
    apply putNode_atomically h hi
    intro s hok
    have hid : n.id = id := (hw id _ hi).id_eq
    rcases Node.resultSet_eq_ok.1 hok with ⟨hknown, -, rfl⟩
    rw [hid]
    exact h.redefine hi (j := .node { n with result := some (r.ownedBy id) })
      (r := r.ownedBy id) rfl rfl
      hknown halone

theorem DefinitionsRecorded.assignResult (h : m.DefinitionsRecorded) {v : VarId}
    (halone : m.DefinesAlone id v) : (finalState (assignResult id v m)).DefinitionsRecorded := by
  rw [Method.assignResult, Insn.assignResult_eq, finalState_verified]
  apply editInsn_cases h
  intro i hi
  apply putInsn_atomically h hi
  intro s hok
  rcases Insn.resultAssigned_eq_ok.1 hok with ⟨hv, r, hres, hvar, rfl⟩
  have howner := h.owned id r ((hasResult_of_insn? hi).2 hres)
  have hsole : ∀ w, (r.naming v).var = some w → m.DefinesAlone id w := by
    intro w hw
    cases hw
    exact halone
  -- the former result named no variable, so there is nothing to forget
  have hforget : m.vars.forget i.result? = m.vars := by
    rw [hres, VarTable.forget, hvar]
    rfl
  have hdefined := fun j hj => h.redefine hi (j := j) (r := r.naming v) hj howner
    (VarTable.knows_some.2 hv) hsole
  rw [hforget] at hdefined
  rw [show r.site = ⟨r.id, some id⟩ from congrArg (Site.mk r.id) howner]
  cases i with
  | node n => exact hdefined (.node { n with result := some (r.naming v) }) rfl
  | phi p => exact hdefined (.phi { p with result := r.naming v }) rfl

/-- Whether no other live result names a variable can be read off the slots. -/
instance (m : Method) (id : InsnId) (v : VarId) : Decidable (m.DefinesAlone id v) :=
  decidable_of_iff (∀ k ∈ List.range m.slots.length,
      ((m.insn? ⟨k⟩).bind Insn.result?).bind (·.var) = some v → (⟨k⟩ : InsnId) = id) <| by
    simp only [Option.bind_eq_some_iff, List.mem_range]
    constructor
    · rintro h ⟨k⟩ r ⟨i, hi, hr⟩ hv
      have hk : k < m.slots.length := by
        rw [insn?, Option.join_eq_some_iff] at hi
        exact (List.getElem?_eq_some_iff.1 hi).1
      exact h k hk ⟨r, ⟨i, hi, hr⟩, hv⟩
    · rintro h k - ⟨r, ⟨i, hi, hr⟩, hv⟩
      exact h ⟨k⟩ r ⟨i, hi, hr⟩ hv

end Method

/-- The instruction and the variable that its result is to define, where a call names one. -/
def Mutation.defines? : Mutation → Option (InsnId × VarId)
  | .setResult id r => r.var.map fun v => (id, v)
  | .assignResult id v => some (id, v)
  | _ => none

/-- The call names in a result no variable that the result of another live instruction names. -/
def Call.Sole (c : Call) (m : Method) : Prop :=
  ∀ d, c.mutation.defines? = some d → m.DefinesAlone d.1 d.2

instance (c : Call) (m : Method) : Decidable (c.Sole m) :=
  inferInstanceAs (Decidable (∀ d ∈ c.mutation.defines?, m.DefinesAlone d.1 d.2))

namespace Method

/-- Every call keeps the invariant, if it defines its variable alone. -/
theorem DefinitionsRecorded.next {m : Method} (h : m.DefinitionsRecorded) (hw : m.WellFormed)
    {c : Call} (hc : c.Sole m) : (c.next m).DefinitionsRecorded := by
  refine definitionsRecorded_keptByResults.keeps_next h ?_ ?_
  · intro id r hset
    refine h.setResult hw fun v hv => hc (id, v) ?_
    rw [hset, Mutation.defines?, hv]
    rfl
  · intro id v hassign
    refine h.assignResult (hc (id, v) ?_)
    rw [hassign]
    rfl

/-- If a result names `v` after an instruction was changed, and every variable has a single
definition, then no other instruction named `v` before. -/
theorem SingleDefinition.definesAlone {m : Method} {id : InsnId} {i : Insn} {s : Linked Insn}
    (h : (m.putInsn id s).SingleDefinition) (hi : m.insn? id = some i) {r : Register} {v : VarId}
    (hr : s.insn.result? = some r) (hv : r.var = some v) : m.DefinesAlone id v := by
  intro k q hq hqv
  by_contra hne
  have hk : ¬ id = k := fun heq => hne heq.symm
  have hself : (m.putInsn id s).HasResult id r := (hasResult_putInsn hi).2 (by rwa [if_pos rfl])
  have hother : (m.putInsn id s).HasResult k q := (hasResult_putInsn hi).2 (by rwa [if_neg hk])
  exact hk (h.unique v id r k q hself hv hother hqv)

/-- A successful call that leaves every variable with a single definition was sole. -/
theorem SingleDefinition.sole {m : Method} {c : Call} {a : Answer} (hok : c.verdict m = .ok a)
    (h : (c.next m).SingleDefinition) : c.Sole m := by
  obtain ⟨c, supply⟩ := c
  rintro ⟨id, v⟩ hd
  cases c with
  | setResult k r =>
    simp only [Mutation.defines?, Option.map_eq_some_iff, Prod.mk.injEq] at hd
    rcases hd with ⟨w, hv, rfl, rfl⟩
    rcases call_of_ok k rfl hok with ⟨i, u, s, hi, hact, -, hnext⟩
    rw [hnext] at h
    cases i with
    | phi p => cases hact
    | node n =>
      rcases (Insn.edit_node_eq_ok _ _).1 hact with ⟨s, hset, rfl⟩
      rcases Node.resultSet_eq_ok.1 (Node.run_setResult.1 hset) with ⟨-, -, rfl⟩
      exact h.definesAlone hi rfl hv
  | assignResult k w =>
    cases hd
    rcases call_of_ok id rfl hok with ⟨i, u, s, hi, hact, -, hnext⟩
    rw [hnext] at h
    rcases Insn.resultAssigned_eq_ok.1 (Insn.run_assignResult.1 hact) with ⟨-, r, -, -, rfl⟩
    cases i with
    | node n => exact h.definesAlone hi rfl (r := r.naming v) rfl
    | phi p => exact h.definesAlone hi rfl (r := r.naming v) rfl
  | _ => cases hd

theorem definitionsRecorded_empty (checks : Checks) :
    ({ checks := checks } : Method).DefinitionsRecorded := by
  have hnone : ∀ id r, ¬ ({ checks := checks } : Method).HasResult id r := by
    rintro id r ⟨i, hi, -⟩
    cases hi
  refine { owned := ?_, known := ?_, recorded := ?_ }
  · intro id r hr
    exact absurd hr (hnone id r)
  · intro id r hr
    exact absurd hr (hnone id r)
  · intro v x hx
    cases hx

/-! ## Results name known variables -/

/-- The variable that a live result names is in the table. -/
def ResultsKnown (m : Method) : Prop := ∀ id r, m.HasResult id r → m.vars.Knows r.var

theorem ResultsKnown.putInsn {m : Method} {id : InsnId} {i : Insn} (h : m.ResultsKnown)
    (hi : m.insn? id = some i) {s : Linked Insn}
    (hresult : ∀ r, s.insn.result? = some r → m.vars.Knows r.var)
    (hvars : ∀ v, v ∈ s.vars ↔ v ∈ m.vars) : (m.putInsn id s).ResultsKnown := by
  intro k r hr v hv
  rw [hasResult_putInsn hi] at hr
  refine (hvars v).2 ?_
  by_cases hk : id = k
  · rw [if_pos hk] at hr
    exact hresult r hr v hv
  · rw [if_neg hk] at hr
    exact h k r hr v hv

theorem resultsKnown_keptByResults : KeptByResults ResultsKnown where
  congr h hvars hresult k r hr := hvars.knows_iff.2 (h k r ((hresult k r).1 hr))
  newVar reg version m h k r hr v hv := VarTable.mem_alloc (h k r hr v hv) reg version
  grown h hresult k r hr := by
    rcases hasResult_grown.1 hr with ⟨-, hnew⟩ | hold
    · rw [(hresult r hnew).2]
      exact VarTable.knows_none _
    · exact h k r hold
  takePhi id m p h hp k r hr v hv := by
    rcases finalState_takePhi hp with ⟨t, heq, ht⟩
    rw [heq] at hr ⊢
    have hmem := h k r (hasResult_without.1 hr).2 v hv
    rcases ht with ⟨-, rfl⟩ | ⟨-, rfl⟩
    · exact hmem
    · exact VarTable.mem_onVar.2 hmem

/-- Every call keeps it, whatever it is given and however it ends. -/
theorem ResultsKnown.next {m : Method} (h : m.ResultsKnown) (c : Call) :
    (c.next m).ResultsKnown := by
  refine resultsKnown_keptByResults.keeps_next h ?_ ?_
  · intro id r _
    rw [Method.setResult, Insn.setResult, Node.setResult_eq]
    refine keeps_verified (keeps_editInsn_edit ?_ (keepsPhi_ask _)) m h
    intro m n h hn
    apply putNode_atomically h hn
    intro s hok
    rcases Node.resultSet_eq_ok.1 hok with ⟨hknown, -, rfl⟩
    refine h.putInsn hn ?_ fun v => VarTable.mem_onVar.trans VarTable.mem_forget
    intro q hq
    cases hq
    exact hknown
  · intro id v _
    rw [Method.assignResult, Insn.assignResult_eq]
    refine keeps_verified (keeps_editInsn fun m i h hi => ?_) m h
    apply putInsn_atomically h hi
    intro s hok
    rcases Insn.resultAssigned_eq_ok.1 hok with ⟨hv, r, -, -, rfl⟩
    refine h.putInsn hi ?_ fun w => VarTable.mem_onVar
    intro q hq
    have hvar : q.var = some v := by
      cases i <;> cases hq <;> rfl
    rw [hvar]
    exact VarTable.knows_some.2 hv

theorem resultsKnown_after (checks : Checks) (history : List Call) :
    (({ checks := checks } : Method).after history).ResultsKnown := by
  refine invariant_after (G := fun _ _ => True) (fun m c hm _ => hm.next c) ?_ ?_
  · rintro id r ⟨i, hi, -⟩
    cases hi
  · exact along_iff.2 fun _ _ _ _ => trivial

end Method

end SsaForm
