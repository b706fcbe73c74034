import Mathlib.Data.List.Nodup
import SsaForm.Proofs.TableChanges

/-!
# SsaForm.Proofs.Records — what a variable records, and how changes move it

The records of one variable are described by relations: `x.UsesAre U` says that the uses of `x` are
the places that `U` lists, one for each instance, and `x.ConsumersAre Q` the like for its consumers.
Every change of a record is a change of such a relation.
-/

namespace SsaForm

/-- A site of an instance that has none yet goes to the end. -/
theorem Site.upsert_of_new {s : Site} {l : List Site} (h : ∀ t ∈ l, t.operand ≠ s.operand) :
    s.upsert l = l ++ [s] := by
  induction l with
  | nil => rfl
  | cons t rest ih =>
    have ht : t.operand ≠ s.operand := h t List.mem_cons_self
    have hrest : s.upsert rest = rest ++ [s] := ih fun u hu => h u (List.mem_cons_of_mem t hu)
    rw [upsert, if_neg ht, hrest, List.cons_append]

/-- After an upsert there is the new site, and those of the other instances. -/
theorem Site.mem_upsert {s t : Site} {l : List Site} (h : (l.map (·.operand)).Nodup) :
    t ∈ s.upsert l ↔ t = s ∨ t ∈ l ∧ t.operand ≠ s.operand := by
  induction l with
  | nil => simp [upsert]
  | cons u rest ih =>
    rw [List.map_cons, List.nodup_cons] at h
    by_cases hu : u.operand = s.operand
    · -- the site is replaced, and the instance has no other
      have hrest : t ∈ rest → t.operand ≠ s.operand := fun ht heq =>
        h.1 (List.mem_map.2 ⟨t, ht, heq.trans hu.symm⟩)
      rw [upsert, if_pos hu, List.mem_cons, List.mem_cons]
      refine or_congr_right ⟨fun ht => ⟨Or.inr ht, hrest ht⟩, ?_⟩
      rintro ⟨rfl | ht, hne⟩
      · exact absurd hu hne
      · exact ht
    · rw [upsert, if_neg hu, List.mem_cons, List.mem_cons, ih h.2]
      constructor
      · rintro (rfl | rfl | ⟨ht, hne⟩)
        · exact Or.inr ⟨Or.inl rfl, hu⟩
        · exact Or.inl rfl
        · exact Or.inr ⟨Or.inr ht, hne⟩
      · rintro (rfl | ⟨rfl | ht, hne⟩)
        · exact Or.inr (Or.inl rfl)
        · exact Or.inl rfl
        · exact Or.inr (Or.inr ⟨ht, hne⟩)

namespace Variable

variable {x y : Variable} {U U' : OperandId → InsnId → Prop} {Q Q' : InsnId → Prop}

/-- The uses of the variable are the places in `U`, with one site for each instance. -/
structure UsesAre (x : Variable) (U : OperandId → InsnId → Prop) : Prop where
  nodup : (x.uses.map (·.operand)).Nodup
  mem : ∀ s, s ∈ x.uses ↔ ∃ i, s.insn = some i ∧ U s.operand i

/-- The consumers of the variable are the instructions in `Q`, each listed once. -/
structure ConsumersAre (x : Variable) (Q : InsnId → Prop) : Prop where
  nodup : x.consumers.Nodup
  mem : ∀ p, p ∈ x.consumers ↔ Q p

/-! ## Reading the relations -/

theorem UsesAre.congr (h : x.UsesAre U) (hy : y.uses = x.uses) (hU : ∀ a i, U' a i ↔ U a i) :
    y.UsesAre U' := by
  refine ⟨hy ▸ h.nodup, fun s => ?_⟩
  rw [hy, h.mem s]
  exact exists_congr fun i => and_congr_right fun _ => (hU s.operand i).symm

theorem ConsumersAre.congr (h : x.ConsumersAre Q) (hy : y.consumers = x.consumers)
    (hQ : ∀ p, Q' p ↔ Q p) : y.ConsumersAre Q' :=
  ⟨hy ▸ h.nodup, fun p => by rw [hy, h.mem p, hQ p]⟩

theorem UsesAre.mem_mk (h : x.UsesAre U) {a : OperandId} {i : InsnId} :
    (⟨a, some i⟩ : Site) ∈ x.uses ↔ U a i := by
  rw [h.mem]
  constructor
  · rintro ⟨j, hj, hU⟩
    cases hj
    exact hU
  · intro hU
    exact ⟨i, rfl, hU⟩

/-- One instance stands in one place. -/
theorem UsesAre.unique (h : x.UsesAre U) {a : OperandId} {i j : InsnId} (hi : U a i) (hj : U a j) :
    i = j := by
  have hsite := List.inj_on_of_nodup_map h.nodup (h.mem_mk.2 hi) (h.mem_mk.2 hj) rfl
  simpa using hsite

/-- The recorded place of an instance is where `U` has it. -/
theorem UsesAre.useSite_eq_some (h : x.UsesAre U) {a : OperandId} {i : InsnId} :
    x.useSite a = some i ↔ U a i := by
  simp only [useSite, Option.bind_eq_some_iff]
  constructor
  · rintro ⟨s, hs, hi⟩
    have ha : s.operand = a := by simpa using List.find?_some hs
    have hmem := (h.mem s).1 (List.mem_of_find?_eq_some hs)
    rcases hmem with ⟨j, hj, hU⟩
    rw [hj, Option.some.injEq] at hi
    rw [← ha, ← hi]
    exact hU
  · intro hU
    have hmem := h.mem_mk.2 hU
    cases hfind : x.uses.find? (fun s => s.operand == a) with
    | none =>
      have hne := List.find?_eq_none.1 hfind _ hmem
      simp at hne
    | some s =>
      have ha : s.operand = a := by simpa using List.find?_some hfind
      have heq := List.inj_on_of_nodup_map h.nodup (List.mem_of_find?_eq_some hfind) hmem ha
      exact ⟨s, rfl, heq ▸ rfl⟩

theorem UsesAre.useSite_eq_none (h : x.UsesAre U) {a : OperandId} :
    x.useSite a = none ↔ ∀ i, ¬ U a i := by
  rw [Option.eq_none_iff_forall_ne_some]
  exact forall_congr' fun i => not_congr h.useSite_eq_some

theorem UsesAre.usedIn_iff (h : x.UsesAre U) {p : InsnId} : x.usedIn p = true ↔ ∃ a, U a p := by
  rw [Variable.usedIn_iff]
  constructor
  · rintro ⟨s, hs, hp⟩
    rcases (h.mem s).1 hs with ⟨i, hi, hU⟩
    rw [hi, Option.some.injEq] at hp
    exact ⟨s.operand, hp ▸ hU⟩
  · rintro ⟨a, hU⟩
    exact ⟨⟨a, some p⟩, h.mem_mk.2 hU, rfl⟩

/-! ## Changes -/

/-- What is added to is the consumers; the other fields stay. -/
theorem addConsumer_eq (x : Variable) (p : InsnId) :
    x.addConsumer p =
      { x with consumers := if p ∈ x.consumers then x.consumers else x.consumers ++ [p] } := by
  unfold Variable.addConsumer
  split <;> rfl

@[simp] theorem uses_addConsumer (x : Variable) (p : InsnId) : (x.addConsumer p).uses = x.uses := by
  rw [addConsumer_eq]

theorem consumers_addConsumer (x : Variable) (p : InsnId) :
    (x.addConsumer p).consumers = if p ∈ x.consumers then x.consumers else x.consumers ++ [p] := by
  rw [addConsumer_eq]

@[simp] theorem definition_addConsumer (x : Variable) (p : InsnId) :
    (x.addConsumer p).definition = x.definition := by
  rw [addConsumer_eq]

/-- What is taken back is the definition; the other fields stay. -/
theorem undefine_eq (x : Variable) (a : OperandId) :
    x.undefine a = { x with definition := if x.definedBy a then none else x.definition } := by
  unfold Variable.undefine
  split <;> rfl

@[simp] theorem uses_undefine (x : Variable) (a : OperandId) : (x.undefine a).uses = x.uses := by
  rw [undefine_eq]

@[simp] theorem consumers_undefine (x : Variable) (a : OperandId) :
    (x.undefine a).consumers = x.consumers := by
  rw [undefine_eq]

/-- An instance loses the definition that it made, and no other. -/
theorem definition_undefine {a : OperandId} {s : Site} :
    (x.undefine a).definition = some s ↔ x.definition = some s ∧ a ≠ s.operand := by
  rw [undefine_eq]
  by_cases ha : x.definedBy a = true
  · rw [if_pos ha]
    refine iff_of_false nofun ?_
    rintro ⟨hs, hne⟩
    rcases definedBy_iff.1 ha with ⟨s', hs', rfl⟩
    rw [hs, Option.some.injEq] at hs'
    exact hne (hs' ▸ rfl)
  · rw [if_neg ha]
    refine (and_iff_left_of_imp ?_).symm
    rintro hs rfl
    exact ha (definedBy_iff.2 ⟨s, hs, rfl⟩)

theorem consumers_addConsumer_recordUse (x : Variable) (s : Site) (p : InsnId) :
    ((x.recordUse s).addConsumer p).consumers = (x.addConsumer p).consumers := by
  rw [consumers_addConsumer, consumers_addConsumer]
  rfl

theorem UsesAre.dropUse (h : x.UsesAre U) (a : OperandId) :
    (x.dropUse a).UsesAre fun b i => U b i ∧ b ≠ a := by
  constructor
  · exact h.nodup.sublist (List.filter_sublist.map _)
  · intro s
    simp only [Variable.dropUse, List.mem_filter, h.mem, bne_iff_ne, ne_eq]
    constructor
    · rintro ⟨⟨i, hi, hU⟩, hne⟩
      exact ⟨i, hi, hU, hne⟩
    · rintro ⟨i, hi, hU, hne⟩
      exact ⟨⟨i, hi, hU⟩, hne⟩

/-- An instance that is in no place has no site. -/
theorem UsesAre.operand_ne (h : x.UsesAre U) {a : OperandId} (hnew : ∀ j, ¬ U a j) :
    ∀ s ∈ x.uses, s.operand ≠ a := by
  rintro s hs rfl
  rcases (h.mem s).1 hs with ⟨j, -, hU⟩
  exact hnew j hU

/-- Recording an instance that is in no place yet. -/
theorem UsesAre.recordUse (h : x.UsesAre U) {a : OperandId} (hnew : ∀ j, ¬ U a j) (i : InsnId) :
    (x.recordUse ⟨a, some i⟩).UsesAre fun b j => U b j ∨ b = a ∧ j = i := by
  -- a new instance does not take the place of a record
  have huses : (x.recordUse ⟨a, some i⟩).uses = x.uses ++ [⟨a, some i⟩] :=
    Site.upsert_of_new (h.operand_ne hnew)
  constructor
  · exact Site.nodup_upsert h.nodup
  · intro s
    rw [huses, List.mem_append, List.mem_singleton, h.mem]
    constructor
    · rintro (⟨j, hj, hU⟩ | rfl)
      · exact ⟨j, hj, Or.inl hU⟩
      · exact ⟨i, rfl, Or.inr ⟨rfl, rfl⟩⟩
    · rintro ⟨j, hj, hU | ⟨ha, rfl⟩⟩
      · exact Or.inl ⟨j, hj, hU⟩
      · obtain ⟨b, o⟩ := s
        cases hj
        cases ha
        exact Or.inr rfl

theorem nodup_consumers_addConsumer (h : x.consumers.Nodup) (p : InsnId) :
    (x.addConsumer p).consumers.Nodup := by
  rw [consumers_addConsumer]
  by_cases hp : p ∈ x.consumers
  · rw [if_pos hp]
    exact h
  · rw [if_neg hp]
    refine List.Nodup.append h (List.nodup_singleton p) ?_
    intro q hq hqp
    rw [List.mem_singleton] at hqp
    exact hp (hqp ▸ hq)

theorem ConsumersAre.addConsumer (h : x.ConsumersAre Q) (p : InsnId) :
    (x.addConsumer p).ConsumersAre fun q => Q q ∨ q = p :=
  ⟨nodup_consumers_addConsumer h.nodup p, fun q => by rw [mem_consumers_addConsumer, h.mem]⟩

theorem ConsumersAre.refreshConsumers (h : x.ConsumersAre Q) (hx : x.UsesAre U) :
    x.refreshConsumers.ConsumersAre fun q => Q q ∧ ∃ a, U a q := by
  constructor
  · exact h.nodup.filter _
  · intro q
    rw [mem_consumers_refreshConsumers, h.mem, hx.usedIn_iff]

end Variable

end SsaForm
