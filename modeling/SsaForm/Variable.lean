import SsaForm.Operand

/-!
# SsaForm.Variable — one SSA variable and its records

A variable versions a register slot. It records three things about the instructions around it: the
operand that defines it, every operand that reads it, and the phis among its readers. The functions
here change one of the records; which instruction makes them agree with the arguments is the business
of the instruction types.

Uses are kept by operand identity: at most one site per instance, in the order of first recording.
-/

namespace SsaForm

/-- An SSA variable with the records of its definition, its uses and the phis that consume it. -/
structure Variable where
  /-- The identity that it was given when it was made. -/
  id : VarId
  /-- The register slot that this variable versions. -/
  reg : Nat
  version : Nat
  type : ValueType := .unknown
  /-- The defining operand. -/
  definition : Option Site := none
  /-- The reading operands. -/
  uses : List Site := []
  /-- The phis that read the variable. -/
  consumers : List InsnId := []
deriving DecidableEq, Repr

/-- Puts a site into a list that has at most one site per operand: over the one it replaces, else at
the end. -/
def Site.upsert (s : Site) : List Site → List Site
  | [] => [s]
  | t :: rest => if t.operand = s.operand then s :: rest else t :: s.upsert rest

namespace Site

/-- After an upsert the instance stands at the new site, and every other instance where it stood. -/
theorem find?_upsert (s : Site) (l : List Site) (a : OperandId) :
    (s.upsert l).find? (fun t => t.operand == a) =
      if s.operand = a then some s else l.find? fun t => t.operand == a := by
  induction l with
  | nil =>
    by_cases hsa : s.operand = a
    · simp [upsert, hsa]
    · simp [upsert, beq_eq_false_iff_ne.2 hsa, hsa]
  | cons t rest ih =>
    by_cases hts : t.operand = s.operand
    · by_cases hsa : s.operand = a
      · simp [upsert, hts, hsa]
      · simp [upsert, hts, beq_eq_false_iff_ne.2 hsa, hsa]
    · by_cases hta : t.operand = a
      · have hsa : s.operand ≠ a := fun h => hts (hta.trans h.symm)
        simp [upsert, hta, hsa, hsa.symm]
      · simp [upsert, hts, beq_eq_false_iff_ne.2 hta, ih]

/-- An upsert leaves at most one site per instance if there was at most one. -/
theorem nodup_upsert {s : Site} {l : List Site} (h : (l.map (·.operand)).Nodup) :
    ((s.upsert l).map (·.operand)).Nodup := by
  induction l with
  | nil => simp [upsert]
  | cons t rest ih =>
    rw [List.map_cons, List.nodup_cons] at h
    by_cases hts : t.operand = s.operand
    · rw [upsert, if_pos hts, List.map_cons, List.nodup_cons]
      exact ⟨hts ▸ h.1, h.2⟩
    · rw [upsert, if_neg hts, List.map_cons, List.nodup_cons]
      refine ⟨fun hmem => ?_, ih h.2⟩
      obtain ⟨u, hu, heq⟩ := List.mem_map.1 hmem
      have hfound : ((s.upsert rest).find? fun w => w.operand == t.operand).isSome := by
        rw [List.find?_isSome]
        exact ⟨u, hu, by simp [heq]⟩
      rw [find?_upsert, if_neg (fun h => hts h.symm), List.find?_isSome] at hfound
      obtain ⟨w, hw, hwt⟩ := hfound
      exact h.1 (List.mem_map.2 ⟨w, hw, by simpa using hwt⟩)

end Site

namespace Variable

/-! ## Questions -/

/-- Is the instance recorded as a use? -/
def usedBy (x : Variable) (a : OperandId) : Bool :=
  x.uses.any fun s => s.operand == a

/-- The instruction in which the instance is recorded as a use. -/
def useSite (x : Variable) (a : OperandId) : Option InsnId :=
  (x.uses.find? fun s => s.operand == a).bind (·.insn)

/-- Is the instance recorded as the definition? -/
def definedBy (x : Variable) (a : OperandId) : Bool :=
  x.definition.any fun s => s.operand == a

/-- Does nothing read the variable? -/
def isDead (x : Variable) : Bool := x.uses.isEmpty

/-- The consuming phi, if there is exactly one. -/
def onlyConsumer? (x : Variable) : Option InsnId :=
  match x.consumers with
  | [p] => some p
  | _ => none

/-- Is some use recorded in instruction `p`? -/
def usedIn (x : Variable) (p : InsnId) : Bool :=
  x.uses.any fun s => s.insn == some p

/-- The variable as listings show it: register and version. -/
def text (x : Variable) : String := s!"r{x.reg}v{x.version}"

instance : ToString Variable := ⟨text⟩

/-! ## Changes -/

/-- Records a use. An instance that is recorded already changes its instruction in place. -/
def recordUse (s : Site) (x : Variable) : Variable := { x with uses := s.upsert x.uses }

/-- Forgets the use by an instance. -/
def dropUse (a : OperandId) (x : Variable) : Variable :=
  { x with uses := x.uses.filter fun s => s.operand != a }

/-- Lists a phi as a consumer, once. -/
def addConsumer (p : InsnId) (x : Variable) : Variable :=
  if p ∈ x.consumers then x else { x with consumers := x.consumers ++ [p] }

/-- Keeps a consumer only while some use is recorded in it. -/
def refreshConsumers (x : Variable) : Variable :=
  { x with consumers := x.consumers.filter x.usedIn }

/-- Records the defining operand in place of any earlier one. -/
def define (s : Site) (x : Variable) : Variable := { x with definition := some s }

/-- Forgets the definition if the instance made it. -/
def undefine (a : OperandId) (x : Variable) : Variable :=
  if x.definedBy a then { x with definition := none } else x

/-- Gives the variable a type. -/
def setType (t : ValueType) (x : Variable) : Variable := { x with type := t }

/-! ## What the changes do to the records -/

theorem usedBy_iff {x : Variable} {a : OperandId} :
    x.usedBy a = true ↔ ∃ s ∈ x.uses, s.operand = a := by
  simp [usedBy]

theorem useSite_recordUse (x : Variable) (s : Site) (a : OperandId) :
    (x.recordUse s).useSite a = if s.operand = a then s.insn else x.useSite a := by
  simp only [useSite, recordUse, Site.find?_upsert]
  split <;> rfl

theorem mem_consumers_addConsumer {x : Variable} {p q : InsnId} :
    q ∈ (x.addConsumer p).consumers ↔ q ∈ x.consumers ∨ q = p := by
  unfold addConsumer
  split
  · rename_i h
    exact ⟨Or.inl, fun hq => hq.elim (fun hmem => hmem) fun hp => hp ▸ h⟩
  · simp

theorem mem_consumers_refreshConsumers {x : Variable} {q : InsnId} :
    q ∈ x.refreshConsumers.consumers ↔ q ∈ x.consumers ∧ x.usedIn q = true := by
  simp [refreshConsumers]

theorem usedIn_iff {x : Variable} {p : InsnId} :
    x.usedIn p = true ↔ ∃ s ∈ x.uses, s.insn = some p := by
  simp [usedIn]

theorem definedBy_iff {x : Variable} {a : OperandId} :
    x.definedBy a = true ↔ ∃ s, x.definition = some s ∧ s.operand = a := by
  simp [definedBy, Option.any_eq_true]

end Variable

end SsaForm
