import SsaForm.Method

/-!
# SsaForm.Consistency.Verify — do instructions and variables agree?

`Method.verify` derives from the instructions what the variables should record, compares, and reports
the first disagreement. It looks at one relation after the other:

1. every phi by itself: markers, number of arguments, ownership, predecessors, and whether each
   variable that it reads lists it as a consumer;
2. every consumer that a variable lists;
3. every argument and result of every instruction against the records of its variable;
4. every definition and use that a variable records against the arguments and results found in 3.

An argument that reads a variable missing from the table is reported as that. Arguments and results
name a variable by the place where the table has it; a variable that is looked at for what it lists and
records goes by the identity that it carries.
-/

namespace SsaForm

/-! ## Steps of a check -/

/-- Reports a finding unless the condition holds. -/
def require (ok : Bool) (finding : Finding) : Except Fault Unit :=
  if ok then .ok () else .error (.inconsistent finding)

theorem require_eq_ok {ok : Bool} {finding : Finding} :
    require ok finding = .ok () ↔ ok = true := by
  unfold require
  split <;> simp_all

/-- A check over a list succeeds if it does at every element. -/
theorem forM_eq_ok {α ε : Type} {f : α → Except ε PUnit} {l : List α} :
    l.forM f = .ok () ↔ ∀ a ∈ l, f a = .ok () := by
  induction l with
  | nil => simp [pure, Except.pure]
  | cons a rest ih =>
    have hcons : (a :: rest).forM f = (f a >>= fun _ => rest.forM f) := rfl
    rw [hcons, List.forall_mem_cons, ← ih]
    cases h : f a with
    | ok => simp [bind, Except.bind]
    | error => simp [bind, Except.bind]

/-- The first element that an earlier one equals; `seen` holds the elements passed already. -/
def firstRepeat? {α : Type} [DecidableEq α] (seen : List α) : List α → Option α
  | [] => none
  | a :: rest => if a ∈ seen then some a else firstRepeat? (a :: seen) rest

theorem firstRepeat?_eq_none {α : Type} [DecidableEq α] {seen l : List α} :
    firstRepeat? seen l = none ↔ l.Nodup ∧ ∀ a ∈ l, a ∉ seen := by
  induction l generalizing seen with
  | nil => simp [firstRepeat?]
  | cons a rest ih =>
    unfold firstRepeat?
    split
    · simp_all
    · rw [ih]
      simp only [List.nodup_cons, List.mem_cons, not_or, forall_eq_or_imp]
      constructor
      · rintro ⟨hnd, hseen⟩
        exact ⟨⟨fun ha => (hseen a ha).1 rfl, hnd⟩, ‹_›, fun b hb => (hseen b hb).2⟩
      · rintro ⟨⟨ha, hnd⟩, -, hseen⟩
        exact ⟨hnd, fun b hb => ⟨fun hba => ha (hba ▸ hb), hseen b hb⟩⟩

/-! ## One phi by itself -/

namespace Phi

/-- Checks the markers. -/
def checkFlags (p : Phi) : Except Fault Unit :=
  require (p.attributes.contains .phi) (.missingPhiFlags p.id p.attributes)

/-- Checks the number of arguments against a limit, where zero sets none. -/
def checkArgCount (limit : Nat) (p : Phi) : Except Fault Unit :=
  require (limit == 0 || p.bindings.length ≤ limit) (.tooManyArgs p.id p.bindings.length limit)

/-- Checks that the phi owns its arguments. -/
def checkOwnership (p : Phi) : Except Fault Unit :=
  p.args.forM fun a => require (a.owner == some p.id) (.strayBinding p.id a)

/-- Checks that no predecessor is bound twice. -/
def checkPreds (p : Phi) : Except Fault Unit :=
  match firstRepeat? [] p.preds with
  | some pred => .error (.inconsistent (.repeatedPredecessor p.id pred))
  | none => .ok ()

/-- Checks that the variables which the phi reads list it. -/
def checkListed (t : VarTable) (p : Phi) : Except Fault Unit :=
  p.usedVars.forM fun v => do
    let x ← t.find v
    require (p.id ∈ x.consumers) (.unlistedConsumer p.id v)

/-- Checks what is enabled of the above. -/
def check (c : Checks) (t : VarTable) (p : Phi) : Except Fault Unit := do
  if c.phiFlags then p.checkFlags
  p.checkArgCount c.maxPhiArgs
  if c.parallelBindings then p.checkOwnership
  if c.uniquePredecessors then p.checkPreds
  if c.backReferences then p.checkListed t

end Phi

namespace Method

/-! ## Consumers -/

/-- Is `id` a live phi that reads `v`? -/
def phiReads (m : Method) (id : InsnId) (v : VarId) : Bool :=
  ((m.insn? id).bind Insn.phi?).any fun p => v ∈ p.usedVars

/-- Checks that every listed consumer is a phi that reads the variable. -/
def checkConsumers (m : Method) : Except Fault Unit :=
  m.vars.vars.forM fun x =>
    x.consumers.forM fun id => require (m.phiReads id x.id) (.falseConsumer x.id id)

/-! ## Uses and definitions -/

/-- Where live instructions read a variable: the instance and the instruction that holds it. -/
def liveUses (m : Method) : List (OperandId × InsnId) :=
  m.insns.flatMap fun i => (i.registers.filter (·.var.isSome)).map fun r => (r.id, i.id)

/-- Where live instructions define a variable: the instance and the instruction that holds it. -/
def liveDefs (m : Method) : List (OperandId × InsnId) :=
  m.insns.flatMap fun i => (i.result?.toList.filter (·.var.isSome)).map fun r => (r.id, i.id)

/-- Is the site one of the places listed? -/
def isAmong (places : List (OperandId × InsnId)) (s : Site) : Bool :=
  s.insn.any fun i => (s.operand, i) ∈ places

/-- Checks an argument that `holder` holds against the uses of its variable. -/
def checkArg (t : VarTable) (holder : InsnId) (r : Register) : Except Fault Unit :=
  match r.var with
  | some v => do
    require (r.owner == some holder) (.strayArg holder r)
    let x ← t.find v
    require (r.site ∈ x.uses) (.unrecordedUse holder r v)
  | none => .ok ()

/-- Checks the result of `holder` against the definition of its variable. -/
def checkResult (t : VarTable) (holder : InsnId) (r : Register) : Except Fault Unit :=
  match r.var with
  | some v => do
    let x ← t.find v
    require (x.definedBy r.id) (.foreignDefinition holder v)
  | none => .ok ()

/-- Checks the arguments and the result of an instruction against the variables. -/
def checkInsn (t : VarTable) (i : Insn) : Except Fault Unit := do
  i.registers.forM (checkArg t i.id)
  i.result?.toList.forM (checkResult t i.id)

/-- Checks the records of a variable against the live uses and definitions. -/
def checkRecords (uses defs : List (OperandId × InsnId)) (x : Variable) : Except Fault Unit := do
  x.definition.toList.forM fun s => require (isAmong defs s) (.staleDefinition x.id s)
  x.uses.forM fun s => require (isAmong uses s) (.staleUse x.id s)

/-- Checks instructions against variables and variables against instructions. -/
def checkUseLists (m : Method) : Except Fault Unit := do
  m.insns.forM (checkInsn m.vars)
  let uses := m.liveUses
  let defs := m.liveDefs
  m.vars.vars.forM (checkRecords uses defs)

/-! ## The whole method -/

/-- Looks at one enabled relation after the other. -/
def checkRelations (c : Checks) (m : Method) : Except Fault Unit := do
  m.phis.forM (Phi.check c m.vars)
  if c.backReferences then m.checkConsumers
  if c.useLists then m.checkUseLists

/-- Checks a method and reports the first disagreement. The method is not looked at if no relation
is enabled. -/
def verify (c : Checks) (m : Method) : Except Fault Unit :=
  if c.anyEnabled then m.checkRelations c else .ok ()

/-- Checks many methods; fails if one of them fails. -/
def verifyAll (c : Checks) (ms : List Method) : Except Fault Unit :=
  ms.forM (verify c)

end Method

end SsaForm
