import SsaForm.Proofs.Histories
import SsaForm.Proofs.ReaderChanges
import SsaForm.Proofs.Records
import SsaForm.Proofs.TableEdits

/-!
# SsaForm.Proofs.Events — mutators between changes of the table

The table of a method can be changed past its instructions, and another table can be put in its place.
An `Event` is any of these or a call of a mutator. Events are made one after the other, whether or not
the one before failed (`Method.through`), and nothing is left of the agreement between instructions and
table. What survives is

* what holds of the instructions alone: they stay well formed (`Method.wellFormed_through`);
* what each change of a record keeps of the table (`VarTable.KeptByChanges`): the mutators change the
  table in no other way. So a table records an instance as a use of a variable once at most
  (`Method.usesOnce_through`).
-/

namespace SsaForm

open Edit

/-! ## Events -/

/-- What can be done to a method. -/
inductive Event where
  /-- A mutator is called. -/
  | call (c : Call)
  /-- The table is changed directly. -/
  | edit (e : TableEdit)
  /-- Another table is put in the place of the method's. -/
  | swap (t : VarTable)
  /-- An argument is made for a phi; it is not bound. -/
  | newPhiArg (phi : InsnId) (id : OperandId) (var : Option VarId)
  /-- The method is checked. -/
  | check (c : Checks)

namespace Event

/-- The value or the fault of an event. -/
def verdict (m : Method) : Event → Except Fault Answer
  | call c => c.verdict m
  | edit e => (e.perform m.vars).map (·.1)
  | swap _ => .ok .done
  | newPhiArg phi id var => (m.newPhiArg phi id var).map (.operand ∘ .register)
  | check c => (m.verify c).map fun _ => .done

/-- The method after an event. A failed change of the table leaves the table as it was. -/
def next (m : Method) : Event → Method
  | call c => c.next m
  | edit e =>
    match e.perform m.vars with
    | .ok r => { m with vars := r.2 }
    | .error _ => m
  | swap t => { m with vars := t }
  | newPhiArg _ _ _ | check _ => m

/-- An edit of the table makes of it what it makes of any table. -/
theorem next_edit (m : Method) (e : TableEdit) :
    next m (.edit e) = { m with vars := e.next m.vars } := by
  rw [next, TableEdit.next]
  cases e.perform m.vars <;> rfl

end Event

namespace Method

/-- The method after events. -/
def through (m : Method) (events : List Event) : Method := events.foldl Event.next m

/-- What each event keeps that is as `G` says holds after such events. -/
theorem invariant_through {P : Method → Prop} {G : Event → Prop}
    (hstep : ∀ m e, P m → G e → P (e.next m)) {m : Method} {events : List Event} (hm : P m)
    (h : ∀ e ∈ events, G e) : P (m.through events) := by
  induction events generalizing m with
  | nil => exact hm
  | cons e rest ih =>
    rw [List.forall_mem_cons] at h
    exact ih (hstep m e hm h.1) h.2

/-! ## Instructions -/

theorem insn?_next_edit (m : Method) (e : TableEdit) (id : InsnId) :
    (Event.next m (.edit e)).insn? id = m.insn? id := by
  rw [Event.next_edit]
  rfl

/-- Whatever is done to the table, instructions stay well formed. -/
theorem wellFormed_next_event {m : Method} (hm : m.WellFormed) (e : Event) :
    (e.next m).WellFormed := by
  cases e with
  | call c => exact wellFormed_next hm c
  | edit e =>
    intro id i hi
    rw [insn?_next_edit] at hi
    exact hm id i hi
  | swap t => exact hm
  | newPhiArg phi id var => exact hm
  | check c => exact hm

theorem wellFormed_through {m : Method} (hm : m.WellFormed) (events : List Event) :
    (m.through events).WellFormed :=
  invariant_through (P := WellFormed) (G := fun _ => True)
    (fun _ e hm _ => wellFormed_next_event hm e) hm fun _ _ => trivial

theorem wellFormed_empty (checks : Checks) : ({ checks := checks } : Method).WellFormed := by
  intro id i hi
  cases hi

end Method

/-! ## Tables -/

namespace VarTable

namespace KeptByChanges

variable {T : VarTable → Prop} (h : KeptByChanges T)

include h

theorem forget {t : VarTable} (ht : T t) (o : Option Register) : T (t.forget o) := by
  cases o with
  | none => exact ht
  | some r => exact h.undefine t r.var r.id ht

/-- It survives the changes of readings in particular, whatever the instances. -/
theorem readers : KeptByReaders (fun _ => True) T where
  recordUse t v a i _ := h.recordUse t v ⟨a, i⟩
  dropUse t v a _ := h.dropUse t v a
  addConsumer := h.addConsumer
  refreshConsumers := h.refreshConsumers

theorem keptBySteps : Method.KeptBySteps fun m => T m.vars where
  newVar reg version m hm := h.alloc m.vars reg version hm
  newNode _ _ hm := hm
  newPhi _ _ _ hm := hm
  addArg id a m n hm _ := h.readers.node_addArg trivial ⟨n, m.vars⟩ hm
  removeArg id k m n hm _ := h.readers.node_removeArgAt (s := ⟨n, m.vars⟩) hm fun _ _ => trivial
  insertBinding id m p k r pred hm _ _ := h.readers.phi_insertBinding k pred trivial ⟨p, m.vars⟩ hm
  removeBinding id k m p hm _ := h.readers.phi_removeArgAt (s := ⟨p, m.vars⟩) hm fun _ _ => trivial
  attachVar id k v := by
    have hattach : Keeps (fun s : Linked Insn => T s.vars) (atomically (Insn.varAttached k v)) :=
      keeps_atomically fun _ _ hs hok => h.readers.attachVar hs (fun _ _ => trivial) hok
    exact Method.keeps_editInsn fun m i hm _ => hattach ⟨i, m.vars⟩ hm
  takePhi id m p hm hp _ := by
    rcases Method.finalState_takePhi hp with ⟨t, heq, ⟨-, rfl⟩ | ⟨-, rfl⟩⟩
    · rw [heq]
      exact hm
    · rw [heq]
      exact h.undefine _ _ _ hm

/-- A property that survives the changes of a record survives every call. -/
theorem next_call {m : Method} (hm : T m.vars) (c : Call) : T (c.next m).vars := by
  refine h.keptBySteps.keeps_next hm ?_ ?_ ?_ ?_ ?_
  · intro checks _
    exact hm
  · intro id k a _
    have hset : Method.KeepsNode (fun m => T m.vars) id (Node.setArg k a) :=
      fun m n hm _ => h.readers.node_setArg (s := ⟨n, m.vars⟩) hm trivial fun _ _ => trivial
    exact Method.keeps_verified (Method.keeps_editInsn_edit hset (Method.keepsPhi_ask _)) m hm
  · intro id old new _
    refine h.keptBySteps.replaceArg_cases hm fun n _ => ?_
    exact h.readers.node_replaceArg (s := ⟨n, m.vars⟩) hm trivial trivial
  · intro id r _
    have hset : Keeps (fun s : Linked Node => T s.vars) (atomically (Node.resultSet r)) := by
      refine keeps_atomically fun s s' hs hok => ?_
      rcases Node.resultSet_eq_ok.1 hok with ⟨-, -, rfl⟩
      exact h.define _ _ _ (h.forget hs _)
    have hnode : Method.KeepsNode (fun m => T m.vars) id (atomically (Node.resultSet r)) :=
      fun m n hm _ => hset ⟨n, m.vars⟩ hm
    rw [Method.setResult, Insn.setResult, Node.setResult_eq]
    exact Method.keeps_verified (Method.keeps_editInsn_edit hnode (Method.keepsPhi_ask _)) m hm
  · intro id v _
    have hassign : Keeps (fun s : Linked Insn => T s.vars) (atomically (Insn.resultAssigned v)) := by
      refine keeps_atomically fun s s' hs hok => ?_
      rcases Insn.resultAssigned_eq_ok.1 hok with ⟨-, r, -, -, rfl⟩
      exact h.define _ (some v) r.site hs
    have hedit : Keeps (fun m : Method => T m.vars)
        (Method.editInsn id (atomically (Insn.resultAssigned v))) :=
      Method.keeps_editInsn fun m i hm _ => hassign ⟨i, m.vars⟩ hm
    rw [Method.assignResult, Insn.assignResult_eq]
    exact Method.keeps_verified hedit m hm

/-- It survives every event, if it holds of the tables that are put in. -/
theorem next_event {m : Method} (hm : T m.vars) {e : Event} (hswap : ∀ t, e = .swap t → T t) :
    T (e.next m).vars := by
  cases e with
  | call c => exact h.next_call hm c
  | edit e =>
    rw [Event.next_edit]
    exact h.next hm e
  | swap t => exact hswap t rfl
  | newPhiArg phi id var => exact hm
  | check c => exact hm

end KeptByChanges

end VarTable

namespace Method

/-- The table of a method records an instance once, if the tables that were put in do. -/
theorem usesOnce_through {checks : Checks} {events : List Event}
    (hswap : ∀ t, Event.swap t ∈ events → t.UsesOnce) :
    (({ checks := checks } : Method).through events).vars.UsesOnce := by
  refine invariant_through (P := fun m => m.vars.UsesOnce)
    (G := fun e => ∀ t, e = .swap t → t.UsesOnce) ?_ ?_ ?_
  · intro m e hm he
    exact VarTable.usesOnce_keptByChanges.next_event hm he
  · intro v x hx
    cases hx
  · rintro e he t rfl
    exact hswap t he

end Method

end SsaForm
