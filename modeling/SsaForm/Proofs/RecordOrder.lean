import Mathlib.Data.List.Forall2
import SsaForm.Proofs.Readers
import SsaForm.Proofs.ReaderChanges

/-!
# SsaForm.Proofs.RecordOrder — tables that differ in the order of their records

The uses and the consumers of a variable are lists, and the order in which calls are made shows in
them. `Method.SameUpToOrder` compares two methods but for that order. Two methods that record
exactly their readers and have the same instructions are the same up to order as soon as the rest of
their variables is (`Coherent.sameRecords`), and that rest is what no change of arguments touches
(`description_keptByReaders`).
-/

namespace SsaForm

namespace Variable

/-- The variable without the records of its readers. -/
def description (x : Variable) : VarId × Nat × Nat × ValueType × Option Site :=
  (x.id, x.reg, x.version, x.type, x.definition)

theorem eq_of_description {x y : Variable} (h : y.description = x.description)
    (huses : y.uses = x.uses) (hconsumers : y.consumers = x.consumers) : y = x := by
  cases x
  cases y
  simp only [description, Prod.mk.injEq] at h
  simp_all

/-- The same variable, with the same readers recorded in some order. -/
structure SameRecords (x y : Variable) : Prop where
  description : y.description = x.description
  uses : y.uses.Perm x.uses
  consumers : y.consumers.Perm x.consumers

theorem UsesAre.perm {x y : Variable} {U : OperandId → InsnId → Prop} (hx : x.UsesAre U)
    (hy : y.UsesAre U) : y.uses.Perm x.uses :=
  (List.perm_ext_iff_of_nodup (List.Nodup.of_map _ hy.nodup) (List.Nodup.of_map _ hx.nodup)).2
    fun s => (hy.mem s).trans (hx.mem s).symm

theorem ConsumersAre.perm {x y : Variable} {Q : InsnId → Prop} (hx : x.ConsumersAre Q)
    (hy : y.ConsumersAre Q) : y.consumers.Perm x.consumers :=
  (List.perm_ext_iff_of_nodup hy.nodup hx.nodup).2 fun p => (hy.mem p).trans (hx.mem p).symm

end Variable

namespace VarTable

/-- The same variables in the same order, up to the order of the records of their readers. -/
def SameRecords (t s : VarTable) : Prop := List.Forall₂ Variable.SameRecords t.vars s.vars

theorem sameRecords_of_get? {t s : VarTable} (hmem : ∀ v, v ∈ s ↔ v ∈ t)
    (h : ∀ v x y, t.get? v = some x → s.get? v = some y → x.SameRecords y) : t.SameRecords s := by
  have hlength : t.vars.length = s.vars.length := by
    apply Nat.le_antisymm
    · by_contra hlt
      exact (hmem ⟨s.vars.length⟩).not.1 s.not_mem_next (Nat.lt_of_not_le hlt)
    · by_contra hlt
      exact (hmem ⟨t.vars.length⟩).not.2 t.not_mem_next (Nat.lt_of_not_le hlt)
  refine List.forall₂_iff_get.2 ⟨hlength, fun k hk hk' => h ⟨k⟩ _ _ ?_ ?_⟩
  · exact List.getElem?_eq_getElem hk
  · exact List.getElem?_eq_getElem hk'

/-- No change of arguments touches the rest of a variable. -/
theorem description_keptByReaders (A : OperandId → Prop) (t : VarTable) :
    KeptByReaders A (Same Variable.description t) :=
  same_keptByReaders (fun _ _ _ _ => rfl) (fun _ _ _ => rfl) (fun _ _ => rfl) t

end VarTable

namespace Method

/-- The same instructions and checks, and the same variables up to the order of their records. -/
structure SameUpToOrder (m m' : Method) : Prop where
  slots : m'.slots = m.slots
  checks : m'.checks = m.checks
  vars : m.vars.SameRecords m'.vars

/-- What the records hold is determined by the instructions. -/
theorem Coherent.sameRecords {m m' : Method} (h : m.Coherent) (h' : m'.Coherent)
    (hslots : m'.slots = m.slots) (hsame : VarTable.Same Variable.description m.vars m'.vars) :
    m.vars.SameRecords m'.vars := by
  have hreads : ∀ v, m'.Reads v = m.Reads v := by
    intro v
    funext a k
    simp only [Reads, Holds, insn?, hslots]
  have hconsumes : ∀ v, m'.Consumes v = m.Consumes v := by
    intro v
    funext k
    simp only [Consumes, IsPhi, Holds, insn?, hslots]
  refine VarTable.sameRecords_of_get? (fun v => hsame.mem_iff) fun v x y hx hy => ?_
  refine ⟨?_, ?_, ?_⟩
  · have hv := hsame v
    rw [hx, hy] at hv
    simpa using hv
  · exact (h.readers.uses v x hx).perm (hreads v ▸ h'.readers.uses v y hy)
  · exact (h.readers.consumers v x hx).perm (hconsumes v ▸ h'.readers.consumers v y hy)

end Method

end SsaForm
