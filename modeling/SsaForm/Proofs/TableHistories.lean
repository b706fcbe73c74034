import Mathlib.Data.List.Induction
import SsaForm.Proofs.Records
import SsaForm.Proofs.TableEdits

/-!
# SsaForm.Proofs.TableHistories — what a history of changes leaves in a table

The records of a table are lists that are searched, replaced in place and filtered. What they hold can
be said without them, by the changes that were made: a use is recorded if it was recorded once and
neither dropped nor recorded elsewhere since; a definition stands until the next one, or until it is
taken back by the instance that made it; a consumer is listed as long as each refresh has found a use
in it; a type is the last one given. `Stands` is the common form of these, with one equation for a
history that grows by an edit (`stands_append`).

`Variable.Follows` and `VarTable.Follows` say that the records are what stands. Every edit keeps that,
whatever it names (`VarTable.Follows.next`), so it holds after every history, and the answers follow
from it too (`edited_follows`). Nothing is assumed of the operands that are named, and refused edits are
part of the history.
-/

namespace SsaForm

/-- The table after edits, each made whether or not the one before failed. -/
def VarTable.edited (t : VarTable) (h : List TableEdit) : VarTable := h.foldl TableEdit.next t

/-- What each edit keeps is kept by a history. -/
theorem VarTable.KeptByChanges.edited {T : VarTable → Prop} (hT : KeptByChanges T) {t : VarTable}
    (ht : T t) (h : List TableEdit) : T (t.edited h) := by
  induction h generalizing t with
  | nil => exact ht
  | cons e rest ih => exact ih (hT.next ht e)

/-! ## What stands in a history -/

/-- The registers and versions for which the history makes variables. -/
def allocated (h : List TableEdit) : List (Nat × Nat) :=
  h.filterMap fun
    | .newVar reg version => some (reg, version)
    | _ => none

/-- The history has made the variable. -/
def Allocated (v : VarId) (h : List TableEdit) : Prop := v.index < (allocated h).length

/-- The edit `e` of `v` is in the history, made when `v` was there, and no later one undoes it. What
undoes it may depend on the edits until then. -/
def Stands (v : VarId) (undoes : List TableEdit → TableEdit → Prop) (e : TableEdit)
    (h : List TableEdit) : Prop :=
  ∃ front back, h = front ++ e :: back ∧ Allocated v front ∧
    ∀ mid d rest, back = mid ++ d :: rest → ¬ undoes (front ++ e :: mid) d

/-- The last that was done about the instance of `s` and `v` was to record the use at `s`. -/
def UseStands (v : VarId) (s : Site) : List TableEdit → Prop :=
  Stands v (fun _ d => (∃ i, d = .recordUse v ⟨s.operand, i⟩) ∨ d = .dropUse v s.operand)
    (.recordUse v s)

/-- The last definition of `v` was at `s`, and its instance has not been asked to give it up since. -/
def DefinitionStands (v : VarId) (s : Site) : List TableEdit → Prop :=
  Stands v (fun _ d => (∃ s', d = .define v s') ∨ d = .undefine v s.operand) (.define v s)

/-- The consumer `p` was added to `v`, and each refresh since has come while a use in `p` stood. -/
def ConsumerStands (v : VarId) (p : InsnId) : List TableEdit → Prop :=
  Stands v (fun h d => d = .refreshConsumers v ∧ ∀ a, ¬ UseStands v ⟨a, some p⟩ h)
    (.addConsumer v p)

/-- The last type that `v` was given. -/
def TypeStands (v : VarId) (type : ValueType) : List TableEdit → Prop :=
  Stands v (fun _ d => ∃ type', d = .setType v type') (.setType v type)

section Histories

variable {v : VarId} {h : List TableEdit} {d e : TableEdit}
  {undoes : List TableEdit → TableEdit → Prop}

theorem allocated_append (h h' : List TableEdit) :
    allocated (h ++ h') = allocated h ++ allocated h' :=
  List.filterMap_append

theorem Allocated.append (hv : Allocated v h) (h' : List TableEdit) : Allocated v (h ++ h') := by
  rw [Allocated, allocated_append, List.length_append]
  exact Nat.lt_of_lt_of_le hv (Nat.le_add_right _ _)

/-- One more edit either is the one that stands from now on, or leaves it standing. -/
theorem stands_append :
    Stands v undoes e (h ++ [d]) ↔ d = e ∧ Allocated v h ∨ Stands v undoes e h ∧ ¬ undoes h d := by
  constructor
  · rintro ⟨front, back, heq, hv, hkept⟩
    rcases List.eq_nil_or_concat back with rfl | ⟨back, d', rfl⟩
    · rcases List.append_inj' heq rfl with ⟨rfl, hlast⟩
      cases hlast
      exact Or.inl ⟨rfl, hv⟩
    · rw [List.concat_eq_append, ← List.cons_append, ← List.append_assoc] at heq
      rw [List.concat_eq_append] at hkept
      rcases List.append_inj' heq rfl with ⟨rfl, hlast⟩
      cases hlast
      refine Or.inr ⟨⟨front, back, rfl, hv, fun mid d' rest hback => ?_⟩, hkept back d [] rfl⟩
      refine hkept mid d' (rest ++ [d]) ?_
      rw [hback, List.append_assoc, List.cons_append]
  · rintro (⟨rfl, hv⟩ | ⟨⟨front, back, rfl, hv, hkept⟩, hd⟩)
    · refine ⟨h, [], rfl, hv, fun mid d' rest hnil => ?_⟩
      cases List.append_ne_nil_of_right_ne_nil mid (List.cons_ne_nil d' rest) hnil.symm
    · refine ⟨front, back ++ [d], by rw [List.append_assoc, List.cons_append], hv, ?_⟩
      intro mid d' rest heq
      rcases List.eq_nil_or_concat rest with rfl | ⟨rest, b, rfl⟩
      · rcases List.append_inj' heq rfl with ⟨rfl, hlast⟩
        cases hlast
        exact hd
      · rw [List.concat_eq_append, ← List.cons_append, ← List.append_assoc] at heq
        exact hkept mid d' rest (List.append_inj' heq rfl).1

theorem Stands.allocated (hs : Stands v undoes e h) : Allocated v h := by
  rcases hs with ⟨front, back, rfl, hv, -⟩
  exact hv.append _

/-- Edits that name another variable, or none, are of no account. -/
theorem stands_append_of_ne (hd : d.var? ≠ some v) (he : e.var? = some v)
    (hundoes : undoes h d → d.var? = some v) :
    Stands v undoes e (h ++ [d]) ↔ Stands v undoes e h := by
  rw [stands_append, or_iff_right, and_iff_left]
  · exact fun hu => hd (hundoes hu)
  · rintro ⟨rfl, -⟩
    exact hd he

theorem useStands_append {s : Site} : UseStands v s (h ++ [d]) ↔
    d = .recordUse v s ∧ Allocated v h ∨ UseStands v s h ∧
      ¬ ((∃ i, d = .recordUse v ⟨s.operand, i⟩) ∨ d = .dropUse v s.operand) :=
  stands_append

theorem definitionStands_append {s : Site} : DefinitionStands v s (h ++ [d]) ↔
    d = .define v s ∧ Allocated v h ∨ DefinitionStands v s h ∧
      ¬ ((∃ s', d = .define v s') ∨ d = .undefine v s.operand) :=
  stands_append

theorem consumerStands_append {p : InsnId} : ConsumerStands v p (h ++ [d]) ↔
    d = .addConsumer v p ∧ Allocated v h ∨ ConsumerStands v p h ∧
      ¬ (d = .refreshConsumers v ∧ ∀ a, ¬ UseStands v ⟨a, some p⟩ h) :=
  stands_append

theorem typeStands_append {type : ValueType} : TypeStands v type (h ++ [d]) ↔
    d = .setType v type ∧ Allocated v h ∨ TypeStands v type h ∧ ¬ ∃ type', d = .setType v type' :=
  stands_append

end Histories

/-! ## Variables -/

namespace Variable

/-- The uses are those that stand, one for each instance. -/
structure UsesFollow (x : Variable) (v : VarId) (h : List TableEdit) : Prop where
  nodup : (x.uses.map (·.operand)).Nodup
  mem : ∀ s, s ∈ x.uses ↔ UseStands v s h

/-- The consumers are those that stand, each listed once. -/
structure ConsumersFollow (x : Variable) (v : VarId) (h : List TableEdit) : Prop where
  nodup : x.consumers.Nodup
  mem : ∀ p, p ∈ x.consumers ↔ ConsumerStands v p h

/-- The records of the variable `v` are what stands in the history. -/
structure Follows (x : Variable) (v : VarId) (h : List TableEdit) : Prop where
  uses : x.UsesFollow v h
  consumers : x.ConsumersFollow v h
  definition : ∀ s, x.definition = some s ↔ DefinitionStands v s h
  type : ∀ type, x.type = type ↔
    TypeStands v type h ∨ type = .unknown ∧ ∀ type', ¬ TypeStands v type' h

variable {x : Variable} {v : VarId} {h : List TableEdit} {e : TableEdit}

/-! An edit makes of a record what it makes of the history. -/

theorem UsesFollow.congr {y : Variable} (hx : x.UsesFollow v h) (hy : y.uses = x.uses)
    (hkept : ∀ s, UseStands v s (h ++ [e]) ↔ UseStands v s h) : y.UsesFollow v (h ++ [e]) :=
  ⟨hy ▸ hx.nodup, fun s => by rw [hy, hx.mem, hkept]⟩

theorem ConsumersFollow.congr {y : Variable} (hx : x.ConsumersFollow v h)
    (hy : y.consumers = x.consumers)
    (hkept : ∀ p, ConsumerStands v p (h ++ [e]) ↔ ConsumerStands v p h) :
    y.ConsumersFollow v (h ++ [e]) :=
  ⟨hy ▸ hx.nodup, fun p => by rw [hy, hx.mem, hkept]⟩

theorem UsesFollow.change (hx : x.UsesFollow v h) (hv : Allocated v h) (he : e.var? = some v) :
    (e.change x).UsesFollow v (h ++ [e]) := by
  cases e with
  | newVar reg version => cases he
  | recordUse w s =>
    cases he
    refine ⟨Site.nodup_upsert hx.nodup, fun s' => (Site.mem_upsert hx.nodup).trans ?_⟩
    rw [useStands_append, hx.mem]
    refine or_congr ?_ (and_congr_right fun _ => not_congr ⟨?_, ?_⟩)
    · simp [hv, eq_comm]
    · intro heq
      exact Or.inl ⟨s.insn, by rw [heq]⟩
    · rintro (⟨i, hi⟩ | hi)
      · cases hi
        rfl
      · cases hi
  | dropUse w a =>
    cases he
    refine ⟨hx.nodup.sublist (List.filter_sublist.map _), fun s => ?_⟩
    have hmem : s ∈ (x.dropUse a).uses ↔ UseStands v s h ∧ s.operand ≠ a := by
      simp [dropUse, hx.mem]
    refine hmem.trans ?_
    simp [useStands_append, eq_comm (a := a)]
  | undefine w a =>
    cases he
    exact hx.congr (uses_undefine x a) fun s => by simp [useStands_append]
  | addConsumer w p =>
    cases he
    exact hx.congr (uses_addConsumer x p) fun s => by simp [useStands_append]
  | _ =>
    cases he
    exact hx.congr rfl fun s => by simp [useStands_append]

theorem ConsumersFollow.change (hx : x.ConsumersFollow v h) (hu : x.UsesFollow v h)
    (hv : Allocated v h) (he : e.var? = some v) : (e.change x).ConsumersFollow v (h ++ [e]) := by
  cases e with
  | newVar reg version => cases he
  | addConsumer w p =>
    cases he
    refine ⟨nodup_consumers_addConsumer hx.nodup p, fun q => mem_consumers_addConsumer.trans ?_⟩
    simp [consumerStands_append, hx.mem, hv, or_comm, eq_comm (a := p)]
  | refreshConsumers w =>
    cases he
    refine ⟨hx.nodup.filter _, fun p => mem_consumers_refreshConsumers.trans ?_⟩
    -- the uses in which the refresh looks are those that stand
    have hused : x.usedIn p = true ↔ ∃ a, UseStands v ⟨a, some p⟩ h := by
      rw [usedIn_iff]
      constructor
      · rintro ⟨⟨a, i⟩, hs, rfl⟩
        exact ⟨a, (hu.mem _).1 hs⟩
      · rintro ⟨a, ha⟩
        exact ⟨⟨a, some p⟩, (hu.mem _).2 ha, rfl⟩
    simp [consumerStands_append, hx.mem, hused]
  | undefine w a =>
    cases he
    exact hx.congr (consumers_undefine x a) fun p => by simp [consumerStands_append]
  | _ =>
    cases he
    exact hx.congr rfl fun p => by simp [consumerStands_append]

theorem definition_change (hx : ∀ s, x.definition = some s ↔ DefinitionStands v s h)
    (hv : Allocated v h) (he : e.var? = some v) (s : Site) :
    (e.change x).definition = some s ↔ DefinitionStands v s (h ++ [e]) := by
  rw [definitionStands_append, ← hx]
  cases e with
  | newVar reg version => cases he
  | define w s' =>
    cases he
    simp [TableEdit.change, define, hv]
  | undefine w a =>
    cases he
    simp [TableEdit.change, definition_undefine]
  | addConsumer w p =>
    cases he
    simp [TableEdit.change]
  | _ =>
    cases he
    simp [TableEdit.change, recordUse, dropUse, refreshConsumers, setType]

/-- The last type is the type; without one it is unknown. -/
theorem type_change
    (hx : ∀ type, x.type = type ↔
      TypeStands v type h ∨ type = .unknown ∧ ∀ type', ¬ TypeStands v type' h)
    (hv : Allocated v h) (he : e.var? = some v) (type : ValueType) :
    (e.change x).type = type ↔ TypeStands v type (h ++ [e]) ∨
      type = .unknown ∧ ∀ type', ¬ TypeStands v type' (h ++ [e]) := by
  simp only [typeStands_append]
  cases e with
  | newVar reg version => cases he
  | setType w type' =>
    cases he
    simp [TableEdit.change, setType, hv]
  | undefine w a =>
    cases he
    simpa [TableEdit.change, undefine_eq] using hx type
  | addConsumer w p =>
    cases he
    simpa [TableEdit.change, addConsumer_eq] using hx type
  | _ =>
    cases he
    simpa [TableEdit.change, recordUse, dropUse, refreshConsumers, define] using hx type

/-- An edit of the variable. -/
theorem Follows.change (hx : x.Follows v h) (hv : Allocated v h) (he : e.var? = some v) :
    (e.change x).Follows v (h ++ [e]) where
  uses := hx.uses.change hv he
  consumers := hx.consumers.change hx.uses hv he
  definition := definition_change hx.definition hv he
  type := type_change hx.type hv he

/-- An edit of another variable, or the making of one. -/
theorem Follows.frame (hx : x.Follows v h) (he : e.var? ≠ some v) : x.Follows v (h ++ [e]) := by
  have huse : ∀ s, UseStands v s (h ++ [e]) ↔ UseStands v s h := by
    refine fun s => stands_append_of_ne he rfl ?_
    rintro (⟨i, rfl⟩ | rfl) <;> rfl
  have hconsumer : ∀ p, ConsumerStands v p (h ++ [e]) ↔ ConsumerStands v p h := by
    refine fun p => stands_append_of_ne he rfl ?_
    rintro ⟨rfl, -⟩
    rfl
  have hdefinition : ∀ s, DefinitionStands v s (h ++ [e]) ↔ DefinitionStands v s h := by
    refine fun s => stands_append_of_ne he rfl ?_
    rintro (⟨s', rfl⟩ | rfl) <;> rfl
  have htype : ∀ type, TypeStands v type (h ++ [e]) ↔ TypeStands v type h := by
    refine fun type => stands_append_of_ne he rfl ?_
    rintro ⟨type', rfl⟩
    rfl
  refine ⟨hx.uses.congr rfl huse, hx.consumers.congr rfl hconsumer, ?_, ?_⟩
  · intro s
    rw [hx.definition, hdefinition]
  · intro type
    simp only [hx.type, htype]

/-- A variable that has just been made. -/
theorem follows_new (hv : ¬ Allocated v h) (reg version : Nat) :
    ({ id := v, reg := reg, version := version } : Variable).Follows v h where
  uses := ⟨List.nodup_nil, fun _ => iff_of_false List.not_mem_nil fun hs => hv hs.allocated⟩
  consumers := ⟨List.nodup_nil, fun _ => iff_of_false List.not_mem_nil fun hs => hv hs.allocated⟩
  definition _ := iff_of_false nofun fun hs => hv hs.allocated
  type type := by
    have hnone : ∀ type, ¬ TypeStands v type h := fun _ hs => hv hs.allocated
    simp [hnone, eq_comm]

end Variable

/-! ## Tables -/

namespace VarTable

variable {t : VarTable} {h : List TableEdit} {e : TableEdit} {v : VarId}

/-- The variables are those that the history has made, in this order, and their records are what
stands. -/
structure Follows (t : VarTable) (h : List TableEdit) : Prop where
  vars : t.vars.map (fun x => (x.reg, x.version)) = allocated h
  records : ∀ v x, t.get? v = some x → x.Follows v h

theorem Follows.length_eq (ht : t.Follows h) : t.vars.length = (allocated h).length := by
  rw [← ht.vars, List.length_map]

theorem Follows.mem_iff (ht : t.Follows h) : v ∈ t ↔ Allocated v h := by
  rw [mem_def, Allocated, ht.length_eq]

/-- An edit gives no variable another register or version. -/
theorem vars_modify_change (t : VarTable) (v : VarId) (e : TableEdit) :
    (t.modify v e.change).vars.map (fun x => (x.reg, x.version)) =
      t.vars.map fun x => (x.reg, x.version) := by
  have hkept : ∀ x, ((e.change x).reg, (e.change x).version) = (x.reg, x.version) := by
    intro x
    rcases e.label_change x with ⟨-, hreg, hversion⟩
    rw [hreg, hversion]
  refine List.ext_getElem? fun i => ?_
  rw [modify, List.getElem?_map, List.getElem?_map, List.getElem?_modify]
  cases t.vars[i]? with
  | none => rfl
  | some x =>
    by_cases hi : v.index = i
    · simp [hi, hkept]
    · simp [hi]

/-- An edit leaves the variables that there are, and adds the one that it makes. -/
theorem vars_next (t : VarTable) (e : TableEdit) :
    (e.next t).vars.map (fun x => (x.reg, x.version)) =
      t.vars.map (fun x => (x.reg, x.version)) ++ allocated [e] := by
  cases he : e.var? with
  | none =>
    rcases TableEdit.exists_eq_newVar he with ⟨reg, version, rfl⟩
    exact List.map_append
  | some v =>
    have hnothing : allocated [e] = [] := by
      cases e with
      | newVar reg version => cases he
      | _ => rfl
    rw [hnothing, List.append_nil]
    by_cases hv : v ∈ t
    · rw [TableEdit.next_of_mem he hv, vars_modify_change]
    · rw [TableEdit.next_of_not_mem he hv]

/-- What an edit adds is a variable without records. -/
theorem eq_new_of_get?_next {w : VarId} {y : Variable} (hw : w ∉ t)
    (hy : (e.next t).get? w = some y) :
    e.var? = none ∧ ∃ reg version, y = { id := w, reg := reg, version := version } := by
  cases he : e.var? with
  | none =>
    rcases TableEdit.exists_eq_newVar he with ⟨reg, version, rfl⟩
    have halloc : (t.alloc reg version).2.get? w = some y := hy
    rw [get?_alloc, get?_eq_none.2 hw] at halloc
    by_cases hnext : w = ⟨t.vars.length⟩
    · rw [if_pos hnext, ← hnext, Option.some.injEq] at halloc
      exact ⟨rfl, reg, version, halloc.symm⟩
    · rw [if_neg hnext] at halloc
      cases halloc
  | some v =>
    have hmem := mem_of_get? hy
    by_cases hv : v ∈ t
    · rw [TableEdit.next_of_mem he hv, mem_modify] at hmem
      exact absurd hmem hw
    · rw [TableEdit.next_of_not_mem he hv] at hmem
      exact absurd hmem hw

/-- Whatever an edit names, and whether or not it is refused, the table goes on following its
history. -/
theorem Follows.next (ht : t.Follows h) (e : TableEdit) : (e.next t).Follows (h ++ [e]) := by
  refine ⟨by rw [vars_next, ht.vars, allocated_append], fun w y hy => ?_⟩
  by_cases hw : w ∈ t
  · rcases exists_get? hw with ⟨x, hx⟩
    by_cases he : e.var? = some w
    · rw [TableEdit.next_of_mem he hw, get?_modify, if_pos rfl, hx] at hy
      cases hy
      exact (ht.records w x hx).change (ht.mem_iff.1 hw) he
    · rw [TableEdit.get?_next_of_ne hw he, hx] at hy
      cases hy
      exact (ht.records w y hx).frame he
  · rcases eq_new_of_get?_next hw hy with ⟨he, reg, version, rfl⟩
    have hother : e.var? ≠ some w := by
      rw [he]
      exact nofun
    exact (Variable.follows_new (mt ht.mem_iff.2 hw) reg version).frame hother

theorem follows_edited (h : List TableEdit) : (({} : VarTable).edited h).Follows h := by
  induction h using List.reverseRecOn with
  | nil => exact ⟨rfl, fun v x hx => nomatch hx⟩
  | append_singleton h e ih =>
    have hlast : ({} : VarTable).edited (h ++ [e]) = e.next (({} : VarTable).edited h) :=
      List.foldl_append
    rw [hlast]
    exact ih.next e

end VarTable

/-- What an edit has to return after a history: a new variable is the next one, an edit of a missing
variable is refused, and giving up a use or a definition tells whether one stands. -/
inductive TableEdit.Returns (h : List TableEdit) : TableEdit → Except Fault Answer → Prop where
  | newVar (reg version : Nat) :
    Returns h (.newVar reg version) (.ok (.var ⟨(allocated h).length⟩))
  | unknown {e : TableEdit} {v : VarId} (he : e.var? = some v) (hv : ¬ Allocated v h) :
    Returns h e (.error (.unknownVariable v))
  | dropUse {v : VarId} {a : OperandId} {b : Bool} (hv : Allocated v h)
    (hb : b = true ↔ ∃ s, UseStands v s h ∧ s.operand = a) : Returns h (.dropUse v a) (.ok (.flag b))
  | undefine {v : VarId} {a : OperandId} {b : Bool} (hv : Allocated v h)
    (hb : b = true ↔ ∃ s, DefinitionStands v s h ∧ s.operand = a) :
    Returns h (.undefine v a) (.ok (.flag b))
  | done {e : TableEdit} {v : VarId} (he : e.var? = some v) (hv : Allocated v h)
    (hdrop : ∀ a, e ≠ .dropUse v a) (hundefine : ∀ a, e ≠ .undefine v a) : Returns h e (.ok .done)

namespace VarTable

variable {t : VarTable} {h : List TableEdit}

theorem Follows.returns (ht : t.Follows h) (e : TableEdit) : e.Returns h (e.verdict t) := by
  cases he : e.var? with
  | none =>
    rcases TableEdit.exists_eq_newVar he with ⟨reg, version, rfl⟩
    have hverdict : TableEdit.verdict t (.newVar reg version) =
        .ok (.var ⟨(allocated h).length⟩) := by
      rw [← ht.length_eq]
      rfl
    rw [hverdict]
    exact .newVar reg version
  | some v =>
    by_cases hv : v ∈ t
    · rcases exists_get? hv with ⟨x, hx⟩
      have hallocated := ht.mem_iff.1 hv
      have hrecords := ht.records v x hx
      rw [TableEdit.verdict, TableEdit.perform_of_get? he hx]
      cases e with
      | newVar reg version => cases he
      | dropUse w a =>
        cases he
        refine .dropUse hallocated (Variable.usedBy_iff.trans (exists_congr fun s => ?_))
        rw [hrecords.uses.mem]
      | undefine w a =>
        cases he
        refine .undefine hallocated (Variable.definedBy_iff.trans (exists_congr fun s => ?_))
        rw [hrecords.definition]
      | _ => exact .done he hallocated nofun nofun
    · rw [TableEdit.verdict, TableEdit.perform_of_not_mem he hv]
      exact .unknown he fun hallocated => hv (ht.mem_iff.2 hallocated)

/-- **Tables and their histories.** Whatever edits were made of an empty table, with whatever variables
and operands and however they ended: its variables are numbered in the order in which they were made,
and their records are what stands in the history. The next edit returns what the history calls for; if
it is refused nothing changes, and otherwise no variable but the one that it names. -/
theorem edited_follows (h : List TableEdit) (e : TableEdit) :
    let t := ({} : VarTable).edited h
    t.ids = (List.range (allocated h).length).map VarId.mk ∧ t.Follows h ∧
      e.Returns h (e.verdict t) ∧ (∀ f, e.verdict t = .error f → e.next t = t) ∧
      ∀ w ∈ t, e.var? ≠ some w → (e.next t).get? w = t.get? w := by
  intro t
  have ht : t.Follows h := follows_edited h
  have hempty : ({} : VarTable).Numbered := fun _ _ hx => nomatch hx
  have hnumbered : t.Numbered := numbered_keptByChanges.edited hempty h
  refine ⟨?_, ht, ht.returns e, fun f => TableEdit.next_of_verdict_error,
    fun w => TableEdit.get?_next_of_ne⟩
  rw [hnumbered.ids_eq, ht.length_eq]

/-- A use that leaves the phi and comes back stands, but the refresh in between has taken the phi off
the list for good. An edit of a missing variable is refused and changes nothing, and one of this variable
does not change the other one. -/
theorem edited_follows_dropped_consumer :
    let v : VarId := ⟨0⟩
    let a : OperandId := ⟨5⟩
    let h : List TableEdit :=
      [.newVar 3 0, .newVar 4 0, .recordUse v ⟨a, some ⟨1⟩⟩, .addConsumer v ⟨1⟩,
        .recordUse v ⟨a, some ⟨2⟩⟩, .refreshConsumers v, .recordUse v ⟨a, some ⟨1⟩⟩,
        .refreshConsumers v]
    let t := ({} : VarTable).edited h
    let refused : TableEdit := .undefine ⟨2⟩ a
    let dropped : TableEdit := .dropUse v a
    t.get? v = some { id := v, reg := 3, version := 0, uses := [⟨a, some ⟨1⟩⟩] } ∧
      UseStands v ⟨a, some ⟨1⟩⟩ h ∧ ¬ ConsumerStands v ⟨1⟩ h ∧
      refused.verdict t = .error (.unknownVariable ⟨2⟩) ∧ refused.next t = t ∧
      (⟨1⟩ : VarId) ∈ t ∧ dropped.var? ≠ some ⟨1⟩ ∧ (dropped.next t).get? ⟨1⟩ = t.get? ⟨1⟩ := by
  intro v a h t refused dropped
  have hrecords : t.get? v = some { id := v, reg := 3, version := 0, uses := [⟨a, some ⟨1⟩⟩] } := rfl
  have hrefused : refused.verdict t = .error (.unknownVariable ⟨2⟩) := rfl
  have hmem : (⟨1⟩ : VarId) ∈ t := by decide
  have hother : dropped.var? ≠ some ⟨1⟩ := by decide
  rcases edited_follows h refused with ⟨-, hfollows, -, hkept, -⟩
  rcases edited_follows h dropped with ⟨-, -, -, -, hframe⟩
  have hv := hfollows.records v _ hrecords
  refine ⟨hrecords, (hv.uses.mem _).1 List.mem_cons_self, fun hs => ?_, hrefused,
    hkept _ hrefused, hmem, hother, hframe _ hmem hother⟩
  cases (hv.consumers.mem ⟨1⟩).2 hs

end VarTable

end SsaForm
