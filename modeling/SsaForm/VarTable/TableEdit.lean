import SsaForm.Answer

/-!
# SsaForm.VarTable.TableEdit — changes of a table as data

The table's records can be changed directly, past the instructions that they describe. A `TableEdit`
is one such change and `TableEdit.perform` makes it; nothing is assumed about the operands that it
names.
-/

namespace SsaForm

/-- A change of a table, with operands given as `σ` where their site counts and as `ι` where only
their identity does. -/
inductive TableEditOf (σ ι : Type) where
  | newVar (reg version : Nat)
  | setType (v : VarId) (type : ValueType)
  | define (v : VarId) (arg : σ)
  | undefine (v : VarId) (arg : ι)
  | recordUse (v : VarId) (arg : σ)
  | dropUse (v : VarId) (arg : ι)
  | addConsumer (v : VarId) (p : InsnId)
  | refreshConsumers (v : VarId)
deriving DecidableEq, Repr

/-- A change of a table. -/
abbrev TableEdit := TableEditOf Site OperandId

/-- Fills in the operands of a change. -/
def TableEditOf.resolve {σ ι σ' ι' : Type} {m : Type → Type} [Monad m] (site : σ → m σ')
    (operand : ι → m ι') : TableEditOf σ ι → m (TableEditOf σ' ι')
  | newVar reg version => return newVar reg version
  | setType v type => return setType v type
  | define v arg => return define v (← site arg)
  | undefine v arg => return undefine v (← operand arg)
  | recordUse v arg => return recordUse v (← site arg)
  | dropUse v arg => return dropUse v (← operand arg)
  | addConsumer v p => return addConsumer v p
  | refreshConsumers v => return refreshConsumers v

namespace TableEdit

/-- Makes the change. -/
def perform (t : VarTable) : TableEdit → Except Fault (Answer × VarTable)
  | .newVar reg version => .ok (.var (t.alloc reg version).1, (t.alloc reg version).2)
  | .setType v type => done (t.setType v type)
  | .define v s => done (t.define v s)
  | .undefine v a => flag (t.undefine v a)
  | .recordUse v s => done (t.recordUse v s)
  | .dropUse v a => flag (t.dropUse v a)
  | .addConsumer v p => done (t.addConsumer v p)
  | .refreshConsumers v => done (t.refreshConsumers v)
where
  /-- A change without a value. -/
  done (r : Except Fault VarTable) : Except Fault (Answer × VarTable) :=
    r.map fun t => (.done, t)
  /-- A change that tells whether it had an effect. -/
  flag (r : Except Fault (Bool × VarTable)) : Except Fault (Answer × VarTable) :=
    r.map fun s => (.flag s.1, s.2)

end TableEdit

end SsaForm
