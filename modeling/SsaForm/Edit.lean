import SsaForm.Fault

/-!
# SsaForm.Edit — operations that may fail halfway

An operation on instructions and variables can fail after it has begun to change them, and the change
made so far stays. An `Edit σ` is such an operation: its outcome is a value or a fault, and in either
case the state that it reached.

* `Edit.atomically` is the single change, which is made as a whole or not at all.
* `Edit.zoom` runs an edit of a part inside the whole.
* `Edit.draw` takes an operand identity from the supply that stands beside a state.
-/

namespace SsaForm

/-- An operation on a state of type `σ`. A failed operation leaves the state that it had reached. -/
abbrev Edit (σ : Type) := EStateM Fault σ

namespace Edit

variable {σ τ α : Type}

/-- The state that an outcome leaves. -/
def finalState : EStateM.Result Fault σ α → σ
  | .ok _ s => s
  | .error _ s => s

/-- The value or the fault of an outcome. -/
def verdict : EStateM.Result Fault σ α → Except Fault α
  | .ok a _ => .ok a
  | .error e _ => .error e

/-- The edit that changes the state as a whole, or fails and changes nothing. -/
def atomically (f : σ → Except Fault σ) : Edit σ Unit := fun s =>
  match f s with
  | .ok s' => .ok () s'
  | .error e => .error e s

/-- A question that may fail; the state stays. -/
def ask (f : σ → Except Fault α) : Edit σ α := fun s =>
  match f s with
  | .ok a => .ok a s
  | .error e => .error e s

/-- Runs an edit of a part, taken out by `part` and put back by `whole`. -/
def zoom (part : σ → τ) (whole : σ → τ → σ) (act : Edit τ α) : Edit σ α := fun s =>
  match act (part s) with
  | .ok a t => .ok a (whole s t)
  | .error e t => .error e (whole s t)

theorem finalState_zoom (part : σ → τ) (whole : σ → τ → σ) (act : Edit τ α) (s : σ) :
    finalState (zoom part whole act s) = whole s (finalState (act (part s))) := by
  unfold zoom
  split <;> simp_all [finalState]

theorem verdict_zoom (part : σ → τ) (whole : σ → τ → σ) (act : Edit τ α) (s : σ) :
    verdict (zoom part whole act s) = verdict (act (part s)) := by
  unfold zoom
  split <;> simp_all [verdict]

/-- A failed change as a whole changes nothing. -/
theorem finalState_atomically_of_error {f : σ → Except Fault σ} {s : σ} {e : Fault}
    (h : verdict (atomically f s) = .error e) : finalState (atomically f s) = s := by
  unfold atomically at h ⊢
  split <;> simp_all [verdict, finalState]

/-- A question leaves the state as it is. -/
theorem finalState_ask (f : σ → Except Fault α) (s : σ) : finalState (ask f s) = s := by
  unfold ask
  split <;> rfl

/-! ## Beside a supply -/

/-- Takes the next operand identity. -/
def draw : Edit (σ × Supply) OperandId :=
  modifyGet fun s => (s.2.draw.1, (s.1, s.2.draw.2))

/-- An edit that draws nothing. -/
def beside (act : Edit σ α) : Edit (σ × Supply) α :=
  zoom Prod.fst (fun s t => (t, s.2)) act

end Edit

end SsaForm
