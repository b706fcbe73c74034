import SsaForm.Edit

/-!
# SsaForm.Proofs.Edits — what an edit keeps, whether or not it fails

A failed edit leaves the state that it had reached, so an invariant of methods has to survive the
failures as well. `Keeps P act` says that `act` leads from `P` to `P` in either case; its rules
follow the operators from which edits are built:

* the operators that cannot move the state (`keeps_pure`, `keeps_ask`);
* the single step (`keeps_atomically`), which owes the case of success only;
* the compositions (`keeps_bind`, `keeps_get_bind`, `keeps_map`, `keeps_mapM`).
-/

namespace SsaForm

namespace Edit

variable {σ τ α β : Type}

/-! ## Reading an outcome through the operators -/

theorem finalState_map (f : α → β) (act : Edit σ α) (s : σ) :
    finalState ((f <$> act) s) = finalState (act s) := by
  simp only [Functor.map, EStateM.map]
  cases act s <;> rfl

theorem verdict_map (f : α → β) (act : Edit σ α) (s : σ) :
    verdict ((f <$> act) s) = (verdict (act s)).map f := by
  simp only [Functor.map, EStateM.map]
  cases act s <;> rfl

theorem discard_eq (act : Edit σ α) : discard act = (fun _ => ()) <$> act := rfl

/-- A sequence goes on from a success with the value and the state that it left. -/
theorem bind_apply (act : Edit σ α) (k : α → Edit σ β) (s : σ) :
    (act >>= k) s = match act s with
      | .ok a s' => k a s'
      | .error e s' => .error e s' := by
  simp only [bind, EStateM.bind]
  cases act s <;> rfl

theorem bind_of_ok {act : Edit σ α} {k : α → Edit σ β} {s s' : σ} {a : α} (h : act s = .ok a s') :
    (act >>= k) s = k a s' := by
  rw [bind_apply, h]

theorem bind_of_error {act : Edit σ α} {k : α → Edit σ β} {s s' : σ} {e : Fault}
    (h : act s = .error e s') : (act >>= k) s = .error e s' := by
  rw [bind_apply, h]

theorem get_bind_apply (k : σ → Edit σ α) (s : σ) : (get >>= k) s = k s s := rfl

theorem throw_bind_apply (e : Fault) (k : α → Edit σ β) (s : σ) :
    (throw e >>= k) s = .error e s := rfl

theorem map_of_error {f : α → β} {act : Edit σ α} {s s' : σ} {e : Fault} (h : act s = .error e s') :
    (f <$> act) s = .error e s' := by
  rw [map_eq_pure_bind, bind_of_error h]

theorem verdict_eq_ok {r : EStateM.Result Fault σ α} {a : α} :
    verdict r = .ok a ↔ r = .ok a (finalState r) := by
  cases r <;> simp [verdict, finalState]

theorem verdict_eq_error {r : EStateM.Result Fault σ α} {e : Fault} :
    verdict r = .error e ↔ r = .error e (finalState r) := by
  cases r <;> simp [verdict, finalState]

/-- An outcome is its verdict together with the state that it leaves. -/
theorem result_ext {r r' : EStateM.Result Fault σ α} (hv : verdict r = verdict r')
    (hs : finalState r = finalState r') : r = r' := by
  cases r <;> cases r' <;> simp_all [verdict, finalState]

theorem atomically_of_ok {f : σ → Except Fault σ} {s s' : σ} (h : f s = .ok s') :
    atomically f s = .ok () s' := by
  simp only [atomically, h]

theorem atomically_of_error {f : σ → Except Fault σ} {s : σ} {e : Fault} (h : f s = .error e) :
    atomically f s = .error e s := by
  simp only [atomically, h]

theorem ask_of_ok {f : σ → Except Fault α} {s : σ} {a : α} (h : f s = .ok a) :
    ask f s = .ok a s := by
  simp only [ask, h]

theorem ask_of_error {f : σ → Except Fault α} {s : σ} {e : Fault} (h : f s = .error e) :
    ask f s = .error e s := by
  simp only [ask, h]

/-- A sequence succeeds if both parts do, one after the other. -/
theorem run_bind_eq_ok {act : Edit σ α} {k : α → Edit σ β} {s s' : σ} {b : β} :
    (act >>= k) s = .ok b s' ↔ ∃ a s₁, act s = .ok a s₁ ∧ k a s₁ = .ok b s' := by
  constructor
  · intro h
    rw [bind_apply] at h
    cases hr : act s with
    | ok a s₁ =>
      rw [hr] at h
      exact ⟨a, s₁, rfl, h⟩
    | error e s₁ =>
      rw [hr] at h
      cases h
  · rintro ⟨a, s₁, ha, hk⟩
    rw [bind_of_ok ha, hk]

/-- A sequence fails where the first part does, or after it where the second one does. -/
theorem run_bind_eq_error {act : Edit σ α} {k : α → Edit σ β} {s s' : σ} {e : Fault} :
    (act >>= k) s = .error e s' ↔
      act s = .error e s' ∨ ∃ a s₁, act s = .ok a s₁ ∧ k a s₁ = .error e s' := by
  rw [bind_apply]
  cases act s <;> simp [and_assoc]

theorem run_map_eq_error {f : α → β} {act : Edit σ α} {s s' : σ} {e : Fault} :
    (f <$> act) s = .error e s' ↔ act s = .error e s' := by
  rw [map_eq_pure_bind, run_bind_eq_error]
  simp [pure, EStateM.pure]

theorem run_map_eq_ok {f : α → β} {act : Edit σ α} {s s' : σ} {b : β} :
    (f <$> act) s = .ok b s' ↔ ∃ a, act s = .ok a s' ∧ b = f a := by
  rw [map_eq_pure_bind, run_bind_eq_ok]
  constructor
  · rintro ⟨a, s₁, ha, hpure⟩
    cases hpure
    exact ⟨a, ha, rfl⟩
  · rintro ⟨a, ha, rfl⟩
    exact ⟨a, s', ha, rfl⟩

theorem run_atomically_eq_ok {f : σ → Except Fault σ} {s s' : σ} {u : Unit} :
    atomically f s = .ok u s' ↔ f s = .ok s' := by
  simp only [atomically]
  cases f s <;> simp

theorem run_atomically_eq_error {f : σ → Except Fault σ} {s s' : σ} {e : Fault} :
    atomically f s = .error e s' ↔ f s = .error e ∧ s' = s := by
  simp only [atomically]
  cases f s <;> simp [eq_comm]

/-- A loop goes through if its step does so at every count, and leaves what the step maintains. -/
theorem mapM_of_steps {P : Nat → σ → Prop} {f : Edit σ α}
    (hstep : ∀ k s, P (k + 1) s → ∃ a s', f s = .ok a s' ∧ P k s') (l : List β) {s : σ}
    (h : P l.length s) : ∃ as s', l.mapM (fun _ => f) s = .ok as s' ∧ P 0 s' := by
  induction l generalizing s with
  | nil => exact ⟨[], s, rfl, h⟩
  | cons b rest ih =>
    rcases hstep rest.length s h with ⟨a, s₁, hf, h₁⟩
    rcases ih h₁ with ⟨as, s', hloop, h'⟩
    refine ⟨a :: as, s', ?_, h'⟩
    rw [List.mapM_cons, bind_of_ok hf, bind_of_ok hloop]
    rfl

/-! ## All or nothing -/

/-- A question before a change that is made as a whole belongs to the change. -/
theorem ask_bind_atomically (q : σ → Except Fault α) (f : α → σ → Except Fault σ) :
    (ask q >>= fun a => atomically (f a)) = atomically fun s => q s >>= fun a => f a s := by
  funext s
  cases hq : q s with
  | ok a =>
    rw [bind_of_ok (ask_of_ok hq)]
    simp only [atomically, hq, bind, Except.bind]
  | error e =>
    rw [bind_of_error (ask_of_error hq)]
    simp only [atomically, hq, bind, Except.bind]

/-! ## Keeping a property -/

/-- The edit leads from states with `P` to states with `P`, also where it fails. -/
def Keeps (P : σ → Prop) (act : Edit σ α) : Prop := ∀ s, P s → P (finalState (act s))

variable {P : σ → Prop}

theorem keeps_pure (a : α) : Keeps P (pure a : Edit σ α) := fun _ h => h

theorem keeps_ask (f : σ → Except Fault α) : Keeps P (ask f) := by
  intro s h
  rw [finalState_ask]
  exact h

theorem keeps_atomically {f : σ → Except Fault σ} (hf : ∀ s s', P s → f s = .ok s' → P s') :
    Keeps P (atomically f) := by
  intro s h
  cases hs : f s with
  | ok s' =>
    rw [atomically_of_ok hs]
    exact hf s s' h hs
  | error e =>
    rw [atomically_of_error hs]
    exact h

theorem keeps_bind {act : Edit σ α} {k : α → Edit σ β} (h : Keeps P act)
    (hk : ∀ a, Keeps P (k a)) : Keeps P (act >>= k) := by
  intro s hs
  have hact := h s hs
  rw [bind_apply]
  cases hr : act s with
  | ok a s' =>
    rw [hr] at hact
    exact hk a s' hact
  | error e s' =>
    rw [hr] at hact
    exact hact

/-- An edit that starts by looking at the state may use what it sees. -/
theorem keeps_get_bind {k : σ → Edit σ α} (hk : ∀ s, P s → P (finalState (k s s))) :
    Keeps P (get >>= k) := fun s hs => hk s hs

theorem keeps_map {f : α → β} {act : Edit σ α} (h : Keeps P act) : Keeps P (f <$> act) := by
  intro s hs
  rw [finalState_map]
  exact h s hs

/-- A loop keeps what its body keeps of each element. -/
theorem keeps_mapM_mem {f : α → Edit σ β} (l : List α) (hf : ∀ a ∈ l, Keeps P (f a)) :
    Keeps P (l.mapM f) := by
  induction l with
  | nil => exact keeps_pure []
  | cons a rest ih =>
    rw [List.forall_mem_cons] at hf
    rw [List.mapM_cons]
    exact keeps_bind hf.1 fun b => keeps_bind (ih hf.2) fun bs => keeps_pure (b :: bs)

theorem keeps_mapM {f : α → Edit σ β} (l : List α) (hf : ∀ a, Keeps P (f a)) :
    Keeps P (l.mapM f) :=
  keeps_mapM_mem l fun a _ => hf a

end Edit

end SsaForm
