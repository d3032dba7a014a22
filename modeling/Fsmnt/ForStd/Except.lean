import Mathlib.Init

/-!
# Inversion of fallible computations

A computation in `Except` or `EStateM` that succeeds has succeeded at every step. Proofs peel
the steps off with the `…_eq_ok` lemmas instead of unfolding the monad.
-/

universe u v

namespace Except

variable {ε ε' : Type v} {α β : Type u} {x : Except ε α} {f : α → Except ε β}

@[simp] theorem ok_bind (a : α) (f : α → Except ε β) : (Except.ok a >>= f) = f a := rfl

@[simp] theorem error_bind (e : ε) (f : α → Except ε β) : (Except.error e >>= f) = .error e := rfl

@[simp] theorem pure_eq_ok (a : α) : (pure a : Except ε α) = .ok a := rfl

@[simp] theorem throw_eq_error (e : ε) : (throw e : Except ε α) = .error e := rfl

@[simp] theorem bind_eq_ok_iff {b : β} :
    (x >>= f) = .ok b ↔ ∃ a, x = .ok a ∧ f a = .ok b := by
  cases x with
  | error e | ok a => simp

/-- Only a failure is mapped. -/
@[simp] theorem mapError_eq_ok_iff {f : ε → ε'} {a : α} :
    x.mapError f = .ok a ↔ x = .ok a := by
  cases x with
  | error e | ok b => constructor <;> intro h <;> cases h <;> rfl

@[simp] theorem map_eq_ok_iff {f : α → β} {b : β} :
    x.map f = .ok b ↔ ∃ a, x = .ok a ∧ f a = b := by
  cases x with
  | error e | ok a => simp [Except.map]

/-- The option forgets the failure only. -/
@[simp] theorem toOption_eq_some_iff {a : α} :
    x.toOption = some a ↔ x = .ok a := by
  cases x with
  | error e | ok a => simp [Except.toOption]

/-! What a computation that is evaluated ends with can be decided. -/

instance decidableExistsOkAnd {x : Except ε α} {p : α → Prop} [DecidablePred p] :
    Decidable (∃ a, x = .ok a ∧ p a) :=
  match x with
  | .ok a => decidable_of_iff (p a) (by simp)
  | .error _ => isFalse (by simp)

instance decidableExistsOk {x : Except ε α} : Decidable (∃ a, x = .ok a) :=
  match x with
  | .ok a => isTrue ⟨a, rfl⟩
  | .error _ => isFalse (by simp)

instance decidableEqError [DecidableEq ε] {x : Except ε α} {e : ε} : Decidable (x = .error e) :=
  match x with
  | .ok _ => isFalse (by simp)
  | .error e' => decidable_of_iff (e' = e) (by simp)

instance decidableExistsError {x : Except ε α} : Decidable (∃ e, x = .error e) :=
  match x with
  | .ok _ => isFalse (by simp)
  | .error e => isTrue ⟨e, rfl⟩

end Except

namespace EStateM

variable {ε σ α β : Type u} {s s' : σ}

@[simp] theorem bind_eq_ok_iff {x : EStateM ε σ α} {f : α → EStateM ε σ β} {b : β} :
    (x >>= f) s = .ok b s' ↔ ∃ a t, x s = .ok a t ∧ f a t = .ok b s' := by
  show EStateM.bind x f s = _ ↔ _
  unfold EStateM.bind
  cases hx : x s with
  | error e t => simp
  | ok a t =>
    simp only [Result.ok.injEq]
    constructor
    · intro h
      exact ⟨a, t, ⟨rfl, rfl⟩, h⟩
    · rintro ⟨_, _, ⟨rfl, rfl⟩, h⟩
      exact h

@[simp] theorem pure_eq_ok_iff {a b : α} :
    (pure a : EStateM ε σ α) s = .ok b s' ↔ a = b ∧ s = s' := by
  show EStateM.Result.ok a s = _ ↔ _
  simp

/-- A change of the state always succeeds. -/
@[simp] theorem modify_eq_ok_iff {f : σ → σ} {u : PUnit} :
    (modify f : EStateM ε σ PUnit) s = .ok u s' ↔ f s = s' := by
  show EStateM.Result.ok PUnit.unit (f s) = _ ↔ _
  simp

/-- A failure is no success. -/
@[simp] theorem throw_ne_ok {e : ε} {a : α} : ¬ (throw e : EStateM ε σ α) s = .ok a s' := by
  show ¬ EStateM.Result.error e s = _
  simp

end EStateM
