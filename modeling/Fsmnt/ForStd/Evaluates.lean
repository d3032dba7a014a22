import Fsmnt.ForStd.Simulates

/-!
# Computations that only read

`EStateM.Evaluates D x r` says that `x` comes to `r` from every state in `D`, and leaves a state in
`D`. Code that is written for any monad with exceptions has its meaning in `Except`, and on a state
that it only reads it evaluates to that meaning as soon as the primitive reads do.
-/

@[simp] theorem Except.ofExcept_eq {ε α : Type} (r : Except ε α) : MonadExcept.ofExcept r = r := by
  cases r with
  | ok a | error e => rfl

namespace EStateM

variable {ε σ α β : Type} {D : σ → Prop}

/-- From every state in `D` the computation comes to `r`. -/
def Evaluates (D : σ → Prop) (x : EStateM ε σ α) (r : Except ε α) : Prop :=
  ∀ s, D s → Post x s (fun a t => D t ∧ r = .ok a) (fun e t => D t ∧ r = .error e)

namespace Evaluates

variable {x : EStateM ε σ α} {r : Except ε α}

/-- The computation succeeds with the value of its meaning. -/
theorem exists_ok_iff (h : Evaluates D x r) {s : σ} (hs : D s) {a : α} :
    (∃ t, x s = .ok a t) ↔ r = .ok a := by
  have hpost := h s hs
  unfold Post at hpost
  cases hx : x s with
  | ok b t =>
    rw [hx] at hpost
    rw [hpost.2]
    constructor
    · rintro ⟨t', hok⟩
      cases hok
      rfl
    · intro hok
      cases hok
      exact ⟨t, rfl⟩
  | error e t =>
    rw [hx] at hpost
    rw [hpost.2]
    constructor
    · rintro ⟨t', hok⟩
      cases hok
    · exact nofun

/-- A value. -/
theorem pure (a : α) : Evaluates D (pure a : EStateM ε σ α) (.ok a) := fun _ hs => ⟨hs, rfl⟩

/-- A failure. -/
theorem throw (e : ε) : Evaluates D (throw e : EStateM ε σ α) (.error e) := fun _ hs => ⟨hs, rfl⟩

/-- A check reads nothing. -/
theorem ofExcept (r : Except ε α) :
    Evaluates D (MonadExcept.ofExcept r : EStateM ε σ α) (MonadExcept.ofExcept r) := by
  cases r with
  | ok a => exact pure a
  | error e => exact throw e

/-- One after the other. -/
theorem bind {f : α → EStateM ε σ β} {g : α → Except ε β} (hx : Evaluates D x r)
    (hf : ∀ a, Evaluates D (f a) (g a)) : Evaluates D (x >>= f) (r >>= g) := by
  intro s hs
  rw [post_bind]
  apply (hx s hs).mono
  · rintro a t ⟨ht, rfl⟩
    exact hf a t ht
  · rintro e t ⟨ht, rfl⟩
    exact ⟨ht, rfl⟩

/-- A choice that does not depend on the state. -/
theorem ite {c : Prop} [Decidable c] {x' : EStateM ε σ α} {r' : Except ε α} (hx : Evaluates D x r)
    (hx' : Evaluates D x' r') : Evaluates D (if c then x else x') (if c then r else r') := by
  split
  · exact hx
  · exact hx'

end Evaluates

end EStateM
