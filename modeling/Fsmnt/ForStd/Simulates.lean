import Fsmnt.ForStd.Fuel

/-!
# Computations that do the same on related states

`EStateM.Simulates R x y` says that `x` and `y`, from related states, end in the same way and in
related states again. It is closed under every way to build a computation, so that code over one
kind of state can be replaced by the same code over a simpler one as soon as the primitive accesses
do the same.
-/

namespace EStateM

open EStateM

variable {ε σ τ σ' τ' α β : Type} {R : σ → τ → Prop}

/-- The results are the same, and the states after them are related. -/
def SameEnd (R : σ → τ → Prop) : Result ε σ α → Result ε τ α → Prop
  | .ok a s, .ok b t => a = b ∧ R s t
  | .error e s, .error e' t => e = e' ∧ R s t
  | _, _ => False

/-- From related states `x` and `y` end in the same way. -/
def Simulates (R : σ → τ → Prop) (x : EStateM ε σ α) (y : EStateM ε τ α) : Prop :=
  ∀ s t, R s t → SameEnd R (x s) (y t)

/-- How a computation ends, without the state. -/
def outcome (x : EStateM ε σ α) (s : σ) : Except ε α :=
  match x s with
  | .ok a _ => .ok a
  | .error e _ => .error e

/-- Both succeed, or both fail. -/
theorem SameEnd.cases {r : Result ε σ α} {r' : Result ε τ α} (h : SameEnd R r r') :
    (∃ a s t, r = .ok a s ∧ r' = .ok a t ∧ R s t) ∨
      ∃ e s t, r = .error e s ∧ r' = .error e t ∧ R s t := by
  cases r with
  | ok a s =>
    cases r' with
    | ok b t =>
      obtain ⟨rfl, hst⟩ := h
      exact .inl ⟨a, s, t, rfl, rfl, hst⟩
    | error e t => exact h.elim
  | error e s =>
    cases r' with
    | ok b t => exact h.elim
    | error e' t =>
      obtain ⟨rfl, hst⟩ := h
      exact .inr ⟨e, s, t, rfl, rfl, hst⟩

namespace Simulates

variable {x : EStateM ε σ α} {y : EStateM ε τ α}

/-- Related states have one outcome. -/
theorem outcome_eq (h : Simulates R x y) {s : σ} {t : τ} (hst : R s t) :
    outcome x s = outcome y t := by
  unfold outcome
  obtain ⟨a, s', t', hx, hy, -⟩ | ⟨e, s', t', hx, hy, -⟩ := (h s t hst).cases
  · rw [hx, hy]
  · rw [hx, hy]

/-- Simulation as a condition on the first computation. -/
theorem of_post (h : ∀ s t, R s t → Post x s (fun a s' => ∃ t', y t = .ok a t' ∧ R s' t')
    (fun e s' => ∃ t', y t = .error e t' ∧ R s' t')) : Simulates R x y := by
  intro s t hst
  have hpost := h s t hst
  unfold Post at hpost
  cases hxs : x s with
  | ok a s' | error e s' =>
    rw [hxs] at hpost
    obtain ⟨t', hyt, hst'⟩ := hpost
    rw [hyt]
    exact ⟨rfl, hst'⟩

theorem pure (a : α) : Simulates R (pure a : EStateM ε σ α) (pure a : EStateM ε τ α) :=
  fun _ _ hst => ⟨rfl, hst⟩

theorem throw (e : ε) : Simulates R (throw e : EStateM ε σ α) (throw e : EStateM ε τ α) :=
  fun _ _ hst => ⟨rfl, hst⟩

/-- Changes that keep the states related. -/
theorem modify {f : σ → σ} {g : τ → τ} (h : ∀ s t, R s t → R (f s) (g t)) :
    Simulates R (modify f : EStateM ε σ PUnit) (modify g : EStateM ε τ PUnit) :=
  fun s t hst => ⟨rfl, h s t hst⟩

/-- A check does the same on both sides. -/
theorem lift (r : Except ε α) :
    Simulates R (liftExcept r : EStateM (Stop ε) σ α) (liftExcept r : EStateM (Stop ε) τ α) := by
  cases r with
  | ok a => exact pure a
  | error e => exact throw _

/-- One after the other. -/
theorem bind {f : α → EStateM ε σ β} {g : α → EStateM ε τ β} (hx : Simulates R x y)
    (hf : ∀ a, Simulates R (f a) (g a)) : Simulates R (x >>= f) (y >>= g) := by
  intro s t hst
  obtain ⟨a, s', t', hxs, hyt, hst'⟩ | ⟨e, s', t', hxs, hyt, hst'⟩ := (hx s t hst).cases
  · rw [bind_run_ok hxs, bind_run_ok hyt]
    exact hf a s' t' hst'
  · rw [bind_run_error hxs, bind_run_error hyt]
    exact ⟨rfl, hst'⟩

/-- What follows a `get` may use how the states are related. -/
theorem get_bind {f : σ → EStateM ε σ β} {g : τ → EStateM ε τ β}
    (h : ∀ s t, R s t → Simulates R (f s) (g t)) : Simulates R (get >>= f) (get >>= g) :=
  fun s t hst => h s t hst s t hst

/-- The same choice on both sides. -/
theorem ite {c : Prop} [Decidable c] {x' : EStateM ε σ α} {y' : EStateM ε τ α}
    (hx : Simulates R x y) (hx' : Simulates R x' y') :
    Simulates R (if c then x else x') (if c then y else y') := by
  split
  · exact hx
  · exact hx'

/-- Failures as values. -/
theorem attempt (h : Simulates R x y) : Simulates R (attempt x) (attempt y) := by
  intro s t hst
  obtain ⟨a, s', t', hxs, hyt, hst'⟩ | ⟨e, s', t', hxs, hyt, hst'⟩ := (h s t hst).cases
  · rw [attempt_of_ok hxs, attempt_of_ok hyt]
    exact ⟨rfl, hst'⟩
  · rw [attempt_of_error hxs, attempt_of_error hyt]
    exact ⟨rfl, hst'⟩

/-- Failures beside running out of fuel. -/
theorem liftFailure (h : Simulates R x y) : Simulates R (liftFailure x) (liftFailure y) := by
  intro s t hst
  unfold EStateM.liftFailure
  obtain ⟨a, s', t', hxs, hyt, hst'⟩ | ⟨e, s', t', hxs, hyt, hst'⟩ := (h s t hst).cases
  · rw [hxs, hyt]
    exact ⟨rfl, hst'⟩
  · rw [hxs, hyt]
    exact ⟨rfl, hst'⟩

/-- Parts of the states that are related. -/
theorem zoom {S : σ' → τ' → Prop} {view : σ' → σ} {update : σ → σ' → σ'} {view' : τ' → τ}
    {update' : τ → τ' → τ'} (h : Simulates R x y) (hview : ∀ s t, S s t → R (view s) (view' t))
    (hupdate : ∀ s t u v, S s t → R u v → S (update u s) (update' v t)) :
    Simulates S (zoom view update x) (zoom view' update' y) := by
  intro s t hst
  unfold EStateM.zoom
  obtain ⟨a, u, v, hxs, hyt, huv⟩ | ⟨e, u, v, hxs, hyt, huv⟩ := (h _ _ (hview s t hst)).cases
  · rw [hxs, hyt]
    exact ⟨rfl, hupdate s t u v hst huv⟩
  · rw [hxs, hyt]
    exact ⟨rfl, hupdate s t u v hst huv⟩

/-- Loops with the same body. -/
theorem loop {body : α → EStateM (Stop ε) σ (α ⊕ β)} {body' : α → EStateM (Stop ε) τ (α ⊕ β)}
    (h : ∀ a, Simulates R (body a) (body' a)) (fuel : Nat) :
    ∀ a, Simulates R (loop body fuel a) (loop body' fuel a) := by
  induction fuel with
  | zero => exact fun _ => throw _
  | succ fuel ih =>
    intro a
    apply (h a).bind
    intro next
    cases next with
    | inl next => exact ih next
    | inr b => exact pure b

end Simulates

end EStateM
