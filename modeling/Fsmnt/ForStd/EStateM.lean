import Fsmnt.ForStd.Except

/-!
# Stateful computations that keep to a relation

`EStateM.Keeps R x` says that `x`, whether it succeeds or fails, leads from every state to one
that is related by `R`. For a reflexive and transitive `R` this is closed under sequencing, so
that a long computation keeps to `R` as soon as its primitive operations do.
-/

universe u

namespace EStateM

variable {ε σ τ α β : Type u} {x : EStateM ε σ α} {s t : σ} {a : α}

/-- The state after a computation. -/
def Result.state : Result ε σ α → σ
  | .ok _ s => s
  | .error _ s => s

/-! ### Running a computation -/

section Run

variable {f : α → EStateM ε σ β}

/-- The state is read. -/
theorem get_bind_run (f : σ → EStateM ε σ β) : (get >>= f) s = f s s := rfl

/-- The state is changed before the rest runs. -/
theorem modify_bind_run (g : σ → σ) (f : PUnit → EStateM ε σ β) :
    (modify g >>= f) s = f ⟨⟩ (g s) := rfl

/-- A success hands its value and its state on. -/
theorem bind_run_ok (h : x s = .ok a t) : (x >>= f) s = f a t := by
  show EStateM.bind x f s = _
  simp only [EStateM.bind, h]

/-- A failure ends the sequence. -/
theorem bind_run_error {e : ε} (h : x s = .error e t) : (x >>= f) s = .error e t := by
  show EStateM.bind x f s = _
  simp only [EStateM.bind, h]

end Run

/-! ### Failures as values -/

/-- A computation whose failure is handed to the caller. -/
def attempt (x : EStateM ε σ α) : EStateM ε σ (Except ε α) := fun s =>
  match x s with
  | .ok a t => .ok (.ok a) t
  | .error e t => .ok (.error e) t

/-- A success is a value. -/
theorem attempt_of_ok (h : x s = .ok a t) : attempt x s = .ok (.ok a) t := by
  simp only [attempt, h]

/-- A failure becomes a value. -/
theorem attempt_of_error {e : ε} (h : x s = .error e t) : attempt x s = .ok (.error e) t := by
  simp only [attempt, h]

/-! ### A part of the state -/

/-- A computation on a part of the state. -/
def zoom (view : σ → τ) (update : τ → σ → σ) (x : EStateM ε τ α) : EStateM ε σ α := fun s =>
  match x (view s) with
  | .ok a t => .ok a (update t s)
  | .error e t => .error e (update t s)

/-! ### Steps -/

/-- A reflexive and transitive relation between states. -/
structure StepRel (R : σ → σ → Prop) : Prop where
  refl : ∀ s, R s s
  trans : ∀ {s t u}, R s t → R t u → R s u

/-- Every run of `x` is a step of `R`. -/
def Keeps (R : σ → σ → Prop) (x : EStateM ε σ α) : Prop := ∀ s, R s (x s).state

section Keeps

variable {R : σ → σ → Prop}

section

variable (h : StepRel R) {f : α → EStateM ε σ β}

include h

/-- A value is a step to the same state. -/
theorem StepRel.pure (a : α) : Keeps R (pure a : EStateM ε σ α) := h.refl

/-- So is a failure, -/
theorem StepRel.throw (e : ε) : Keeps R (throw e : EStateM ε σ α) := h.refl

/-- and so is reading the state. -/
theorem StepRel.get : Keeps R (get : EStateM ε σ σ) := h.refl

/-- One run of a sequence, where the second part may use how the first one ended. -/
theorem StepRel.bind_run {s : σ} (hx : Keeps R x) (hf : ∀ a t, x s = .ok a t → R t (f a t).state) :
    R s ((x >>= f) s).state := by
  have hs := hx s
  show R s (EStateM.bind x f s).state
  unfold EStateM.bind
  cases hrun : x s with
  | ok a t =>
    rw [hrun] at hs
    exact h.trans hs (hf a t hrun)
  | error e t =>
    rw [hrun] at hs
    exact hs

/-- Two steps are one. -/
theorem StepRel.bind (hx : Keeps R x) (hf : ∀ a, Keeps R (f a)) : Keeps R (x >>= f) :=
  fun _ => h.bind_run hx fun a t _ => hf a t

omit h in
/-- What follows may depend on the state that was read. -/
theorem Keeps.get_bind {f : σ → EStateM ε σ β} (hf : ∀ s, Keeps R (f s)) :
    Keeps R (MonadState.get >>= f) := fun s => hf s s

/-- The value of a step is mapped. -/
theorem StepRel.bind_pure {g : α → β} (hx : Keeps R x) :
    Keeps R (x >>= fun a => Pure.pure (g a)) := h.bind hx fun _ => h.pure _

end

/-- A change of the state is the step that it makes. -/
theorem Keeps.modify {f : σ → σ} (hf : ∀ s, R s (f s)) :
    Keeps R (modify f : EStateM ε σ PUnit) := hf

/-- The states before and after a successful run are related. -/
theorem Keeps.of_ok (hx : Keeps R x) (h : x s = .ok a t) : R s t := by
  have hs := hx s
  rwa [h] at hs

end Keeps

/-! ### Invariants -/

/-- Every successful run of `x` from a state with `I` ends in one. -/
def Preserves (I : σ → Prop) (x : EStateM ε σ α) : Prop := ∀ s a t, I s → x s = .ok a t → I t

namespace Preserves

variable {I : σ → Prop}

/-- A value leaves the state alone. -/
theorem pure (a : α) : Preserves I (pure a : EStateM ε σ α) := by
  rintro s b t hs ⟨⟩
  exact hs

/-- A failure has no state to speak of. -/
theorem throw (e : ε) : Preserves I (throw e : EStateM ε σ α) := by
  rintro s b t _ ⟨⟩

/-- Reading leaves the state alone. -/
theorem get : Preserves I (get : EStateM ε σ σ) := by
  rintro s b t hs ⟨⟩
  exact hs

/-- The change keeps the invariant. -/
theorem modify {f : σ → σ} (hf : ∀ s, I s → I (f s)) :
    Preserves I (modify f : EStateM ε σ PUnit) := by
  rintro s b t hs ⟨⟩
  exact hf s hs

/-- Both parts keep the invariant. -/
theorem bind {f : α → EStateM ε σ β} (hx : Preserves I x) (hf : ∀ a, Preserves I (f a)) :
    Preserves I (x >>= f) := by
  intro s b u hs h
  obtain ⟨a, t, hxs, hft⟩ := bind_eq_ok_iff.mp h
  exact hf a t b u (hx s a t hs hxs) hft

/-- What follows a `get` may use the state that was read. -/
theorem get_bind {f : σ → EStateM ε σ β} (hf : ∀ s a t, I s → f s s = .ok a t → I t) :
    Preserves I (MonadState.get >>= f) := fun s a t hs h => hf s a t hs h

end Preserves

/-! ### Properties of both kinds -/

/-- A property of computations that sequencing keeps. -/
structure Closed (K : ∀ {α : Type u}, EStateM ε σ α → Prop) : Prop where
  pure : ∀ {α : Type u} (a : α), K (pure a : EStateM ε σ α)
  throw : ∀ {α : Type u} (e : ε), K (throw e : EStateM ε σ α)
  bind : ∀ {α β : Type u} {x : EStateM ε σ α} {f : α → EStateM ε σ β}, K x → (∀ a, K (f a)) →
    K (x >>= f)

/-- Keeping to a relation is such a property, -/
theorem StepRel.closed {R : σ → σ → Prop} (h : StepRel R) :
    Closed fun {α} (x : EStateM ε σ α) => Keeps R x := ⟨h.pure, h.throw, h.bind⟩

/-- and so is keeping an invariant. -/
theorem Preserves.closed {I : σ → Prop} : Closed fun {α} (x : EStateM ε σ α) => Preserves I x :=
  ⟨.pure, .throw, .bind⟩

end EStateM
