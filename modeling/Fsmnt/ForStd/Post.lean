import Fsmnt.ForStd.EStateM

/-!
# Postconditions of stateful computations

`EStateM.Post x s Q E` says how `x` ends when it starts in `s`: with `Q` of the result and the
state when it succeeds, and with `E` of the error and the state when it fails. A failing
computation leaves a state behind as well, and the next call starts from it, so both conditions
speak about the state.
-/

universe u

namespace EStateM

variable {ε σ τ α β : Type u} {s : σ}

/-- How `x` ends when it starts in `s`. -/
def Post (x : EStateM ε σ α) (s : σ) (Q : α → σ → Prop) (E : ε → σ → Prop) : Prop :=
  match x s with
  | .ok a t => Q a t
  | .error e t => E e t

variable {x : EStateM ε σ α} {f : α → EStateM ε σ β} {Q Q' : α → σ → Prop} {R : β → σ → Prop}
  {E E' : ε → σ → Prop} {a : α} {t : σ}

/-- Weaker conditions. -/
theorem Post.mono (h : Post x s Q E) (hQ : ∀ a t, Q a t → Q' a t) (hE : ∀ e t, E e t → E' e t) :
    Post x s Q' E' := by
  unfold Post at h ⊢
  cases hx : x s with
  | ok a t =>
    rw [hx] at h
    exact hQ a t h
  | error e t =>
    rw [hx] at h
    exact hE e t h

/-- A weaker condition on success. -/
theorem Post.imp (h : Post x s Q E) (hQ : ∀ a t, Q a t → Q' a t) : Post x s Q' E :=
  h.mono hQ fun _ _ he => he

/-- Two conditions at once. -/
theorem Post.and (h : Post x s Q E) (h' : Post x s Q' E') :
    Post x s (fun a t => Q a t ∧ Q' a t) (fun e t => E e t ∧ E' e t) := by
  unfold Post at h h' ⊢
  cases hx : x s with
  | ok a t | error e t =>
    rw [hx] at h h'
    exact ⟨h, h'⟩

/-- What also holds when a condition does, under which there is no failure. -/
theorem Post.and_of_imp {C : Prop} (h : Post x s Q E) (h' : C → Post x s Q' (fun _ _ => False)) :
    Post x s (fun a t => Q a t ∧ (C → Q' a t)) (fun e t => E e t ∧ ¬ C) := by
  by_cases hC : C
  · exact (h.and (h' hC)).mono (fun _ _ hok => ⟨hok.1, fun _ => hok.2⟩) fun _ _ hfail =>
      hfail.2.elim
  · exact h.mono (fun _ _ hok => ⟨hok, fun hyes => absurd hyes hC⟩) fun _ _ hfail => ⟨hfail, hC⟩

/-- What a successful run ends with. -/
theorem Post.of_ok (h : Post x s Q E) (hx : x s = .ok a t) : Q a t := by
  unfold Post at h
  rwa [hx] at h

/-- A computation that cannot fail has a result. -/
theorem Post.exists_ok (h : Post x s Q (fun _ _ => False)) : ∃ a t, x s = .ok a t ∧ Q a t := by
  unfold Post at h
  cases hx : x s with
  | ok a t =>
    rw [hx] at h
    exact ⟨a, t, rfl, h⟩
  | error e t =>
    rw [hx] at h
    exact h.elim

/-- A property of the state that holds whichever way `x` ends. -/
theorem Post.state {I : σ → Prop} (h : Post x s (fun _ t => I t) (fun _ t => I t)) :
    I (x s).state := by
  unfold Post at h
  cases hx : x s with
  | ok a t | error e t =>
    rw [hx] at h
    exact h

/-! ### One rule for each way to build a computation -/

/-- The second part starts where the first one succeeds. -/
@[simp] theorem post_bind : Post (x >>= f) s R E ↔ Post x s (fun a t => Post (f a) t R E) E := by
  show (match EStateM.bind x f s with | .ok b t => R b t | .error e t => E e t) ↔ _
  unfold EStateM.bind Post
  cases x s with
  | ok a t | error e t => exact Iff.rfl

@[simp] theorem post_pure : Post (pure a) s Q E ↔ Q a s := Iff.rfl

@[simp] theorem post_throw {e : ε} : Post (throw e) s Q E ↔ E e s := Iff.rfl

@[simp] theorem post_get {Q : σ → σ → Prop} : Post get s Q E ↔ Q s s := Iff.rfl

@[simp] theorem post_set {Q : PUnit → σ → Prop} : Post (set t) s Q E ↔ Q ⟨⟩ t := Iff.rfl

@[simp] theorem post_modify {g : σ → σ} {Q : PUnit → σ → Prop} :
    Post (modify g) s Q E ↔ Q ⟨⟩ (g s) := Iff.rfl

/-- A failure is a result. -/
@[simp] theorem post_attempt {Q : Except ε α → σ → Prop} :
    Post (attempt x) s Q E ↔ Post x s (fun a => Q (.ok a)) (fun e => Q (.error e)) := by
  unfold Post attempt
  cases x s with
  | ok a t | error e t => exact Iff.rfl

/-- The conditions speak about the whole state. -/
@[simp] theorem post_zoom {view : σ → τ} {update : τ → σ → σ} {y : EStateM ε τ α} :
    Post (zoom view update y) s Q E ↔
      Post y (view s) (fun a t => Q a (update t s)) (fun e t => E e (update t s)) := by
  unfold Post zoom
  cases y (view s) with
  | ok a t | error e t => exact Iff.rfl

/-- The error is mapped. -/
@[simp] theorem post_adaptExcept {ε' : Type u} {g : ε → ε'} {E : ε' → σ → Prop} :
    Post (adaptExcept g x) s Q E ↔ Post x s Q (fun e => E (g e)) := by
  unfold Post adaptExcept
  cases x s with
  | ok a t | error e t => exact Iff.rfl

/-- Both branches, each under its condition. -/
theorem post_ite {c : Prop} [Decidable c] {y : EStateM ε σ α} :
    Post (if c then x else y) s Q E ↔ (c → Post x s Q E) ∧ (¬ c → Post y s Q E) := by
  by_cases h : c
  · simp [h]
  · simp [h]

end EStateM
