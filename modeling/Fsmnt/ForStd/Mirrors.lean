import Fsmnt.ForStd.ReadContent

/-!
# Computations on a reader and on its image

A computation over a reader that may fail mirrors the same computation over the image when its
results are those of the image. It is closed under sequencing, so that a computation mirrors as soon
as its accesses do.
-/

namespace EStateM

variable {ε σ τ α β : Type} {D : σ → Prop} {total : Prop} {y : EStateM ε τ α} {x : EStateM ε σ α}

/-- The results of `x` from the states with `D`, which are not left, are those of `y` from any
    state; with `total` the failures of `x` are failures of `y` as well. -/
def Mirrors (D : σ → Prop) (total : Prop) (x : EStateM ε σ α) (y : EStateM ε τ α) : Prop :=
  ∀ s p, D s → Post x s (fun a t => D t ∧ ∃ q, y p = .ok a q)
    (fun _ t => D t ∧ (total → ∃ e q, y p = .error e q))

theorem Mirrors.pure (a : α) : Mirrors D total (pure a : EStateM ε σ α) (pure a : EStateM ε τ α) :=
  fun _ p hs => ⟨hs, p, rfl⟩

theorem Mirrors.throw (e : ε) :
    Mirrors D total (throw e : EStateM ε σ α) (throw e : EStateM ε τ α) :=
  fun _ p hs => ⟨hs, fun _ => ⟨e, p, rfl⟩⟩

/-- Mirroring is kept in sequence. -/
theorem Mirrors.bind {f : α → EStateM ε σ β} {g : α → EStateM ε τ β} (hx : Mirrors D total x y)
    (hf : ∀ a, Mirrors D total (f a) (g a)) :
    Mirrors D total (x >>= f) (y >>= g) := by
  intro s p hs
  rw [post_bind]
  apply (hx s p hs).mono
  · rintro a t ⟨ht, q, hq⟩
    -- `y` has reached `q`, and what follows is run from there
    rw [bind_run_ok hq]
    exact hf a t q ht
  rintro e t ⟨ht, hfail⟩
  refine ⟨ht, fun htotal => ?_⟩
  obtain ⟨e', q, hq⟩ := hfail htotal
  exact ⟨e', q, bind_run_error hq⟩

/-- The result of a computation, if it succeeds. -/
def result? (y : EStateM ε τ α) (p : τ) : Option α :=
  match y p with
  | .ok a _ => some a
  | .error _ _ => none

theorem result?_eq_some_iff {p : τ} {a : α} :
    result? y p = some a ↔ ∃ q, y p = .ok a q := by
  unfold result?
  cases y p with
  | ok b q | error e q => simp

/-- What is computed is what the mirror computes. -/
theorem Mirrors.post (h : Mirrors D total x y) {s : σ} (hs : D s) (p : τ) :
    Post x s (fun a t => D t ∧ result? y p = some a)
      (fun _ t => D t ∧ (total → result? y p = none)) := by
  apply (h s p hs).mono
  · rintro a t ⟨ht, q, hq⟩
    exact ⟨ht, by rw [result?, hq]⟩
  rintro e t ⟨ht, hfail⟩
  refine ⟨ht, fun htotal => ?_⟩
  obtain ⟨e', q, hq⟩ := hfail htotal
  rw [result?, hq]

end EStateM

open EStateM in
/-- Reading at a place mirrors the image; where the reader serves the image, failures do too. -/
theorem BlockReader.Provides.mirrors {ε σ : Type} {reader : BlockReader ε σ} {image : ByteImage}
    {pos : σ → Nat} {D : σ → Prop} {total : Prop} (h : reader.Provides image pos D total) (eof : ε)
    (position n : Nat) :
    Mirrors D total (reader.seek (.start position) >>= fun _ => reader.readExact n)
      ((image.reader eof).seek (.start position) >>= fun _ => (image.reader eof).readExact n) := by
  intro s p hs
  have himage : ((image.reader eof).seek (.start position) >>=
      fun _ => (image.reader eof).readExact n) p = (image.reader eof).readExact n position :=
    bind_run_ok rfl
  rw [himage]
  apply (h.post_readAt hs position n).mono
  · rintro bs t ⟨ht, rfl, hle⟩
    exact ⟨ht, _, if_neg (Nat.not_lt.mpr hle)⟩
  · -- outside the image both fail
    rintro e t ⟨ht, hlt⟩
    exact ⟨ht, fun htotal => ⟨eof, _, if_pos (hlt htotal)⟩⟩
