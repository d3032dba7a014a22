import Mathlib.Data.List.Induction

/-!
# Iterating a partial function

`Option.iter f k a` applies the partial function `f` to `a` `k` times. An orbit that comes
back to its first point never leaves the domain of `f`.
-/

namespace Option

variable {α : Type*} (f : α → Option α) (k : Nat) (a : α)

/-- `f` applied `k` times. -/
def iter : Nat → α → Option α
  | 0, a => some a
  | k + 1, a => (f a).bind (iter k)

@[simp] theorem iter_zero : iter f 0 a = some a := rfl

/-- Steps add up. -/
theorem iter_add (m n : Nat) (a : α) : iter f (m + n) a = (iter f m a).bind (iter f n) := by
  induction m generalizing a with
  | zero => simp [iter]
  | succ m ih =>
    rw [Nat.succ_add]
    simp only [iter]
    cases f a with
    | none => rfl
    | some b => exact ih b

theorem iter_succ : iter f (k + 1) a = (iter f k a).bind f := by
  rw [iter_add]
  simp [iter]

/-- A point on a cycle is the starting point again after any number of rounds. -/
private theorem iter_mul_eq_self (h : iter f k a = some a) (m : Nat) :
    iter f (m * k) a = some a := by
  induction m with
  | zero => simp
  | succ m ih => rw [Nat.succ_mul, iter_add, ih, Option.bind_some, h]

/-- The orbit of a point on a cycle is infinite. -/
theorem exists_iter_of_cycle (hk : 0 < k) (h : iter f k a = some a) (m : Nat) :
    ∃ b, iter f m a = some b := by
  have hround := iter_mul_eq_self f k a h m
  have hle : m ≤ m * k := Nat.le_mul_of_pos_right m hk
  obtain ⟨d, hd⟩ := Nat.exists_eq_add_of_le hle
  rw [hd, iter_add] at hround
  cases hm : iter f m a with
  | none => rw [hm] at hround; cases hround
  | some b => exact ⟨b, rfl⟩

end Option
