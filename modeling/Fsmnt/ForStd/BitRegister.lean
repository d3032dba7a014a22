import Mathlib.Algebra.Order.Ring.Nat
import Mathlib.Tactic.Ring

/-!
# Left-aligned bit registers

A decoder that reads the most significant bit first keeps its next `w` bits at the top of a register
of `n` bits, with zeros below them. The number `v < 2 ^ w` stands for these bits.
-/

namespace BitRegister

variable {n w k v m q c d : Nat}

/-- The register of `n` bits that holds the `w` bits `v`. -/
def aligned (n w v : Nat) : Nat := v * 2 ^ (n - w)

theorem mul_two_pow_lt (hq : q < 2 ^ w) (k : Nat) : q * 2 ^ k < 2 ^ (w + k) := by
  rw [Nat.pow_add]
  exact (Nat.mul_lt_mul_right (Nat.two_pow_pos k)).mpr hq

theorem aligned_lt (hw : w ≤ n) (hv : v < 2 ^ w) : aligned n w v < 2 ^ n := by
  have hlt := mul_two_pow_lt hv (n - w)
  rwa [Nat.add_sub_of_le hw] at hlt

/-- The first `k` bits. -/
theorem aligned_div (hw : k + w ≤ n) (hq : q < 2 ^ w) :
    aligned n (k + w) (m * 2 ^ w + q) / 2 ^ (n - k) = m := by
  obtain ⟨r, rfl⟩ := Nat.exists_eq_add_of_le hw
  rw [aligned, Nat.add_sub_cancel_left, Nat.add_assoc, Nat.add_sub_cancel_left, Nat.pow_add,
    Nat.mul_div_mul_right _ _ (Nat.two_pow_pos r), Nat.add_comm,
    Nat.add_mul_div_right _ _ (Nat.two_pow_pos w), Nat.div_eq_of_lt hq, Nat.zero_add]

/-- The first `k` bits are shifted out. -/
theorem aligned_shiftLeft_mod (hw : k + w ≤ n) (hq : q < 2 ^ w) :
    (aligned n (k + w) (m * 2 ^ w + q) <<< k) % 2 ^ n = aligned n w q := by
  have hlow : aligned n w q < 2 ^ n := aligned_lt (by omega) hq
  have hsplit : aligned n (k + w) (m * 2 ^ w + q) * 2 ^ k = aligned n w q + m * 2 ^ n := by
    obtain ⟨r, rfl⟩ := Nat.exists_eq_add_of_le hw
    rw [aligned, aligned, Nat.add_sub_cancel_left, show k + w + r - w = k + r by omega]
    ring
  rw [Nat.shiftLeft_eq, hsplit, Nat.add_mul_mod_self_right, Nat.mod_eq_of_lt hlow]

/-- `d` further bits are put behind the bits of the register. -/
theorem aligned_or (hd : w + d ≤ n) (hc : c < 2 ^ d) :
    aligned n w q ||| c <<< (n - (w + d)) = aligned n (w + d) (q * 2 ^ d + c) := by
  obtain ⟨r, rfl⟩ := Nat.exists_eq_add_of_le hd
  rw [aligned, aligned, Nat.add_sub_cancel_left, show w + d + r - w = d + r by omega,
    Nat.shiftLeft_eq, ← Nat.shiftLeft_eq q,
    ← Nat.shiftLeft_add_eq_or_of_lt (mul_two_pow_lt hc r), Nat.shiftLeft_eq]
  ring

end BitRegister
