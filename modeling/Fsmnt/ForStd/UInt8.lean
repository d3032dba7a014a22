import Mathlib.Data.Nat.Bitwise

/-!
# Bits of a byte

Testing, setting and clearing a bit with a shifted mask, in terms of `Nat.testBit`.
-/

namespace UInt8

/-- The mask of bit `k`. -/
theorem toNat_one_shiftLeft : ∀ k < 8, ((1 : UInt8) <<< UInt8.ofNat k).toNat = 2 ^ k := by
  decide

/-- A mask picks out one bit. -/
theorem and_mask_bne_zero (x : UInt8) {k : Nat} (hk : k < 8) :
    (x &&& (1 <<< UInt8.ofNat k) != 0) = x.toNat.testBit k := by
  rw [Bool.eq_iff_iff, bne_iff_ne, Ne, ← UInt8.toNat_inj, UInt8.toNat_and,
    toNat_one_shiftLeft k hk, Nat.and_two_pow]
  cases x.toNat.testBit k <;> simp

theorem testBit_not_mask : ∀ k < 8, ∀ j < 8,
    (~~~((1 : UInt8) <<< UInt8.ofNat k)).toNat.testBit j = !decide (k = j) := by
  decide

end UInt8
