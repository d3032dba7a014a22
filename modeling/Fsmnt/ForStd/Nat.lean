import Mathlib.Data.Finset.Card
import Mathlib.Order.Interval.Finset.Nat

/-!
# A pigeonhole principle for bounded sequences
-/

namespace Nat

open Finset

/-- A sequence that takes `bound - 1` values among the positive numbers below `bound`, one
    of which it avoids, takes one of them twice. -/
theorem exists_lt_map_eq_of_avoid (f : Nat → Nat) (bound avoided : Nat) (hpos : 0 < avoided)
    (hlt : avoided < bound) (hf : ∀ i, 0 < i → i < bound → 0 < f i ∧ f i < bound ∧ f i ≠ avoided) :
    ∃ i j, 0 < i ∧ i < j ∧ j < bound ∧ f i = f j := by
  have hmem : avoided ∈ Finset.Ioo 0 bound := mem_Ioo.mpr ⟨hpos, hlt⟩
  have hcard : ((Finset.Ioo 0 bound).erase avoided).card < (Finset.Ioo 0 bound).card := by
    rw [card_erase_of_mem hmem, Nat.card_Ioo]
    omega
  obtain ⟨x, hx, y, hy, hne, heq⟩ := exists_ne_map_eq_of_card_lt_of_maps_to hcard
    (f := f) (fun i hi => by
      obtain ⟨hi0, hib⟩ := mem_Ioo.mp (mem_coe.mp hi)
      obtain ⟨h0, hb, hav⟩ := hf i hi0 hib
      exact mem_coe.mpr (mem_erase.mpr ⟨hav, mem_Ioo.mpr ⟨h0, hb⟩⟩))
  rw [mem_Ioo] at hx hy
  rcases Nat.lt_or_gt_of_ne hne with hxy | hyx
  · exact ⟨x, y, hx.1, hxy, hy.2, heq⟩
  · exact ⟨y, x, hy.1, hyx, hx.2, heq.symm⟩

/-- A slot of a table lies in one block, if the slots fill the blocks. -/
theorem mul_mod_add_le_of_dvd {size total : Nat} (hdvd : size ∣ total) (hpos : 0 < total)
    (i : Nat) : i * size % total + size ≤ total := by
  obtain ⟨k, rfl⟩ := hdvd
  have hk : 0 < k := Nat.pos_of_mul_pos_left hpos
  have hlt := Nat.mod_lt i hk
  calc i * size % (size * k) + size
      = size * (i % k) + size := by rw [Nat.mul_comm i, Nat.mul_mod_mul_left]
    _ = size * (i % k + 1) := (Nat.mul_succ _ _).symm
    _ ≤ size * k := Nat.mul_le_mul_left _ hlt

end Nat
