import Fsmnt.Native.NtCompression.Basic

/-!
# Match lengths and match copies

A candidate whose bytes have been compared is a match. Every copy, whatever its chunks, does what
the byte-by-byte copy of LZ77 does: it extends the part of the output that agrees with the data by
the match.
-/

namespace Fsmnt.NtCompression

open List Lz77

/-! ### Match lengths -/

theorem matchLength_le (data : Bytes) (a b max : Nat) : matchLength data a b max ≤ max := by
  induction max generalizing a b with
  | zero => exact Nat.le_refl 0
  | succ max ih =>
    rw [matchLength]
    split
    · exact Nat.succ_le_succ (ih _ _)
    · exact Nat.zero_le _

theorem matchLength_eq (data : Bytes) (max a b k : Nat) (hk : k < matchLength data a b max) :
    data.getD (a + k) 0 = data.getD (b + k) 0 := by
  induction max generalizing a b k with
  | zero =>
    exact absurd hk (Nat.not_lt_zero k)
  | succ max ih =>
    rw [matchLength] at hk
    split at hk
    · rename_i heq
      cases k with
      | zero => exact heq
      | succ k =>
        have hnext := ih (a + 1) (b + 1) k (by omega)
        rwa [Nat.add_right_comm, Nat.add_right_comm b] at hnext
    · omega

/-- A candidate whose bytes have been compared is a match. -/
theorem repeats_matchLength {data : Bytes} {candidate pos max : Nat} (hcand : candidate < pos)
    (hmax : max ≤ data.length - pos) (hpos : pos ≤ data.length) : Repeats data pos
      { offset := pos - candidate, length := matchLength data candidate pos max } := by
  have hle := matchLength_le data candidate pos max
  refine ⟨?_, Nat.sub_le pos candidate, ?_, ?_⟩
  · dsimp only
    omega
  · dsimp only
    omega
  · intro k hk
    dsimp only at hk ⊢
    have heq := matchLength_eq data max candidate pos k hk
    rw [show pos - (pos - candidate) + k = candidate + k by omega,
      getElem?_eq_getElem (by omega), getElem?_eq_getElem (by omega)]
    rw [getD_eq_getElem?_getD, getD_eq_getElem?_getD,
      getElem?_eq_getElem (by omega), getElem?_eq_getElem (by omega)] at heq
    exact congrArg some heq

/-! ### Match copies -/

variable {data : Bytes} {pos : Nat} {m : Match}

section

variable (h : Repeats data pos m) {tiers : List (Nat × List Nat)} {buf : Bytes}

include h

theorem take_copyTail {tails : List Nat} (htails : ∀ t ∈ tails, t ≤ m.offset) (i : Nat)
    (buf : Bytes) (hi : i ≤ m.length) (hbuf : pos + m.length ≤ buf.length)
    (hagree : buf.take (pos + i) = data.take (pos + i)) :
    (copyTail (pos - m.offset) pos m.length tails i buf).take (pos + m.length) =
        data.take (pos + m.length) ∧
      (copyTail (pos - m.offset) pos m.length tails i buf).length = buf.length := by
  induction tails generalizing i buf with
  | nil =>
    have hend : i + 1 * (m.length - i) = m.length := by omega
    have hcopy := take_copyChunks h h.offset_pos (m.length - i) i buf (by omega) hbuf hagree
    rwa [hend] at hcopy
  | cons t tails ih =>
    have htail := ih fun t' ht' => htails t' (mem_cons_of_mem t ht')
    rw [copyTail]
    split
    · rename_i hfit
      -- One chunk is the copy of a single one.
      obtain ⟨htake, hlen⟩ := take_copyChunks h (htails t mem_cons_self) 1 i buf
        (by omega) hbuf hagree
      rw [Nat.mul_one] at htake
      obtain ⟨hdone, hkeep⟩ := htail (i + t) _ hfit (by rw [hlen]; exact hbuf) htake
      exact ⟨hdone, hkeep.trans hlen⟩
    · exact htail i buf hi hbuf hagree

theorem take_copyTiers (htiers : ∀ tier ∈ tiers, ∀ t ∈ tier.2, t ≤ tier.1)
    (hbuf : pos + m.length ≤ buf.length) (hagree : buf.take pos = data.take pos) :
    (copyTiers m.offset (pos - m.offset) pos m.length tiers buf).take (pos + m.length) =
        data.take (pos + m.length) ∧
      (copyTiers m.offset (pos - m.offset) pos m.length tiers buf).length = buf.length := by
  induction tiers with
  | nil =>
    have hcopy := take_copyChunks h h.offset_pos m.length 0 buf (by omega) hbuf hagree
    rwa [Nat.one_mul, Nat.zero_add] at hcopy
  | cons tier tiers ih =>
    obtain ⟨w, tails⟩ := tier
    rw [copyTiers]
    split
    · rename_i hw
      have hfull : w * (m.length / w) ≤ m.length := Nat.mul_div_le m.length w
      obtain ⟨htake, hlen⟩ := take_copyChunks h hw (m.length / w) 0 buf (by omega) hbuf hagree
      rw [Nat.zero_add] at htake
      have htails : ∀ t ∈ tails, t ≤ m.offset := fun t ht =>
        Nat.le_trans (htiers _ mem_cons_self t ht) hw
      obtain ⟨hdone, hkeep⟩ := take_copyTail h htails _ _ hfull (by rw [hlen]; exact hbuf) htake
      exact ⟨hdone, hkeep.trans hlen⟩
    · exact ih fun tier htier => htiers tier (mem_cons_of_mem _ htier)

omit h in
/-- The last byte that was written is one of the data. -/
theorem getElem?_last (hpos : 1 ≤ pos) (hbuf : pos ≤ buf.length)
    (hagree : buf.take pos = data.take pos) : data[pos - 1]? = some (buf.getD (pos - 1) 0) := by
  have heq : (buf.take pos)[pos - 1]? = (data.take pos)[pos - 1]? := by rw [hagree]
  rw [getElem?_take_of_lt (by omega), getElem?_take_of_lt (by omega)] at heq
  rw [← heq, getD_eq_getElem?_getD, getElem?_eq_getElem (by omega), Option.getD_some]

/-- Filling with the last byte is the copy of a match of offset one. -/
theorem take_fill (hone : m.offset = 1) (hbuf : pos + m.length ≤ buf.length)
    (hagree : buf.take pos = data.take pos) :
    (buf.splice pos (replicate m.length (buf.getD (pos - m.offset) 0))).take
        (pos + m.length) = data.take (pos + m.length) := by
  have hpos := h.offset_le
  have hlast := getElem?_last (by omega) (by omega) hagree
  have hrun : (data.drop pos).take m.length = replicate m.length (buf.getD (pos - 1) 0) := by
    apply ext_getElem?
    intro k
    rw [getElem?_take, getElem?_drop, getElem?_replicate]
    split
    · rename_i hk
      rw [h.eq_last hone k hk, hlast]
    · rfl
  have hdone := take_append_drop_of_agree hagree
    (replicate m.length (buf.getD (pos - 1) 0)) (by simpa using hbuf) (by simpa using hrun)
  rw [length_replicate] at hdone
  rw [hone, Bytes.splice, length_replicate]
  exact hdone

/-- Every copy of this shape, whose tails are no longer than their chunks. -/
theorem take_copyMatchTiered (htiers : ∀ tier ∈ tiers, ∀ t ∈ tier.2, t ≤ tier.1)
    (hbuf : pos + m.length ≤ buf.length) (hagree : buf.take pos = data.take pos) :
    (copyMatchTiered tiers buf pos m.offset m.length).take (pos + m.length) =
        data.take (pos + m.length) ∧
      (copyMatchTiered tiers buf pos m.offset m.length).length = buf.length := by
  have hoff := h.offset_le
  unfold copyMatchTiered
  split
  · rename_i hle
    exact ⟨take_copyWithin hagree (by omega) hbuf h.eq, length_copyWithin (by omega) hbuf⟩
  split
  · rename_i hone
    exact ⟨take_fill h hone hbuf hagree, Bytes.length_splice (by simpa using hbuf)⟩
  · exact take_copyTiers h htiers hbuf hagree

end

/-- The copy of any processor level. -/
theorem take_copyMatchFast (level : SimdLevel) (h : Repeats data pos m) {buf : Bytes}
    (hbuf : pos + m.length ≤ buf.length) (hagree : buf.take pos = data.take pos) :
    (copyMatchFast level buf pos m.offset m.length).take (pos + m.length) =
        data.take (pos + m.length) ∧
      (copyMatchFast level buf pos m.offset m.length).length = buf.length := by
  cases level <;> exact take_copyMatchTiered h (by decide) hbuf hagree

end Fsmnt.NtCompression
