import Fsmnt.Native.NtCompression.Huffman
import Fsmnt.ForStd.List
import Mathlib.Algebra.BigOperators.Ring.List
import Mathlib.Tactic.Ring

/-!
# The tables of `canonical_codes` hold the canonical code

The encoder and the decoders take their codes from the same iterator. It lists the canonical code of
the lengths in the order of the symbols.
-/

namespace Fsmnt.NtCompression

open CanonicalCode Option
open List hiding count

variable {lengths : List Nat}

theorem countPerLength_getD (lengths : List Nat) {w : Nat} (hw : w ≤ 16) :
    (countPerLength lengths).getD w 0 = count lengths w := by
  suffices ∀ counts : List Nat, counts.length = 17 → (lengths.foldl (fun counts len =>
      if len > 0 ∧ len ≤ MAX_CODE_LEN then counts.set len (counts.getD len 0 + 1) else counts)
      counts).getD w 0 = counts.getD w 0 + count lengths w by
    have hzero : (replicate 17 0).getD w 0 = 0 := getD_replicate _ (by omega)
    exact (this _ length_replicate).trans (by rw [hzero, Nat.zero_add])
  induction lengths with
  | nil =>
    simp [count]
  | cons l ls ih =>
    intro counts h
    rw [foldl_cons]
    have hcons : count (l :: ls) w = count ls w + if w ≠ 0 ∧ l = w then 1 else 0 := by
      unfold count
      by_cases hzero : w = 0
      · simp [hzero]
      · simp [hzero, count_cons]
    split
    · rename_i hl
      rw [ih _ (by rw [length_set, h]), hcons]
      simp only [getD_eq_getElem?_getD, getElem?_set]
      by_cases heq : l = w
      · subst heq
        rw [if_pos rfl, if_pos (by omega), if_pos ⟨by omega, rfl⟩, getD_some]
        omega
      · rw [if_neg heq, if_neg (fun h => heq h.2)]
        omega
    · rename_i hl
      rw [ih _ h, hcons, if_neg]
      · rfl
      · rintro ⟨hne, rfl⟩
        exact hl ⟨by omega, hw⟩

/-- The sum that `validate_code_space` compares. -/
theorem sum_counts (lengths : List Nat) (w : Nat) :
    ((range' 1 w).map fun len => count lengths len * 2 ^ (w - len)).sum = kraft w lengths := by
  induction w with
  | zero => rw [← first_add_count]; rfl
  | succ w ih =>
    rw [kraft_succ, ← ih, range'_concat, map_append, sum_append, ← sum_map_mul_left]
    congr 1
    · congr 1
      apply map_congr_left
      intro len hlen
      rw [mem_range'_1] at hlen
      rw [show w + 1 - len = (w - len) + 1 by omega]
      ring
    · simp [count, Nat.add_comm]

theorem validateCodeSpace_ok (h : kraft 16 lengths ≤ 2 ^ 16) :
    validateCodeSpace (countPerLength lengths) = .ok () := by
  have hsum : ((range' 1 MAX_CODE_LEN).map fun len =>
      (countPerLength lengths).getD len 0 <<< (MAX_CODE_LEN - len)).sum = kraft 16 lengths := by
    rw [← sum_counts]
    refine congrArg sum (map_congr_left fun len hlen => ?_)
    rw [mem_range'_1, MAX_CODE_LEN] at hlen
    rw [countPerLength_getD lengths (by omega), Nat.shiftLeft_eq, MAX_CODE_LEN]
  unfold validateCodeSpace
  rw [hsum, if_neg]
  rw [MAX_CODE_LEN]
  omega

theorem firstCodes_spec (lengths : List Nat) (n b : Nat) (nextCode : List Nat)
    (hlen : nextCode.length = 17) (hb : b + n = 16)
    (hdone : ∀ w, 1 ≤ w → w ≤ b → nextCode.getD w 0 = first lengths w) :
    (firstCodes (countPerLength lengths) (range' (b + 1) n)
        (first lengths b) nextCode).length = 17 ∧
      ∀ w, 1 ≤ w → w ≤ 16 → (firstCodes (countPerLength lengths) (range' (b + 1) n)
        (first lengths b) nextCode).getD w 0 = first lengths w := by
  induction n generalizing b nextCode with
  | zero =>
    exact ⟨hlen, fun w hw hle => hdone w hw (by omega)⟩
  | succ n ih =>
    have hcode : (first lengths b + (countPerLength lengths).getD (b + 1 - 1) 0) <<< 1 =
        first lengths (b + 1) := by
      rw [Nat.add_sub_cancel, countPerLength_getD lengths (by omega), Nat.shiftLeft_eq,
        Nat.mul_comm]
      rfl
    rw [range'_succ, firstCodes, hcode]
    refine ih (b + 1) _ (by rw [length_set, hlen]) (by omega) fun w hw hle => ?_
    rw [getD_eq_getElem?_getD, getElem?_set]
    by_cases heq : b + 1 = w
    · subst heq
      rw [if_pos rfl, if_pos (by omega), getD_some]
    · rw [if_neg heq, ← getD_eq_getElem?_getD, hdone w hw (by omega)]

theorem count_concat (pre : List Nat) (l w : Nat) :
    (pre ++ [l]).count w = pre.count w + if l = w then 1 else 0 := by
  rw [count_append, count_singleton]
  simp only [beq_iff_eq]

/-- The symbols from `s` on, in the order of the iterator. -/
theorem canonicalCodesFrom_eq (hle : ∀ l ∈ lengths, l ≤ 16) (rest pre nextCode : List Nat)
    (hsplit : lengths = pre ++ rest) (hlen : nextCode.length = 17)
    (hnext : ∀ w, 1 ≤ w → w ≤ 16 → nextCode.getD w 0 = first lengths w + pre.count w) :
    canonicalCodesFrom nextCode pre.length rest =
      ((range' pre.length rest.length).filter fun s => 0 < lengths.getD s 0).map fun s =>
        (s, code lengths s, lengths.getD s 0) := by
  induction rest generalizing pre nextCode with
  | nil =>
    rfl
  | cons l rest ih =>
    have hget : lengths.getD pre.length 0 = l := by
      rw [hsplit, getD_eq_getElem?_getD, getElem?_append_right (Nat.le_refl _), Nat.sub_self]
      rfl
    have hl : l ≤ 16 := hle l (by rw [hsplit]; simp)
    have hsplit' : lengths = (pre ++ [l]) ++ rest := by rw [hsplit]; simp
    have hpre : (pre ++ [l]).length = pre.length + 1 := by simp
    rw [canonicalCodesFrom, length_cons, range'_succ, filter_cons, hget]
    by_cases hzero : l = 0
    · subst hzero
      have hrec := ih (pre ++ [0]) nextCode hsplit' hlen (by
        intro w hw hle
        rw [hnext w hw hle, count_concat, if_neg (by omega), Nat.add_zero])
      rw [hpre] at hrec
      exact hrec
    rw [if_neg (by unfold MAX_CODE_LEN; omega), if_pos (by simp; omega)]
    have hcode : nextCode.getD l 0 = code lengths pre.length := by
      rw [hnext l (by omega) hl, code, hget, hsplit, take_left]
    have hrec := ih (pre ++ [l]) (nextCode.set l (nextCode.getD l 0 + 1)) hsplit'
      (by rw [length_set, hlen]) (by
        intro w hw hle
        rw [getD_eq_getElem?_getD, getElem?_set, count_concat]
        by_cases heq : l = w
        · subst heq
          rw [if_pos rfl, if_pos (by omega), if_pos rfl, getD_some, hnext l hw hle, Nat.add_assoc]
        · rw [if_neg heq, if_neg heq, ← getD_eq_getElem?_getD, hnext w hw hle, Nat.add_zero])
    rw [hpre] at hrec
    dsimp only
    rw [hrec, map_cons, hget, hcode]

/-- `canonical_codes` lists the canonical codes in the order of the symbols. -/
theorem canonicalCodes_eq (hle : ∀ l ∈ lengths, l ≤ 16) :
    canonicalCodes lengths (countPerLength lengths) =
      ((range lengths.length).filter fun s => 0 < lengths.getD s 0).map fun s =>
        (s, code lengths s, lengths.getD s 0) := by
  obtain ⟨hlen, hfirst⟩ := firstCodes_spec lengths 16 0
    (replicate (MAX_CODE_LEN + 1) 0) length_replicate rfl (by omega)
  rw [range_eq_range']
  exact canonicalCodesFrom_eq hle lengths [] _ rfl hlen hfirst

/-- The encoder looks up the code of a symbol. -/
theorem assignCanonicalCodes_getD (hle : ∀ l ∈ lengths, l ≤ 16) {sym : Nat}
    (hsym : 0 < lengths.getD sym 0) :
    (assignCanonicalCodes lengths (countPerLength lengths)).getD sym (0, 0) =
      (code lengths sym, lengths.getD sym 0) := by
  unfold assignCanonicalCodes
  rw [canonicalCodes_eq hle, foldl_map]
  -- The entries before `sym` do not matter, and those after it do not touch it.
  suffices ∀ (syms : List Nat) (codes : List (Nat × Nat)), codes.length = lengths.length →
      (sym ∈ syms ∨ codes.getD sym (0, 0) = (code lengths sym, lengths.getD sym 0)) →
      (syms.foldl (fun codes s => codes.set s (code lengths s, lengths.getD s 0)) codes).getD sym
        (0, 0) = (code lengths sym, lengths.getD sym 0) by
    refine this _ _ length_replicate (Or.inl ?_)
    exact mem_filter.mpr ⟨mem_range.mpr (lt_length_of_getD_pos hsym), decide_eq_true hsym⟩
  intro syms
  induction syms with
  | nil => simp
  | cons s syms ih =>
    intro codes hlen h
    refine ih _ (by rw [length_set, hlen]) ?_
    rw [getD_eq_getElem?_getD, getElem?_set]
    by_cases heq : s = sym
    · subst heq
      right
      rw [if_pos rfl, if_pos (by rw [hlen]; exact lt_length_of_getD_pos hsym), getD_some]
    · rw [if_neg heq]
      exact h.imp (fun hmem => (mem_cons.mp hmem).resolve_left (Ne.symm heq)) id

end Fsmnt.NtCompression
