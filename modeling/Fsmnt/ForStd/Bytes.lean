import Mathlib.Algebra.Group.Int.Defs
import Mathlib.Algebra.GroupWithZero.Nat
import Mathlib.Data.List.Induction

/-!
# Byte buffers

A buffer is a `List UInt8`. This module has the operations a parser of on-disk
structures performs on one: taking a slice, overwriting a slice in place, and
reading or writing an unsigned integer in either byte order.
-/

/-- A byte buffer. -/
abbrev Bytes := List UInt8

namespace Bytes

open List

variable {buf src bs : Bytes} {n off o : Nat} {b : UInt8} (value : Nat)

/-- `n` zero bytes. -/
def zeros (n : Nat) : Bytes := List.replicate n 0

@[simp] theorem length_zeros (n : Nat) : (zeros n).length = n := length_replicate

/-! ### Slices -/

/-- The `len` bytes of `bs` that start at `off` (`bs[off..off + len]`). -/
def slice (bs : Bytes) (off len : Nat) : Bytes := (bs.drop off).take len

/-- `bs[off..off + src.len()].copy_from_slice(src)`. -/
def splice (bs : Bytes) (off : Nat) (src : Bytes) : Bytes :=
  bs.take off ++ src ++ bs.drop (off + src.length)

/-- A slice inside the buffer has the length that was asked for. -/
@[simp] theorem length_slice (bs : Bytes) (off len : Nat) :
    (slice bs off len).length = min len (bs.length - off) := by
  simp [slice]

/-- Two adjacent slices make one. -/
theorem slice_append_slice (bs : Bytes) (off m n : Nat) :
    slice bs off m ++ slice bs (off + m) n = slice bs off (m + n) := by
  simp only [slice, ← drop_drop]
  rw [take_add]

/-- Overwriting inside the buffer keeps its length. -/
theorem length_splice (h : off + src.length ≤ bs.length) :
    (splice bs off src).length = bs.length := by
  simp only [splice, length_append, length_take, length_drop]
  omega

/-- An entry of a buffer after overwriting a slice of it. -/
theorem getElem?_splice (h : off + src.length ≤ bs.length) (i : Nat) : (splice bs off src)[i]? =
      if off ≤ i ∧ i < off + src.length then src[i - off]? else bs[i]? := by
  have hlen : (bs.take off).length = off := by rw [length_take]; omega
  simp only [splice, append_assoc]
  by_cases hlt : i < off
  · rw [getElem?_append_left (by omega), getElem?_take_of_lt hlt, if_neg (by omega)]
  rw [getElem?_append_right (by omega), hlen]
  by_cases hin : i < off + src.length
  · rw [getElem?_append_left (by omega), if_pos (by omega)]
  · rw [getElem?_append_right (by omega), getElem?_drop, if_neg (by omega)]
    congr 1
    omega

/-- What was written is read back. -/
theorem slice_splice_self (h : off + src.length ≤ bs.length) :
    slice (splice bs off src) off src.length = src := by
  have hlen : (bs.take off).length = off := by rw [length_take]; omega
  simp only [slice, splice, append_assoc]
  rw [drop_append_of_le_length (by omega), drop_eq_nil_of_le (by omega), nil_append, take_left]

/-- A slice that does not meet the overwritten range is unchanged. -/
theorem slice_splice_of_disjoint {len : Nat} (h : off + src.length ≤ bs.length)
    (hd : o + len ≤ off ∨ off + src.length ≤ o) :
    slice (splice bs off src) o len = slice bs o len := by
  apply ext_getElem?
  intro i
  simp only [slice, getElem?_take, getElem?_drop]
  split
  · rw [getElem?_splice h, if_neg (by omega)]
  · rfl

theorem length_take_append (h : off + src.length ≤ bs.length) :
    (bs.take off ++ src).length = off + src.length := by
  rw [length_append, length_take]
  omega

/-- What follows the bytes that were overwritten. -/
theorem drop_splice (h : off + src.length ≤ bs.length) :
    (splice bs off src).drop (off + src.length) = bs.drop (off + src.length) := by
  rw [splice, drop_left' (length_take_append h)]

/-- A writer that had filled `n` bytes of a buffer appends `src` and has filled `n'`. -/
structure Appended (buf : Bytes) (n : Nat) (src buf' : Bytes) (n' : Nat) : Prop where
  take : buf'.take n' = buf.take n ++ src
  pos : n' = n + src.length
  length : buf'.length = buf.length
  fits : n' ≤ buf'.length

theorem Appended.refl (h : n ≤ buf.length) : Appended buf n [] buf n :=
  ⟨(append_nil _).symm, rfl, rfl, h⟩

theorem Appended.trans {b₁ b₂ b₃ s t : Bytes} {n₁ n₂ n₃ : Nat} (h : Appended b₁ n₁ s b₂ n₂)
    (h' : Appended b₂ n₂ t b₃ n₃) : Appended b₁ n₁ (s ++ t) b₃ n₃ := by
  refine ⟨?_, ?_, h'.length.trans h.length, h'.fits⟩
  · rw [h'.take, h.take, append_assoc]
  · rw [h'.pos, h.pos, length_append, Nat.add_assoc]

theorem appended_splice (h : n + src.length ≤ buf.length) :
    Appended buf n src (buf.splice n src) (n + src.length) :=
  ⟨by rw [splice, take_left' (length_take_append h)], rfl,
    length_splice h, by rwa [length_splice h]⟩

theorem appended_set (h : n < buf.length) : Appended buf n [b] (buf.set n b) (n + 1) := by
  refine ⟨?_, rfl, length_set, by rwa [length_set]⟩
  rw [take_succ_eq_append_getElem (by simpa using h), take_set_of_le (Nat.le_refl n),
    getElem_set_self]

/-- A writer that is given the rest of a buffer. -/
theorem Appended.of_drop {tail : Bytes} {m : Nat} (hn : n ≤ buf.length)
    (h : Appended (buf.drop n) 0 src tail m) : Appended buf n src (buf.take n ++ tail) (n + m) := by
  have hhead : (buf.take n).length = n := length_take_of_le hn
  have hlen := h.length
  have hfits := h.fits
  rw [length_drop] at hlen
  refine ⟨?_, by rw [h.pos, Nat.zero_add], ?_, ?_⟩
  · rw [take_append, hhead, Nat.add_sub_cancel_left, h.take, take_zero, nil_append,
      take_take, Nat.min_eq_right (Nat.le_add_right n m)]
  · rw [length_append]
    omega
  · rw [length_append]
    omega

/-- The first byte that was appended may be filled in later. -/
theorem Appended.set_head {buf' : Bytes} {n' : Nat} (h : Appended buf n (b :: src) buf' n')
    (c : UInt8) :
    Appended buf n (c :: src) (buf'.set n c) n' := by
  have hn : (buf.take n).length = n := by
    have h₁ := congrArg List.length h.take
    have h₂ := h.pos
    have h₃ := h.fits
    rw [length_append, length_take, length_take] at *
    omega
  refine ⟨?_, h.pos, by rw [length_set, h.length], by rw [length_set]; exact h.fits⟩
  rw [take_set, h.take, set_append_right _ _ (by omega), hn, Nat.sub_self, set_cons_zero]

/-! ### Integers -/

/-- The unsigned integer whose little-endian bytes are `bs`. -/
def ofLE : Bytes → Nat
  | [] => 0
  | b :: bs => b.toNat + 256 * ofLE bs

/-- The unsigned integer whose big-endian bytes are `bs`. -/
def ofBE (bs : Bytes) : Nat := bs.foldl (fun acc b => acc * 256 + b.toNat) 0

/-- The low `8 * w` bits of `n` as `w` little-endian bytes. -/
def toLE : (w : Nat) → Nat → Bytes
  | 0, _ => []
  | w + 1, n => UInt8.ofNat n :: toLE w (n / 256)

/-- The low `8 * w` bits of `n` as `w` big-endian bytes. -/
def toBE (w n : Nat) : Bytes := (toLE w n).reverse

/-- An integer read from a little-endian buffer is bounded by the buffer's width. -/
theorem ofLE_lt (bs : Bytes) : ofLE bs < 256 ^ bs.length := by
  induction bs with
  | nil => simp [ofLE]
  | cons b bs ih =>
    have hb := b.toNat_lt
    simp only [ofLE, length_cons]
    omega

/-- The big-endian reading of a buffer is the little-endian one of its reverse. -/
theorem ofBE_eq_ofLE_reverse (bs : Bytes) : ofBE bs = ofLE bs.reverse := by
  induction bs using reverseRecOn with
  | nil => rfl
  | append_singleton bs b ih =>
    have hstep : ofBE (bs ++ [b]) = ofBE bs * 256 + b.toNat := by simp [ofBE]
    rw [reverse_append, reverse_singleton, singleton_append, ofLE]
    omega

/-- An integer read from a big-endian buffer is bounded by the buffer's width. -/
theorem ofBE_lt (bs : Bytes) : ofBE bs < 256 ^ bs.length := by
  rw [ofBE_eq_ofLE_reverse]
  simpa using ofLE_lt bs.reverse

@[simp] theorem length_toLE (w n : Nat) : (toLE w n).length = w := by
  induction w generalizing n with
  | zero => rfl
  | succ w ih => simp [toLE, ih]

/-- The low bits of an integer are read back from its encoding. -/
theorem ofLE_toLE_mod (w n : Nat) : ofLE (toLE w n) = n % 256 ^ w := by
  induction w generalizing n with
  | zero => simp only [toLE, ofLE, Nat.pow_zero, Nat.mod_one]
  | succ w ih =>
    have hpow : (256 : Nat) ^ (w + 1) = 256 * 256 ^ w := by rw [Nat.pow_succ, Nat.mul_comm]
    simp only [toLE, ofLE, ih, UInt8.toNat_ofNat']
    rw [hpow, Nat.mod_mul]

/-- An integer that fits is read back from its own encoding. -/
theorem ofLE_toLE (w n : Nat) (h : n < 256 ^ w) : ofLE (toLE w n) = n := by
  rw [ofLE_toLE_mod, Nat.mod_eq_of_lt h]

/-- Bytes are the encoding of the integer read from them. -/
theorem toLE_ofLE (bs : Bytes) : toLE bs.length (ofLE bs) = bs := by
  induction bs with
  | nil => rfl
  | cons b bs ih =>
    have hb := b.toNat_lt
    have hlow : UInt8.ofNat (b.toNat + 256 * ofLE bs) = b := by
      apply UInt8.toNat_inj.mp
      rw [UInt8.toNat_ofNat']
      omega
    have hhigh : (b.toNat + 256 * ofLE bs) / 256 = ofLE bs := by omega
    simp only [length_cons, toLE, ofLE, hlow, hhigh, ih]

/-! ### Integer fields of a structure -/

/-- `u16::from_le_bytes` of the two bytes at `off`. -/
def le16 (bs : Bytes) (off : Nat) : Nat := ofLE (slice bs off 2)

/-- `u32::from_le_bytes` of the four bytes at `off`. -/
def le32 (bs : Bytes) (off : Nat) : Nat := ofLE (slice bs off 4)

/-- `u16::from_be_bytes` of the two bytes at `off`. -/
def be16 (bs : Bytes) (off : Nat) : Nat := ofBE (slice bs off 2)

/-- `u32::from_be_bytes` of the four bytes at `off`. -/
def be32 (bs : Bytes) (off : Nat) : Nat := ofBE (slice bs off 4)

/-- `u64::from_be_bytes` of the eight bytes at `off`. -/
def be64 (bs : Bytes) (off : Nat) : Nat := ofBE (slice bs off 8)

theorem pow_length_slice_le (bs : Bytes) (off w : Nat) : 256 ^ (slice bs off w).length ≤ 256 ^ w :=
  Nat.pow_le_pow_right (by decide) (by rw [length_slice]; omega)

/-- A little-endian `u16` field is below `2 ^ 16`. -/
theorem le16_lt (bs : Bytes) (off : Nat) : le16 bs off < 2 ^ 16 :=
  Nat.lt_of_lt_of_le (ofLE_lt _) (pow_length_slice_le bs off 2)

/-- A field that was written is read back. -/
theorem ofLE_slice_splice (w value : Nat) (h : off + w ≤ bs.length) :
    ofLE (slice (splice bs off (toLE w value)) off w) = value % 256 ^ w := by
  have hself : slice (splice bs off (toLE w value)) off _ = _ :=
    slice_splice_self (by rwa [length_toLE])
  rw [length_toLE] at hself
  rw [hself, ofLE_toLE_mod]

/-- A `u16` field that was written is read back. -/
theorem le16_splice_self (h : off + 2 ≤ bs.length) :
    le16 (splice bs off (toLE 2 value)) off = value % 2 ^ 16 :=
  ofLE_slice_splice 2 value h

/-- Writing elsewhere keeps a `u16` field. -/
theorem le16_splice_of_disjoint (h : off + src.length ≤ bs.length)
    (hd : o + 2 ≤ off ∨ off + src.length ≤ o) : le16 (splice bs off src) o = le16 bs o := by
  rw [le16, slice_splice_of_disjoint h hd, le16]

theorem le32_splice_mod (h : off + 4 ≤ bs.length) :
    le32 (splice bs off (toLE 4 value)) off = value % 2 ^ 32 :=
  ofLE_slice_splice 4 value h

/-- A `u32` field that was written is read back. -/
theorem le32_splice_self {value : Nat} (h : off + 4 ≤ bs.length) (hvalue : value < 2 ^ 32) :
    le32 (splice bs off (toLE 4 value)) off = value := by
  rw [le32_splice_mod value h, Nat.mod_eq_of_lt hvalue]

/-- Writing a `u32` field keeps the others. -/
theorem le32_splice_of_disjoint (h : off + 4 ≤ bs.length) (hd : o + 4 ≤ off ∨ off + 4 ≤ o) :
    le32 (splice bs off (toLE 4 value)) o = le32 bs o := by
  rw [le32, slice_splice_of_disjoint (by rwa [length_toLE]) (by rwa [length_toLE]), le32]

/-- A little-endian `u32` field is below `2 ^ 32`. -/
theorem le32_lt (bs : Bytes) (off : Nat) : le32 bs off < 2 ^ 32 :=
  Nat.lt_of_lt_of_le (ofLE_lt _) (pow_length_slice_le bs off 4)

/-- A big-endian `u32` field is below `2 ^ 32`. -/
theorem be32_lt (bs : Bytes) (off : Nat) : be32 bs off < 2 ^ 32 :=
  Nat.lt_of_lt_of_le (ofBE_lt _) (pow_length_slice_le bs off 4)

end Bytes
