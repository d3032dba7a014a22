import Fsmnt.Native.NtCompression.XpressHuffman
import Fsmnt.ForStd.BitRegister

/-!
# The encoder and the decoder of the word stream stay in step

The encoder fills a word slot that lies two slots back. What it will write there is not known yet,
so that we speak of the final streams that a state of the encoder still allows. On any of them the
decoder that has read the same bits holds the two open slots in its register and stands where the
encoder appends.
-/

namespace Fsmnt.NtCompression.XpressHuffman

open BitEncoder BitRegister Bytes Except List

variable {m a i E q n d : Nat} (checked : Bool) (e : BitEncoder) (fin : Bytes)

/-- The open slots of the encoder, and the bits that are still missing in the first. -/
structure BitEncoder.Open (e : BitEncoder) : Prop where
  ptr0 : e.ptr0 + 2 ≤ e.ptr1
  ptr1 : e.ptr1 + 2 ≤ e.stream.length
  extraBits : e.extraBits ≤ 16

/-- A byte of an open slot. -/
def BitEncoder.IsSlot (e : BitEncoder) (i : Nat) : Prop :=
  e.ptr0 ≤ i ∧ i < e.ptr0 + 2 ∨ e.ptr1 ≤ i ∧ i < e.ptr1 + 2

/-- The streams that the encoder may still produce, with anything behind them. -/
structure BitEncoder.Allows (e : BitEncoder) (fin : Bytes) : Prop where
  length : e.stream.length ≤ fin.length
  keep : ∀ i < e.stream.length, ¬e.IsSlot i → fin[i]? = e.stream[i]?
  word : fin.le16 e.ptr0 / 2 ^ e.extraBits = e.accum % 2 ^ (16 - e.extraBits)

/-- The unread bits: what is missing in the first slot, and the second slot. -/
def BitEncoder.unread (e : BitEncoder) (fin : Bytes) : Nat :=
  fin.le16 e.ptr0 % 2 ^ e.extraBits * 2 ^ 16 + fin.le16 e.ptr1

/-- The decoder that has read what the encoder has written. -/
def BitEncoder.reader (e : BitEncoder) (fin : Bytes) : BitState :=
  { pos := e.stream.length
    nextBits := aligned 32 (16 + e.extraBits) (e.unread fin)
    extraBitCount := e.extraBits }

theorem BitEncoder.unread_lt :
    e.unread fin < 2 ^ (16 + e.extraBits) := by
  have hword := fin.le16_lt e.ptr1
  rw [unread, Nat.pow_add]
  omega

/-! ### Words -/

theorem mod_two_pow_add (a i j : Nat) :
    a % 2 ^ (i + j) = a / 2 ^ i % 2 ^ j * 2 ^ i + a % 2 ^ i := by
  rw [Nat.pow_add, Nat.mod_mul, Nat.add_comm, Nat.mul_comm]

theorem mul_add_div_of_lt {b r : Nat} (h : r < b) : (q * b + r) / b = q := by
  rw [Nat.mul_comm, Nat.mul_add_div (Nat.zero_lt_of_lt h), Nat.div_eq_of_lt h, Nat.add_zero]

theorem div_two_pow_lt {j : Nat} (h : m < 2 ^ (i + j)) : m / 2 ^ j < 2 ^ i := by
  rw [Nat.div_lt_iff_lt_mul (Nat.two_pow_pos j), ← Nat.pow_add]
  exact h

/-- The high bits are shifted out of a 16-bit accumulator. -/
theorem accum_shiftLeft (hn : n ≤ 16) :
    (a <<< n) % 2 ^ 16 = (a % 2 ^ (16 - n)) <<< n := by
  rw [Nat.shiftLeft_eq, Nat.shiftLeft_eq, ← Nat.pow_sub_mul_pow 2 hn, Nat.mul_mod_mul_right]

/-- Bits shifted into a 16-bit accumulator. -/
theorem accum_shift (hm : m < 2 ^ n) (hn : n ≤ E) (hE : E ≤ 16) :
    ((a <<< n) % 2 ^ 16 ||| m) % 2 ^ (16 - E + n) = a % 2 ^ (16 - E) * 2 ^ n + m := by
  have hsub : a % 2 ^ (16 - n) % 2 ^ (16 - E) = a % 2 ^ (16 - E) :=
    Nat.mod_mod_of_dvd _ (Nat.pow_dvd_pow 2 (by omega))
  rw [accum_shiftLeft (Nat.le_trans hn hE), ← Nat.shiftLeft_add_eq_or_of_lt hm, Nat.shiftLeft_eq,
    Nat.add_comm (16 - E) n, mod_two_pow_add, mul_add_div_of_lt hm, hsub, Nat.mul_add_mod_of_lt hm]

/-- A word that is completed by the first bits of a code. -/
theorem accum_complete (hm : m < 2 ^ (E + d)) (hE : E ≤ 16) :
    (a <<< E) % 2 ^ 16 ||| m >>> d = a % 2 ^ (16 - E) * 2 ^ E + m / 2 ^ d := by
  rw [accum_shiftLeft hE, Nat.shiftRight_eq_div_pow,
    ← Nat.shiftLeft_add_eq_or_of_lt (div_two_pow_lt hm), Nat.shiftLeft_eq]

theorem accum_complete_lt (hm : m < 2 ^ (E + d)) (hE : E ≤ 16) :
    a % 2 ^ (16 - E) * 2 ^ E + m / 2 ^ d < 2 ^ 16 := by
  have hlow : m >>> d < 2 ^ 16 := by
    rw [Nat.shiftRight_eq_div_pow]
    exact Nat.lt_of_lt_of_le (div_two_pow_lt hm) (Nat.pow_le_pow_right (by decide) hE)
  rw [← accum_complete hm hE]
  exact Nat.or_lt_two_pow (Nat.mod_lt _ (Nat.two_pow_pos 16)) hlow

theorem le16_congr {bs bs' : Bytes} (h₀ : bs[i]? = bs'[i]?) (h₁ : bs[i + 1]? = bs'[i + 1]?) :
    bs.le16 i = bs'.le16 i := by
  have hslice : bs.slice i 2 = bs'.slice i 2 := by
    apply ext_getElem?
    intro j
    simp only [slice, getElem?_take]
    rcases j with _ | _ | j
    · simpa using h₀
    · simpa using h₁
    · rfl
  unfold le16
  rw [hslice]

theorem readU16_of_le {bs : Bytes} (h : i + 2 ≤ bs.length) :
    readU16 checked bs i = .ok (bs.le16 i) := by
  rw [readU16, if_neg (by omega)]

/-! ### Bits -/

section Bits

variable {e : BitEncoder} {fin : Bytes} {value n : Nat}

theorem BitEncoder.Open.fits (h : e.Open) (word : Nat) :
    e.ptr0 + (toLE 2 word).length ≤ e.stream.length := by
  have ⟨hp0, hp1, _⟩ := h
  rw [length_toLE]
  omega

/-- What holds a word in the first slot, and may hold anything in the second, is allowed. -/
theorem BitEncoder.Allows.of_word (h : e.Open) {word : Nat} (hlt : word < 2 ^ 16)
    (hhigh : word / 2 ^ e.extraBits = e.accum % 2 ^ (16 - e.extraBits))
    (hlen : e.stream.length ≤ fin.length)
    (hkeep : ∀ i < e.stream.length, ¬(e.ptr1 ≤ i ∧ i < e.ptr1 + 2) →
      fin[i]? = (e.stream.splice e.ptr0 (toLE 2 word))[i]?) :
    e.Allows fin ∧ fin.le16 e.ptr0 = word := by
  have ⟨hp0, hp1, _⟩ := h
  have hword : fin.le16 e.ptr0 = word := by
    rw [le16_congr (hkeep e.ptr0 (by omega) (by omega)) (hkeep (e.ptr0 + 1) (by omega) (by omega)),
      le16_splice_self word (by omega), Nat.mod_eq_of_lt hlt]
  refine ⟨⟨hlen, fun i hi hslot => ?_, hword ▸ hhigh⟩, hword⟩
  have ⟨hout₀, hout₁⟩ := not_or.mp hslot
  rw [hkeep i hi hout₁, getElem?_splice (h.fits word), length_toLE, if_neg hout₀]

/-- What the decoder finds at the top of its register. -/
theorem reader_split (h : e.Open) {w : Nat} (hn : n + w = 16 + e.extraBits) (hq : q < 2 ^ w)
    (hv : e.unread fin = m * 2 ^ w + q) :
    (e.reader fin).nextBits / 2 ^ (32 - n) = m ∧
      ((e.reader fin).nextBits <<< n) % 2 ^ 32 = aligned 32 w q := by
  have hE := h.extraBits
  unfold reader
  rw [hv, ← hn]
  exact ⟨aligned_div (by omega) hq, aligned_shiftLeft_mod (by omega) hq⟩

/-- Coding bits leaves the encoder open. -/
theorem encodeBits_open (h : e.Open) (hn : n ≤ 15) : (encodeBits e value n).Open := by
  have ⟨hp0, hp1, hE⟩ := h
  unfold encodeBits
  split
  · exact h
  split
  · refine ⟨hp1, ?_, ?_⟩
    · dsimp only
      rw [length_append, length_splice (h.fits _), length_cons, length_singleton]
    · dsimp only
      omega
  · exact ⟨hp0, hp1, by dsimp only; omega⟩

/-- The bits fit the open slot. -/
theorem encodeBits_fits (h : e.Open) (hpos : 0 < n) (hle : n ≤ e.extraBits)
    (hallows : (encodeBits e value n).Allows fin) : e.Allows fin ∧
      (e.reader fin).nextBits / 2 ^ (32 - n) = value % 2 ^ n ∧
      consume checked fin n (e.reader fin) = .ok ((encodeBits e value n).reader fin) := by
  have hE := h.extraBits
  have hm := Nat.mod_lt value (Nat.two_pow_pos n)
  have heq : encodeBits e value n = { e with
      accum := (e.accum <<< n) % 2 ^ 16 ||| value % 2 ^ n
      extraBits := e.extraBits - n } := by
    rw [encodeBits, if_neg (by omega)]
    rw [if_neg (by omega)]
  rw [heq] at hallows ⊢
  have hword := hallows.word
  rw [show 16 - (e.extraBits - n) = 16 - e.extraBits + n by omega, accum_shift hm hle hE] at hword
  have hfirst : fin.le16 e.ptr0 / 2 ^ e.extraBits = e.accum % 2 ^ (16 - e.extraBits) := by
    rw [show e.extraBits = e.extraBits - n + n by omega, Nat.pow_add, ← Nat.div_div_eq_div_mul,
      hword, mul_add_div_of_lt hm, Nat.sub_add_cancel hle]
  have hrest : fin.le16 e.ptr0 % 2 ^ e.extraBits = value % 2 ^ n * 2 ^ (e.extraBits - n) +
      fin.le16 e.ptr0 % 2 ^ (e.extraBits - n) := by
    conv_lhs => rw [show e.extraBits = e.extraBits - n + n by omega]
    rw [mod_two_pow_add, hword, Nat.mul_add_mod_of_lt hm]
  let e' : BitEncoder := { e with extraBits := e.extraBits - n }
  have hunread : e.unread fin = value % 2 ^ n * 2 ^ (16 + (e.extraBits - n)) + e'.unread fin := by
    rw [unread, hrest, unread]
    ring
  obtain ⟨htop, hshift⟩ := reader_split h (show n + (16 + (e.extraBits - n)) = _ by omega)
    (e'.unread_lt fin) hunread
  refine ⟨⟨hallows.length, hallows.keep, hfirst⟩, htop, ?_⟩
  rw [consume, hshift, if_neg (show ¬(e.reader fin).extraBitCount < n from Nat.not_lt.mpr hle)]
  rfl

/-- The bits complete the open slot, and a new slot is opened. -/
theorem encodeBits_completes (h : e.Open) (hgt : e.extraBits < n) (hn : n ≤ 15)
    (hallows : (encodeBits e value n).Allows fin) : e.Allows fin ∧
      (e.reader fin).nextBits / 2 ^ (32 - n) = value % 2 ^ n ∧
      consume checked fin n (e.reader fin) = .ok ((encodeBits e value n).reader fin) := by
  have ⟨hp0, hp1, hE⟩ := h
  have hm := Nat.mod_lt value (Nat.two_pow_pos n)
  obtain ⟨d, rfl⟩ : ∃ d, n = e.extraBits + d := ⟨n - e.extraBits, by omega⟩
  have heq : encodeBits e value (e.extraBits + d) =
      { stream := e.stream.splice e.ptr0 (toLE 2 (e.accum % 2 ^ (16 - e.extraBits) *
          2 ^ e.extraBits + value % 2 ^ (e.extraBits + d) / 2 ^ d)) ++ [0, 0]
        ptr0 := e.ptr1
        ptr1 := e.stream.length
        accum := value % 2 ^ (e.extraBits + d)
        extraBits := 16 - d } := by
    rw [encodeBits, if_neg (by omega)]
    dsimp only
    rw [if_pos hgt, Nat.add_sub_cancel_left, accum_complete hm hE,
      show e.extraBits + 16 - (e.extraBits + d) = 16 - d by omega]
  rw [heq] at hallows ⊢
  generalize hvalue : value % 2 ^ (e.extraBits + d) = m at *
  have hlt := accum_complete_lt (a := e.accum) hm hE
  generalize hfirst : e.accum % 2 ^ (16 - e.extraBits) * 2 ^ e.extraBits + m / 2 ^ d = word at *
  have hsplice := length_splice (h.fits word)
  have hlength := hallows.length
  rw [length_append, hsplice] at hlength
  -- The bytes that the new state keeps.
  have hkeep : ∀ i < e.stream.length, ¬(e.ptr1 ≤ i ∧ i < e.ptr1 + 2) →
      fin[i]? = (e.stream.splice e.ptr0 (toLE 2 word))[i]? := by
    intro i hi hslot
    have hk := hallows.keep i
    rw [length_append, hsplice, getElem?_append_left (by rw [hsplice]; exact hi)] at hk
    refine hk (by omega) ?_
    rintro (h | h)
    · exact hslot h
    · dsimp only at h
      omega
  have hw1 : fin.le16 e.ptr1 / 2 ^ (16 - d) = m % 2 ^ d := by
    have hword := hallows.word
    rwa [show 16 - (16 - d) = d by omega] at hword
  have hmd := div_two_pow_lt hm
  obtain ⟨hallowed, hw0⟩ := BitEncoder.Allows.of_word h hlt
    (by rw [← hfirst, mul_add_div_of_lt hmd]) (by omega) hkeep
  have hmod0 : fin.le16 e.ptr0 % 2 ^ e.extraBits = m / 2 ^ d := by
    rw [hw0, ← hfirst, Nat.mul_add_mod_of_lt hmd]
  have hunread : e.unread fin = m * 2 ^ (16 - d) + fin.le16 e.ptr1 % 2 ^ (16 - d) := by
    have hsplit1 : fin.le16 e.ptr1 = m % 2 ^ d * 2 ^ (16 - d) + fin.le16 e.ptr1 % 2 ^ (16 - d) := by
      rw [← hw1, Nat.mul_comm, Nat.div_add_mod]
    rw [unread, hmod0, ← Nat.pow_sub_mul_pow 2 (show d ≤ 16 by omega)]
    calc m / 2 ^ d * (2 ^ (16 - d) * 2 ^ d) + fin.le16 e.ptr1
        = m / 2 ^ d * (2 ^ (16 - d) * 2 ^ d) + (m % 2 ^ d * 2 ^ (16 - d) +
            fin.le16 e.ptr1 % 2 ^ (16 - d)) := by rw [← hsplit1]
      _ = (2 ^ d * (m / 2 ^ d) + m % 2 ^ d) * 2 ^ (16 - d) +
            fin.le16 e.ptr1 % 2 ^ (16 - d) := by ring
      _ = m * 2 ^ (16 - d) + fin.le16 e.ptr1 % 2 ^ (16 - d) := by rw [Nat.div_add_mod]
  obtain ⟨htop, hshift⟩ := reader_split h (show e.extraBits + d + (16 - d) = _ by omega)
    (Nat.mod_lt _ (Nat.two_pow_pos _)) hunread
  refine ⟨hallowed, htop, ?_⟩
  have hregister : aligned 32 (16 - d) (fin.le16 e.ptr1 % 2 ^ (16 - d)) |||
      (fin.le16 e.stream.length <<< (e.extraBits + d - e.extraBits)) % 2 ^ 32 =
      aligned 32 (16 + (16 - d))
        (fin.le16 e.ptr1 % 2 ^ (16 - d) * 2 ^ 16 + fin.le16 e.stream.length) := by
    have hsmall : fin.le16 e.stream.length <<< d < 2 ^ 32 := by
      rw [Nat.shiftLeft_eq]
      exact Nat.lt_of_lt_of_le (mul_two_pow_lt (fin.le16_lt _) d)
        (Nat.pow_le_pow_right (by decide) (by omega))
    have hor := aligned_or (n := 32) (q := fin.le16 e.ptr1 % 2 ^ (16 - d))
      (show 16 - d + 16 ≤ 32 by omega) (fin.le16_lt e.stream.length)
    rw [show 32 - (16 - d + 16) = d by omega, Nat.add_comm (16 - d)] at hor
    rw [Nat.add_sub_cancel_left, Nat.mod_eq_of_lt hsmall, hor]
  have hread : readU16 checked fin (e.reader fin).pos = .ok (fin.le16 e.stream.length) :=
    readU16_of_le checked hlength
  rw [consume, hshift, if_pos (show (e.reader fin).extraBitCount < e.extraBits + d from hgt), hread]
  refine congrArg Except.ok ?_
  unfold reader
  rw [BitState.mk.injEq]
  refine ⟨?_, hregister, ?_⟩
  · dsimp only
    rw [length_append, hsplice]
    rfl
  · dsimp only
    omega

/-- The decoder finds the bits that the encoder was given. -/
theorem encodeBits_spec (h : e.Open) (hpos : 0 < n) (hn : n ≤ 15)
    (hallows : (encodeBits e value n).Allows fin) :
    e.Allows fin ∧ (e.reader fin).nextBits / 2 ^ (32 - n) = value % 2 ^ n ∧
      consume checked fin n (e.reader fin) = .ok ((encodeBits e value n).reader fin) := by
  rcases Nat.lt_or_ge e.extraBits n with hgt | hle
  · exact encodeBits_completes checked h hgt hn hallows
  · exact encodeBits_fits checked h hpos hle hallows

end Bits

/-! ### Bytes between the words -/

/-- The encoder after bytes have been appended. -/
def BitEncoder.push (e : BitEncoder) (bs : Bytes) : BitEncoder :=
  { e with stream := e.stream ++ bs }

section Bytes

variable {e : BitEncoder} {fin bs : Bytes}

theorem BitEncoder.Open.push (h : e.Open) : (e.push bs).Open := by
  refine ⟨h.ptr0, ?_, h.extraBits⟩
  have hp1 := h.ptr1
  change e.ptr1 + 2 ≤ (e.stream ++ bs).length
  rw [length_append]
  omega

/-- A pushed byte string stands in every stream that follows. -/
theorem BitEncoder.Allows.of_push (h : e.Open) (hallows : (e.push bs).Allows fin) :
    e.Allows fin ∧ fin.slice e.stream.length bs.length = bs ∧
      e.stream.length + bs.length ≤ fin.length := by
  have ⟨hp0, hp1, _⟩ := h
  have hlength : (e.stream ++ bs).length ≤ fin.length := hallows.length
  rw [length_append] at hlength
  have hkeep : ∀ i < (e.stream ++ bs).length, ¬e.IsSlot i → fin[i]? = (e.stream ++ bs)[i]? :=
    hallows.keep
  refine ⟨⟨by omega, fun i hi hslot => ?_, hallows.word⟩, ?_, hlength⟩
  · rw [hkeep i (by rw [length_append]; omega) hslot, getElem?_append_left hi]
  · apply ext_getElem?
    intro i
    simp only [slice, getElem?_take, getElem?_drop]
    split
    · rw [hkeep _ (by rw [length_append]; omega),
        getElem?_append_right (Nat.le_add_right _ _), Nat.add_sub_cancel_left]
      rintro (hslot | hslot) <;> omega
    · rw [getElem?_eq_none (by omega)]

theorem BitEncoder.reader_push (bs : Bytes) :
    (e.push bs).reader fin = { e.reader fin with pos := e.stream.length + bs.length } := by
  unfold push reader unread
  rw [length_append]

/-- A match length is read back from its header and its extension bytes. -/
theorem readLength_spec {length pos : Nat} (hmin : 3 ≤ length) (hmax : length ≤ 65538)
    (hslice : fin.slice pos (encodeLength length).2.bytes.length = (encodeLength length).2.bytes)
    (hfits : pos + (encodeLength length).2.bytes.length ≤ fin.length) :
    readLength checked fin (encodeLength length).1 pos =
      .ok (length, pos + (encodeLength length).2.bytes.length) := by
  have hbyte : ∀ {b : UInt8} {bs : Bytes}, fin.slice pos (b :: bs).length = b :: bs →
      pos < fin.length → readByte checked fin pos = .ok b.toNat := by
    intro b bs hs hlt
    have hget : fin[pos]? = some b := by
      have h := congrArg (·[0]?) hs
      simpa [slice] using h
    rw [readByte, if_neg (by omega), getD_eq_getElem?_getD, hget, Option.getD_some]
  unfold encodeLength at hslice hfits ⊢
  dsimp only at hslice hfits ⊢
  split
  · rename_i hsmall
    rw [readLength, if_pos hsmall]
    exact congrArg Except.ok (Prod.ext (by dsimp only; omega) rfl)
  rename_i hlong
  rw [if_neg hlong] at hslice hfits
  split
  · rename_i hsmall
    rw [if_pos hsmall] at hslice hfits
    dsimp only [LengthExt.bytes] at hslice hfits ⊢
    rw [readLength, hbyte hslice (by simp at hfits; omega)]
    have hval : (UInt8.ofNat (length - 3 - 15)).toNat = length - 3 - 15 :=
      UInt8.toNat_ofNat_of_lt' (Nat.lt_trans hsmall (by decide))
    simp only [bind, Except.bind]
    rw [hval, if_pos hsmall]
    exact congrArg Except.ok (Prod.ext (by dsimp only; omega) rfl)
  · rename_i hhuge
    rw [if_neg hhuge, if_pos (show length - 3 ≤ 65535 by omega)] at hslice hfits
    rw [if_pos (show length - 3 ≤ 65535 by omega)]
    dsimp only [LengthExt.bytes] at hslice hfits ⊢
    rw [length_cons, length_toLE] at hfits
    rw [readLength, if_neg (by decide), hbyte hslice (by omega)]
    have hval : (UInt8.ofNat 255).toNat = 255 := rfl
    have hword : fin.le16 (pos + 1) = length - 3 := by
      have hs : fin.slice (pos + 1) 2 = toLE 2 (length - 3) := by
        have h := congrArg (drop 1) hslice
        rw [length_cons, length_toLE, drop_succ_cons, drop_zero] at h
        rw [← h]
        simp only [slice, drop_take, drop_drop]
      rw [le16, hs, ofLE_toLE 2 _ (by omega)]
    simp only [bind, Except.bind]
    rw [hval, if_neg (by decide), readU16_of_le checked (by omega), hword]
    dsimp only
    rw [if_neg (by omega), if_neg (by omega), length_cons, length_toLE]
    exact congrArg Except.ok (Prod.ext (by dsimp only; omega) rfl)

end Bytes

/-! ### Begin and end -/

theorem BitEncoder.new_open : new.Open := by
  constructor <;> decide

/-- The decoder starts with the first two words. -/
theorem BitEncoder.reader_new : new.reader fin =
    { pos := 4, nextBits := fin.le16 0 <<< 16 ||| fin.le16 2, extraBitCount := 16 } := by
  have hword : fin.le16 0 % 2 ^ 16 = fin.le16 0 := Nat.mod_eq_of_lt (fin.le16_lt 0)
  unfold reader unread aligned new
  rw [hword, ← Nat.shiftLeft_add_eq_or_of_lt (fin.le16_lt 2), Nat.shiftLeft_eq,
    show 2 ^ (32 - (16 + 16)) = 1 from rfl, Nat.mul_one]
  rfl

section Finish

variable {e : BitEncoder} (h : e.Open)
include h

theorem BitEncoder.length_finish : e.finish.length = e.stream.length := by
  have hword := length_splice (h.fits ((e.accum <<< e.extraBits) % 2 ^ 16))
  rw [finish, length_splice (by rw [hword]; exact h.ptr1), hword]

/-- What the final flush produces is allowed. -/
theorem BitEncoder.finish_allows (rest : Bytes) : e.Allows (e.finish ++ rest) := by
  have hlen := length_finish h
  have hword := length_splice (h.fits ((e.accum <<< e.extraBits) % 2 ^ 16))
  refine (BitEncoder.Allows.of_word h
    (Nat.mod_lt (e.accum <<< e.extraBits) (Nat.two_pow_pos 16)) ?_ ?_ ?_).1
  · rw [accum_shiftLeft h.extraBits, Nat.shiftLeft_eq, Nat.mul_div_cancel _ (Nat.two_pow_pos _)]
  · rw [length_append]
    omega
  · intro i hi hout
    rw [getElem?_append_left (by omega), finish, getElem?_splice (by rw [hword]; exact h.ptr1)]
    exact if_neg hout

end Finish

end Fsmnt.NtCompression.XpressHuffman
