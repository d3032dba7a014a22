import Fsmnt.Spec.NtCompression.HuffmanLengths
import Fsmnt.Spec.NtCompression.Xpress
import Fsmnt.Spec.NtCompression.XpressHuffmanStream
import Fsmnt.Spec.NtCompression.XpressHuffmanTable

/-!
# The decoder of a block follows the encoder

Symbol by symbol, on either path: a symbol of the stream gives back the token that it was made of.
-/

namespace Fsmnt.NtCompression.XpressHuffman

open CanonicalCode Lz77 BitEncoder

/-! ### Symbols -/

/-- A token of the block that starts at `s`. -/
structure BlockToken (x : Bytes) (s pos : Nat) (t : Token UInt8) : Prop where
  describes : t.Describes x pos
  span : 1 ≤ t.span
  copy : ∀ m, t = .copy m → s + m.offset ≤ pos ∧ m.offset ≤ 65535 ∧ 3 ≤ m.length ∧ m.length ≤ 65535

/-- The number of extra bits of a distance. -/
def distanceLog (offset : Nat) : Nat := if offset = 1 then 0 else Nat.log2 offset

/-- The logarithm of an offset, rounded down. -/
theorem distanceLog_spec {offset : Nat} (hpos : 1 ≤ offset) (hmax : offset ≤ 65535) :
    2 ^ distanceLog offset ≤ offset ∧ offset < 2 ^ (distanceLog offset + 1) ∧
      distanceLog offset ≤ 15 := by
  have hne : offset ≠ 0 := by omega
  unfold distanceLog
  split
  · rename_i hone
    subst hone
    decide
  · refine ⟨Nat.log2_self_le hne, Nat.lt_log2_self, ?_⟩
    have hlt : Nat.log2 offset < 16 := (Nat.log2_lt hne).mpr (by omega)
    omega

theorem encodeLength_header_le (length : Nat) : (encodeLength length).1 ≤ 15 := by
  unfold encodeLength
  dsimp only
  split_ifs <;> dsimp only <;> omega

theorem symbolEntry_copy (m : Match) : symbolEntry (.copy m) =
      { symbol := 256 + distanceLog m.offset * 16 + (encodeLength m.length).1
        distanceExtraValue :=
          if distanceLog m.offset = 0 then 0 else m.offset - 1 <<< distanceLog m.offset
        distanceExtraCount := distanceLog m.offset
        lengthExt := (encodeLength m.length).2 } := rfl

variable {t : Token UInt8}

/-- Every token has a symbol of the alphabet. -/
theorem symbol_lt {x : Bytes} {s pos : Nat} (ht : BlockToken x s pos t) :
    (symbolEntry t).symbol < NUM_SYMBOLS := by
  cases t with
  | literal a => exact Nat.lt_of_lt_of_le a.toNat_lt (by decide)
  | copy m =>
    obtain ⟨-, hmax, -, -⟩ := ht.copy m rfl
    have hoff : 1 ≤ m.offset := Repeats.offset_pos ht.describes
    have hlog := (distanceLog_spec hoff hmax).2.2
    have hheader := encodeLength_header_le m.length
    rw [symbolEntry_copy]
    dsimp only [NUM_SYMBOLS]
    omega

section Entry

variable {lengths : List Nat} {e : BitEncoder} {fin : Bytes} {entry : SymbolEntry}

/-- The codes of the encoder. -/
abbrev codesOf (lengths : List Nat) : List (Nat × Nat) :=
  assignCanonicalCodes lengths (countPerLength lengths)

/-- An entry: the code, the bytes of the length and the bits of the distance. -/
theorem encodeEntry_eq (hadm : Admissible 15 lengths) (hused : 0 < lengths.getD entry.symbol 0) :
    encodeEntry (codesOf lengths) e entry =
      let e₂ := (encodeBits e (code lengths entry.symbol) (lengths.getD entry.symbol 0)).push
        entry.lengthExt.bytes
      if entry.distanceExtraCount > 0 then
        encodeBits e₂ entry.distanceExtraValue entry.distanceExtraCount
      else e₂ := by
  unfold encodeEntry codesOf
  rw [assignCanonicalCodes_getD (fun l hl => Nat.le_succ_of_le (hadm.le l hl)) hused]
  rfl

theorem encodeEntry_open (hadm : Admissible 15 lengths) (h : e.Open)
    (hused : 0 < lengths.getD entry.symbol 0) (hcount : entry.distanceExtraCount ≤ 15) :
    (encodeEntry (codesOf lengths) e entry).Open := by
  have hmid : ((encodeBits e (code lengths entry.symbol) (lengths.getD entry.symbol 0)).push
      entry.lengthExt.bytes).Open := (encodeBits_open h (getD_le hadm.le _)).push
  rw [encodeEntry_eq hadm hused]
  split
  · exact encodeBits_open hmid hcount
  · exact hmid

/-- The distance of a match is read back from its extra bits. -/
theorem readDistance_spec (checked : Bool) (h : e.Open) {offset : Nat} (hpos : 1 ≤ offset)
    (hmax : offset ≤ 65535) (hallows : (if distanceLog offset > 0 then
      encodeBits e (if distanceLog offset = 0 then 0 else offset - 1 <<< distanceLog offset)
        (distanceLog offset) else e).Allows fin) :
    e.Allows fin ∧ readDistance checked fin (distanceLog offset) (e.reader fin) =
      .ok (offset, (if distanceLog offset > 0 then
        encodeBits e (if distanceLog offset = 0 then 0 else offset - 1 <<< distanceLog offset)
          (distanceLog offset) else e).reader fin) := by
  obtain ⟨hlow, hhigh, hlog⟩ := distanceLog_spec hpos hmax
  unfold readDistance
  by_cases hzero : distanceLog offset = 0
  · rw [hzero] at hallows
    rw [hzero, if_pos rfl]
    rw [hzero] at hlow hhigh
    refine ⟨hallows, congrArg Except.ok (Prod.ext ?_ rfl)⟩
    omega
  have hgt : distanceLog offset > 0 := Nat.pos_of_ne_zero hzero
  rw [if_pos hgt, if_neg hzero] at hallows
  rw [if_neg hzero, if_pos hgt, if_neg hzero]
  obtain ⟨hallowed, htop, hrun⟩ := encodeBits_spec checked h hgt hlog hallows
  refine ⟨hallowed, ?_⟩
  rw [hrun, Nat.shiftRight_eq_div_pow, htop, Nat.mod_eq_of_lt (by omega)]
  refine congrArg Except.ok (Prod.ext ?_ rfl)
  rw [Nat.one_shiftLeft]
  omega

/-- A match symbol: the length, then the distance. -/
theorem readMatch_spec (checked : Bool) {m : Match} {st : BitState} (hmin : 3 ≤ m.length)
    (hmax : m.length ≤ 65535)
    (hslice : fin.slice e.stream.length (encodeLength m.length).2.bytes.length =
      (encodeLength m.length).2.bytes)
    (hfits : e.stream.length + (encodeLength m.length).2.bytes.length ≤ fin.length)
    (hdistance : readDistance checked fin (distanceLog m.offset)
      ((e.push (encodeLength m.length).2.bytes).reader fin) = .ok (m.offset, st)) :
    readMatch checked fin (256 + distanceLog m.offset * 16 + (encodeLength m.length).1)
      (e.reader fin) = .ok (m, st) := by
  have hheader := encodeLength_header_le m.length
  have hlength : readLength checked fin (encodeLength m.length).1 (e.reader fin).pos =
      .ok (m.length, e.stream.length + (encodeLength m.length).2.bytes.length) :=
    readLength_spec checked hmin (by omega) hslice hfits
  rw [reader_push] at hdistance
  unfold readMatch
  dsimp only
  rw [show (256 + distanceLog m.offset * 16 + (encodeLength m.length).1 - 256) % 16 =
      (encodeLength m.length).1 by omega,
    show (256 + distanceLog m.offset * 16 + (encodeLength m.length).1 - 256) >>> 4 =
      distanceLog m.offset by rw [Nat.shiftRight_eq_div_pow]; omega, hlength]
  simp only [bind, Except.bind]
  rw [hdistance]

end Entry

/-! ### One symbol -/

/-- The copies of the two paths. -/
def Copies (copy : Bytes → Nat → Nat → Nat → Nat → Except Error Bytes) : Prop :=
  ∀ {x buf : Bytes} {pos limit : Nat} {m : Match}, Repeats x pos m → 1 ≤ m.length →
    pos + m.length ≤ limit → limit ≤ buf.length → buf.take pos = x.take pos →
    ∃ buf', copy buf pos m.offset m.length limit = .ok buf' ∧
      buf'.take (pos + m.length) = x.take (pos + m.length) ∧ buf'.length = buf.length

theorem copies_guarded (level : SimdLevel) : Copies (copyMatchGuarded level) := by
  intro x buf pos limit m h _ hlimit hbuf hagree
  obtain ⟨htake, hlen⟩ := take_copyMatchFast level h (show pos + m.length ≤ buf.length by omega)
    hagree
  exact ⟨_, if_neg (by omega), htake, hlen⟩

theorem copies_checked : Copies copyMatch := by
  intro x buf pos limit m h hlen hlimit hbuf hagree
  have hoff := h.offset_le
  have hroom : pos + m.length ≤ buf.length := by omega
  unfold copyMatch
  rw [if_neg (by omega)]
  split
  · exact ⟨_, rfl, take_copyWithin hagree (by omega) hroom h.eq, length_copyWithin (by omega) hroom⟩
  split
  · rename_i hone
    obtain ⟨hdone, hkeep⟩ := Xpress.take_fillLoop h hone hlen hroom hagree
    exact ⟨_, rfl, hdone, hkeep⟩
  · obtain ⟨hdone, hkeep⟩ := take_copyTiers h
      (show ∀ tier ∈ [(16, [8]), (8, [])], ∀ t ∈ tier.2, t ≤ tier.1 by decide) hroom hagree
    exact ⟨_, rfl, hdone, hkeep⟩

section Decoder

variable {lengths : List Nat} {table : PackedDecodeTable} {fin x : Bytes} {s limit pos : Nat}
  {copy : Bytes → Nat → Nat → Nat → Nat → Except Error Bytes} {ts : List (Token UInt8)}
  {e : BitEncoder} (checked : Bool)

/-- The decoder follows the encoder over one token. -/
theorem decodeSymbol_spec (hcopy : Copies copy) (hdec : Decodes lengths table)
    (hadm : Admissible 15 lengths) (h : e.Open) {buf : Bytes} (ht : BlockToken x s pos t)
    (hused : 0 < lengths.getD (symbolEntry t).symbol 0) (hlimit : pos + t.span ≤ limit)
    (hbuf : limit ≤ buf.length) (hagree : buf.take pos = x.take pos)
    (hallows : (encodeEntry (codesOf lengths) e (symbolEntry t)).Allows fin) :
    e.Allows fin ∧ ∃ buf', decodeSymbol checked copy table fin s limit (e.reader fin) buf pos =
        .ok ((encodeEntry (codesOf lengths) e (symbolEntry t)).reader fin, buf', pos + t.span) ∧
      buf'.length = buf.length ∧ buf'.take (pos + t.span) = x.take (pos + t.span) := by
  have hlen := getD_le hadm.le (symbolEntry t).symbol
  -- The code, in the register of the decoder.
  have hcode : ∀ {bs : Bytes}, ((encodeBits e (code lengths (symbolEntry t).symbol)
        (lengths.getD (symbolEntry t).symbol 0)).push bs).Allows fin →
      e.Allows fin ∧ table.decode (e.reader fin).nextBits =
          .ok ((symbolEntry t).symbol, lengths.getD (symbolEntry t).symbol 0) ∧
        consume checked fin (lengths.getD (symbolEntry t).symbol 0) (e.reader fin) =
          .ok ((encodeBits e (code lengths (symbolEntry t).symbol)
            (lengths.getD (symbolEntry t).symbol 0)).reader fin) := by
    intro bs hpush
    obtain ⟨hallowed, htop, hrun⟩ := encodeBits_spec checked h hused hlen
      (BitEncoder.Allows.of_push (encodeBits_open h hlen) hpush).1
    rw [Nat.mod_eq_of_lt (hadm.code_lt_two_pow hused)] at htop
    have hbits : (e.reader fin).nextBits < 2 ^ 32 :=
      BitRegister.aligned_lt (by have := h.extraBits; omega) (e.unread_lt fin)
    exact ⟨hallowed, hdec.decode _ _ hused hbits htop, hrun⟩
  rw [encodeEntry_eq hadm hused] at hallows ⊢
  unfold decodeSymbol
  cases t with
  | literal a =>
    have hzero : ¬(symbolEntry (.literal a)).distanceExtraCount > 0 := Nat.lt_irrefl 0
    rw [if_neg hzero] at hallows ⊢
    obtain ⟨hallowed, hdecode, hconsume⟩ := hcode hallows
    refine ⟨hallowed, buf.set pos a, ?_, List.length_set,
      take_set hagree (show pos < buf.length by change pos + 1 ≤ limit at hlimit; omega)
        ht.describes⟩
    rw [hdecode]
    simp only [bind, Except.bind]
    rw [hconsume]
    dsimp only
    have hbyte : UInt8.ofNat (symbolEntry (.literal a)).symbol = a := UInt8.ofNat_toNat
    rw [if_pos (show (symbolEntry (.literal a)).symbol < 256 from a.toNat_lt), hbyte, reader_push]
    rfl
  | copy m =>
    obtain ⟨hblock, hmax, hmin, hlong⟩ := ht.copy m rfl
    have hoff : 1 ≤ m.offset := Repeats.offset_pos ht.describes
    have hopen : (encodeBits e (code lengths (symbolEntry (.copy m)).symbol)
        (lengths.getD (symbolEntry (.copy m)).symbol 0)).Open := encodeBits_open h hlen
    rw [symbolEntry_copy] at hallows hused hcode hlen hopen ⊢
    obtain ⟨hpush, hdistance⟩ := readDistance_spec checked hopen.push hoff hmax hallows
    obtain ⟨-, hslice, hfits⟩ := BitEncoder.Allows.of_push hopen hpush
    obtain ⟨hallowed, hdecode, hconsume⟩ := hcode hpush
    obtain ⟨buf', hrun, htake, hkeep⟩ := hcopy ht.describes (Nat.le_trans (by decide) hmin) hlimit
      hbuf hagree
    refine ⟨hallowed, buf', ?_, hkeep, htake⟩
    rw [hdecode]
    simp only [bind, Except.bind]
    rw [hconsume]
    dsimp only
    rw [if_neg (by omega), readMatch_spec checked hmin hlong hslice hfits hdistance]
    dsimp only
    rw [if_neg (by omega), hrun]
    rfl

/-! ### The symbols of a block -/

theorem distanceExtraCount_le (ht : BlockToken x s pos t) :
    (symbolEntry t).distanceExtraCount ≤ 15 := by
  cases t with
  | literal a => exact Nat.zero_le 15
  | copy m =>
    obtain ⟨-, hmax, -, -⟩ := ht.copy m rfl
    exact (distanceLog_spec (Repeats.offset_pos ht.describes) hmax).2.2

/-- The encoder after the tokens of a block. -/
def encodeTokens (lengths : List Nat) (e : BitEncoder) (ts : List (Token UInt8)) : BitEncoder :=
  (ts.map symbolEntry).foldl (encodeEntry (codesOf lengths)) e

/-- Tokens of a block from `pos` to its end, all of which have a code. -/
structure Coded (lengths : List Nat) (x : Bytes) (s limit pos : Nat) (ts : List (Token UInt8)) :
    Prop where
  parses : Parses (BlockToken x s) pos ts limit
  used : ∀ t ∈ ts, 0 < lengths.getD (symbolEntry t).symbol 0

theorem Coded.tail (h : Coded lengths x s limit pos (t :: ts)) :
    Coded lengths x s limit (pos + t.span) ts :=
  ⟨h.parses.2, fun u hu => h.used u (List.mem_cons_of_mem t hu)⟩

/-- What the encoder allows after the tokens it allows before them: the decoder that already has
    the whole output follows it. -/
theorem Coded.allows (hdec : Decodes lengths table) (hadm : Admissible 15 lengths)
    (h : Coded lengths x s limit pos ts) (hopen : e.Open)
    (hallows : (encodeTokens lengths e ts).Allows fin) : e.Allows fin := by
  induction ts generalizing pos e with
  | nil =>
    exact hallows
  | cons t ts ih =>
    have ht : BlockToken x s pos t := h.parses.1
    have hused := h.used t List.mem_cons_self
    have hnext := encodeEntry_open hadm hopen hused (distanceExtraCount_le ht)
    exact (decodeSymbol_spec true copies_checked hdec hadm hopen ht hused le_rfl
      (show pos + t.span ≤ x.length from ht.describes.span_le) rfl (ih h.tail hnext hallows)).1

/-- The decoder after the tokens before `ts`. -/
structure Follows (lengths : List Nat) (x fin : Bytes) (s limit : Nat) (last : BitEncoder)
    (st : BitState) (buf : Bytes) (pos : Nat) : Prop where
  encoder : ∃ e ts, e.Open ∧ st = e.reader fin ∧ Coded lengths x s limit pos ts ∧
    encodeTokens lengths e ts = last
  room : limit ≤ buf.length
  agree : buf.take pos = x.take pos

/-- A loop of the decoder stays in step with the encoder, until its guard fails or the block is
    done. -/
theorem decodeLoop_spec (hcopy : Copies copy) (hdec : Decodes lengths table)
    (hadm : Admissible 15 lengths) {last : BitEncoder} (hlast : last.Allows fin)
    (guard : BitState → Nat → Bool) (hguard : ∀ st pos, guard st pos = true → pos < limit)
    (fuel : Nat) (st : BitState) (buf : Bytes) (pos : Nat) (hfuel : limit ≤ fuel + pos)
    (h : Follows lengths x fin s limit last st buf pos) :
    ∃ st' buf' pos',
      decodeLoop guard (decodeSymbol checked copy table fin s limit) fuel st buf pos =
        .ok (st', buf', pos') ∧ Follows lengths x fin s limit last st' buf' pos' ∧
      buf'.length = buf.length ∧ guard st' pos' = false := by
  induction fuel generalizing st buf pos with
  | zero =>
    refine ⟨st, buf, pos, rfl, h, rfl, ?_⟩
    rw [Bool.eq_false_iff]
    intro hgo
    have := hguard st pos hgo
    omega
  | succ fuel ih =>
    rw [decodeLoop]
    cases hgo : guard st pos with
    | false =>
      exact ⟨st, buf, pos, rfl, h, rfl, hgo⟩
    | true =>
      have hlt := hguard st pos hgo
      obtain ⟨⟨e, ts, hopen, rfl, hcoded, hrest⟩, hroom, hagree⟩ := h
      cases ts with
      | nil =>
        have heq : limit = pos := hcoded.parses
        omega
      | cons t ts =>
        have ht : BlockToken x s pos t := hcoded.parses.1
        have hused := hcoded.used t List.mem_cons_self
        have hnext := encodeEntry_open hadm hopen hused (distanceExtraCount_le ht)
        have hallows : (encodeEntry (codesOf lengths) e (symbolEntry t)).Allows fin :=
          hcoded.tail.allows hdec hadm hnext (by rw [← hrest] at hlast; exact hlast)
        have hend := hcoded.tail.parses.le
        have hspan := ht.span
        obtain ⟨-, buf₁, hstep, hlen₁, hagree₁⟩ := decodeSymbol_spec checked hcopy hdec hadm hopen
          ht hused hend hroom hagree hallows
        rw [hstep]
        obtain ⟨st', buf', pos', hrun, hdone, hlen, hstop⟩ := ih _ buf₁ (pos + t.span) (by omega)
          ⟨⟨_, ts, hnext, rfl, hcoded.tail, hrest⟩, by omega, hagree₁⟩
        exact ⟨st', buf', pos', hrun, hdone, hlen.trans hlen₁, hstop⟩

end Decoder

end Fsmnt.NtCompression.XpressHuffman
