import Fsmnt.Native.NtCompression.Lznt1
import Fsmnt.Spec.NtCompression.Basic

/-!
# LZNT1 round trip

The format lies between encoder and decoder: the bytes of an item, of a group behind its flag
byte, of a chunk and of a stream. The encoder writes the code of some parse of its input; the
decoder, run on the code of a parse, expands it.
-/

namespace Fsmnt.NtCompression.Lznt1

open Bytes List Lz77 Option

variable {chunk output x code rest input : Bytes} {pos outPos size : Nat} {st st' : ChunkEncoder}
  {m : Match} {ts : List (Token UInt8)} {t : Token UInt8}

/-! ### Format -/

theorem bitWidths_fst_le (pos : Nat) : (bitWidths pos).1 ≤ 12 := by
  have hloop : ∀ shift threshold, bitWidthsLoop pos shift threshold ≤ shift := by
    intro shift
    induction shift with
    | zero => intro threshold; exact Nat.le_refl 0
    | succ shift ih =>
      intro threshold
      rw [bitWidthsLoop]
      split
      · exact Nat.le_trans (ih _) (Nat.le_succ shift)
      · exact Nat.le_refl _
  exact hloop 12 0x10

/-- A match that the word at a position can hold. -/
def Fits (pos : Nat) (m : Match) : Prop :=
  m.offset ≤ 2 ^ (16 - (bitWidths pos).1) ∧ 3 ≤ m.length ∧ m.length - 3 < 2 ^ (bitWidths pos).1

/-- What the encoder emits at a position of a chunk. -/
def ItemOk (chunk : Bytes) (pos : Nat) : Token UInt8 → Prop
  | .literal a => chunk[pos]? = some a
  | .copy m => Repeats chunk pos m ∧ Fits pos m

theorem ItemOk.describes (pos : Nat) (t : Token UInt8) (h : ItemOk chunk pos t) :
    t.Describes chunk pos := by
  cases t with
  | literal a => exact h
  | copy m => exact h.1

theorem ItemOk.span_pos (h : ItemOk chunk pos t) : 1 ≤ t.span := by
  cases t with
  | literal a => exact Nat.le_refl 1
  | copy m => exact Nat.le_trans (by decide) h.2.2.1

/-- The word of a match. -/
def matchWord (pos : Nat) (m : Match) : Nat :=
  ((m.offset - 1) <<< (bitWidths pos).1) % 2 ^ 16 ||| (m.length - 3)

/-- A match is read back from its word. -/
theorem decodeMatch_matchWord (h : Fits pos m) (hoff : 1 ≤ m.offset) :
    decodeMatch (matchWord pos m) pos = m ∧ matchWord pos m < 2 ^ 16 := by
  obtain ⟨hdisp, hmin, hlen⟩ := h
  have hbits := bitWidths_fst_le pos
  have hword : (m.offset - 1) <<< (bitWidths pos).1 < 2 ^ 16 := by
    rw [Nat.shiftLeft_eq]
    calc (m.offset - 1) * 2 ^ (bitWidths pos).1
        < 2 ^ (16 - (bitWidths pos).1) * 2 ^ (bitWidths pos).1 :=
          Nat.mul_lt_mul_of_pos_right (by omega) (Nat.two_pow_pos _)
      _ = 2 ^ 16 := by rw [← Nat.pow_add, Nat.sub_add_cancel (by omega)]
  have hsum : matchWord pos m = (m.offset - 1) <<< (bitWidths pos).1 + (m.length - 3) := by
    rw [matchWord, Nat.mod_eq_of_lt hword, Nat.shiftLeft_add_eq_or_of_lt hlen]
  have hshift : matchWord pos m >>> (bitWidths pos).1 = m.offset - 1 := by
    rw [hsum, Nat.shiftRight_eq_div_pow, Nat.shiftLeft_eq, Nat.add_comm,
      Nat.add_mul_div_right _ _ (Nat.two_pow_pos _), Nat.div_eq_of_lt hlen, Nat.zero_add]
  have hmod : matchWord pos m % 2 ^ (bitWidths pos).1 = m.length - 3 := by
    rw [hsum, Nat.shiftLeft_eq, Nat.add_comm, Nat.add_mul_mod_self_right, Nat.mod_eq_of_lt hlen]
  constructor
  · simp only [decodeMatch]
    rw [hshift, hmod, Nat.sub_add_cancel hoff, Nat.sub_add_cancel hmin]
  · rw [matchWord, Nat.mod_eq_of_lt hword]
    exact Nat.or_lt_two_pow hword (Nat.lt_of_lt_of_le hlen
      (Nat.pow_le_pow_right (by decide) (by omega)))

/-- The bytes of an item. -/
def itemBytes (pos : Nat) : Token UInt8 → Bytes
  | .literal a => [a]
  | .copy m => Bytes.toLE 2 (matchWord pos m)

theorem itemBytes_ne_nil (pos : Nat) (t : Token UInt8) : itemBytes pos t ≠ [] := by
  cases t with
  | literal a => exact cons_ne_nil a []
  | copy m => exact cons_ne_nil _ _

/-- The bytes of items in sequence. -/
def itemsBytes (pos : Nat) : List (Token UInt8) → Bytes
  | [] => []
  | t :: ts => itemBytes pos t ++ itemsBytes (pos + t.span) ts

def isCopy : Token UInt8 → Bool
  | .literal _ => false
  | .copy _ => true

/-- The flags of items whose first one has the given bit. -/
def itemFlags (bit : Nat) : List (Token UInt8) → Nat
  | [] => 0
  | t :: ts => (if isCopy t then 1 <<< bit else 0) ||| itemFlags (bit + 1) ts

theorem testBit_flag (b : Bool) (bit j : Nat) :
    (if b then 1 <<< bit else 0).testBit j = (b && decide (bit = j)) := by
  cases b with
  | false => simp
  | true => simp [Nat.one_shiftLeft, Nat.testBit_two_pow]

theorem testBit_itemFlags_lt (ts : List (Token UInt8)) {bit j : Nat} (h : j < bit) :
    (itemFlags bit ts).testBit j = false := by
  induction ts generalizing bit with
  | nil => exact Nat.zero_testBit j
  | cons t ts ih =>
    rw [itemFlags, Nat.testBit_or, testBit_flag, ih (by omega)]
    have : bit ≠ j := by omega
    simp [this]

/-- The flag of an item. -/
theorem testBit_itemFlags (ts : List (Token UInt8)) (bit j : Nat) :
    (itemFlags bit ts).testBit (bit + j) = ts[j]?.any isCopy := by
  induction ts generalizing bit j with
  | nil => simp [itemFlags]
  | cons t ts ih =>
    rw [itemFlags, Nat.testBit_or, testBit_flag]
    cases j with
    | zero => simp [testBit_itemFlags_lt ts (Nat.lt_succ_self bit)]
    | succ j =>
      have hnext := ih (bit + 1) j
      rw [Nat.add_right_comm, Nat.add_assoc] at hnext
      simp [hnext]

/-- A flag byte and its items. -/
def groupBytes (pos : Nat) (ts : List (Token UInt8)) : Bytes :=
  UInt8.ofNat (itemFlags 0 ts) :: itemsBytes pos ts

/-- `code` is the code of a compressed chunk from `pos` on: full groups, and a last one that may
    be shorter. -/
inductive ChunkCode (chunk : Bytes) : Nat → Bytes → Prop
  | done : ChunkCode chunk chunk.length []
  | group {pos next : Nat} {ts : List (Token UInt8)} {rest : Bytes}
      (hparse : Parses (ItemOk chunk) pos ts next)
      (hfull : ts.length = 8 ∨ (ts ≠ [] ∧ ts.length ≤ 8 ∧ next = chunk.length))
      (hrest : ChunkCode chunk next rest) : ChunkCode chunk pos (groupBytes pos ts ++ rest)

theorem itemFlags_lt (h : ts.length ≤ 8) : itemFlags 0 ts < 2 ^ 8 := by
  apply Nat.lt_pow_two_of_testBit
  intro j hj
  have hbit := testBit_itemFlags ts 0 j
  rw [Nat.zero_add, getElem?_eq_none (by omega)] at hbit
  exact hbit

/-- No code is left at the end of a chunk. -/
theorem ChunkCode.eq_nil (h : ChunkCode chunk pos code) (hend : pos = chunk.length) :
    code = [] := by
  cases h with
  | done => rfl
  | group hparse hfull hrest =>
    rename_i next ts rest
    cases ts with
    | nil => simp at hfull
    | cons t ts =>
      have hle := (ItemOk.describes _ _ hparse.1).span_le
      have hspan := hparse.1.span_pos
      omega

theorem ChunkCode.ne_nil (h : ChunkCode chunk pos code) (hlt : pos < chunk.length) : code ≠ [] := by
  cases h with
  | done => exact absurd hlt (Nat.lt_irrefl _)
  | group => exact cons_ne_nil _ _

/-! ### Encoder -/

/-- A match that is found can be coded at its position. -/
theorem findChunkMatch_spec {head : Head} (h : findChunkMatch chunk pos head = some m) :
    ItemOk chunk pos (.copy m) := by
  unfold findChunkMatch at h
  split at h
  · cases h
  dsimp only at h
  split at h
  · cases h
  split at h
  · cases h
  rename_i hdisp
  split at h
  · rename_i hlen
    cases h
    have hmax := matchLength_le chunk (head.getD (hash3 chunk pos) 0) pos
      (min ((1 <<< (bitWidths pos).1) - 1 + 3) (chunk.length - pos))
    have hpos : 0 < 2 ^ (bitWidths pos).1 := Nat.two_pow_pos _
    rw [Nat.one_shiftLeft] at hdisp
    refine ⟨repeats_matchLength (by omega) (Nat.min_le_right _ _) (by omega), ?_, hlen, ?_⟩
    · exact Nat.le_of_not_lt hdisp
    · dsimp only
      omega
  · cases h

theorem encodeLiteral_spec (hin : st.inPos < chunk.length) (h : encodeLiteral chunk st = some st') :
    ∃ t, ItemOk chunk st.inPos t ∧ isCopy t = false ∧ st'.inPos = st.inPos + t.span ∧
      Bytes.Appended st.output st.outPos (itemBytes st.inPos t) st'.output st'.outPos := by
  unfold encodeLiteral at h
  split at h
  · cases h
  cases h
  refine ⟨.literal (chunk.getD st.inPos 0), ?_, rfl, rfl, appended_set (by omega)⟩
  change chunk[st.inPos]? = some (chunk.getD st.inPos 0)
  rw [getD_eq_getElem?_getD, getElem?_eq_getElem hin, getD_some]

theorem encodeMatch_spec (h : encodeMatch chunk (matchWord st.inPos m) m.length st = some st') :
    st'.inPos = st.inPos + m.length ∧
      Bytes.Appended st.output st.outPos (itemBytes st.inPos (.copy m)) st'.output st'.outPos := by
  unfold encodeMatch at h
  split at h
  · cases h
  cases h
  have hword := length_toLE 2 (matchWord st.inPos m)
  have happ : Bytes.Appended st.output st.outPos (toLE 2 (matchWord st.inPos m)) _ _ :=
    appended_splice (by omega)
  exact ⟨rfl, happ⟩

/-- What the items of a flag byte amount to. -/
structure ItemsWritten (chunk : Bytes) (st st' : ChunkEncoder) (ts : List (Token UInt8)) :
    Prop where
  parses : Parses (ItemOk chunk) st.inPos ts st'.inPos
  appended : Bytes.Appended st.output st.outPos (itemsBytes st.inPos ts) st'.output st'.outPos

theorem ItemsWritten.cons {mid : ChunkEncoder} (ht : ItemOk chunk st.inPos t)
    (hin : mid.inPos = st.inPos + t.span)
    (happ : Bytes.Appended st.output st.outPos (itemBytes st.inPos t) mid.output mid.outPos)
    (h : ItemsWritten chunk mid st' ts) : ItemsWritten chunk st st' (t :: ts) := by
  obtain ⟨hparse, hrest⟩ := h
  rw [hin] at hparse hrest
  exact ⟨⟨ht, hparse⟩, happ.trans hrest⟩

/-- The items of one group are written behind their flags. -/
theorem compressItems_spec (n bit flags : Nat) (st : ChunkEncoder) {flags' : Nat}
    {st' : ChunkEncoder} (hin : st.inPos ≤ chunk.length) (hout : st.outPos ≤ st.output.length)
    (h : compressItems chunk (range' bit n) flags st = some (flags', st')) :
    ∃ ts, ItemsWritten chunk st st' ts ∧ flags' = flags ||| itemFlags bit ts ∧
      (ts.length = n ∨ ts.length ≤ n ∧ st'.inPos = chunk.length) := by
  induction n generalizing bit flags st flags' st' with
  | zero =>
    cases h
    exact ⟨[], ⟨rfl, .refl hout⟩, (Nat.or_zero flags).symm, .inl rfl⟩
  | succ n ih =>
    rw [range'_succ, compressItems] at h
    split at h
    · cases h
      exact ⟨[], ⟨rfl, .refl hout⟩, (Nat.or_zero flags).symm, .inr ⟨Nat.zero_le _, by omega⟩⟩
    -- A literal, and the rest of the group behind it.
    have hliteral : (encodeLiteral chunk st).bind
        (fun st => compressItems chunk (range' (bit + 1) n) flags st) = some (flags', st') →
        ∃ ts, ItemsWritten chunk st st' ts ∧ flags' = flags ||| itemFlags bit ts ∧
          (ts.length = n + 1 ∨ ts.length ≤ n + 1 ∧ st'.inPos = chunk.length) := by
      intro h
      obtain ⟨mid, hmid, hrest⟩ := bind_eq_some_iff.mp h
      obtain ⟨t, ht, hflag, hpos, happ⟩ := encodeLiteral_spec (by omega) hmid
      have hle := (ItemOk.describes _ _ ht).span_le
      obtain ⟨ts, hwritten, hflags, hlen⟩ := ih _ _ mid (by omega) happ.fits hrest
      refine ⟨t :: ts, hwritten.cons ht hpos happ, ?_, ?_⟩
      · simpa [itemFlags, hflag] using hflags
      · rw [length_cons]
        omega
    cases hfind : findChunkMatch chunk st.inPos st.head with
    | none =>
      rw [hfind] at h
      exact hliteral h
    | some m =>
      rw [hfind] at h
      dsimp only at h
      split at h
      · exact hliteral h
      have ht := findChunkMatch_spec hfind
      obtain ⟨mid, hmid, hrest⟩ := bind_eq_some_iff.mp h
      obtain ⟨hpos, happ⟩ := encodeMatch_spec hmid
      have hfits := ht.1.fits
      obtain ⟨ts, hwritten, hflags, hlen⟩ := ih _ _ mid (by omega) happ.fits hrest
      refine ⟨.copy m :: ts, hwritten.cons ht hpos happ, ?_, ?_⟩
      · rw [hflags, Nat.or_assoc]
        rfl
      · rw [length_cons]
        omega

/-- A group that starts inside the chunk writes one flag byte and at least one item. -/
theorem compressGroup_spec (hin : st.inPos < chunk.length) (h : compressGroup chunk st = some st') :
    ∃ ts, Parses (ItemOk chunk) st.inPos ts st'.inPos ∧ ts ≠ [] ∧
      (ts.length = 8 ∨ ts.length ≤ 8 ∧ st'.inPos = chunk.length) ∧
      Bytes.Appended st.output st.outPos (groupBytes st.inPos ts) st'.output st'.outPos := by
  unfold compressGroup at h
  split at h
  · cases h
  obtain ⟨⟨flags, mid⟩, hitems, hst⟩ := map_eq_some_iff.mp h
  obtain rfl : { mid with output := mid.output.set st.outPos (UInt8.ofNat flags) } = st' := hst
  have hflag : Bytes.Appended st.output st.outPos [0] (st.output.set st.outPos 0)
      (st.outPos + 1) := appended_set (by omega)
  obtain ⟨ts, hwritten, hflags, hlen⟩ := compressItems_spec 8 0 0
    { st with output := st.output.set st.outPos 0, outPos := st.outPos + 1 }
    (Nat.le_of_lt hin) hflag.fits hitems
  rw [Nat.zero_or] at hflags
  refine ⟨ts, hwritten.parses, ?_, hlen, ?_⟩
  · rintro rfl
    have heq : mid.inPos = st.inPos := hwritten.parses
    rw [length_nil] at hlen
    omega
  · rw [groupBytes, ← hflags]
    exact (hflag.trans hwritten.appended).set_head (UInt8.ofNat flags)

/-- The loop writes the code of the rest of the chunk. -/
theorem compressChunkLoop_spec (fuel : Nat) (st : ChunkEncoder) {st' : ChunkEncoder}
    (hin : st.inPos ≤ chunk.length) (hfuel : chunk.length ≤ fuel + st.inPos)
    (hout : st.outPos ≤ st.output.length) (h : compressChunkLoop chunk fuel st = some st') :
    ∃ code, ChunkCode chunk st.inPos code ∧
      Bytes.Appended st.output st.outPos code st'.output st'.outPos := by
  induction fuel generalizing st st' with
  | zero =>
    cases h
    have hend : st.inPos = chunk.length := by omega
    rw [hend]
    exact ⟨[], .done, .refl hout⟩
  | succ fuel ih =>
    rw [compressChunkLoop] at h
    split at h
    · rename_i hlt
      obtain ⟨mid, hmid, hrest⟩ := bind_eq_some_iff.mp h
      obtain ⟨ts, hparse, hne, hlen, happ⟩ := compressGroup_spec hlt hmid
      have hle := hparse.le_length ItemOk.describes hin
      have hgrow : st.inPos < mid.inPos := by
        cases ts with
        | nil => exact absurd rfl hne
        | cons t ts =>
          have hspan := hparse.1.span_pos
          have hmono := hparse.2.le
          omega
      obtain ⟨code, hcode, happ'⟩ := ih mid hle (by omega) happ.fits hrest
      refine ⟨groupBytes st.inPos ts ++ code, .group hparse ?_ hcode, happ.trans happ'⟩
      exact hlen.imp id fun h => ⟨hne, h⟩
    · rename_i hend
      cases h
      have hend : st.inPos = chunk.length := by omega
      rw [hend]
      exact ⟨[], .done, .refl hout⟩

/-- A chunk that is compressed holds the code of one of its parses. -/
theorem compressChunk_spec {buf : Bytes} {n : Nat}
    (h : compressChunk chunk output = some (n, buf)) :
    ChunkCode chunk 0 (buf.take n) ∧ n ≤ buf.length ∧ buf.length = output.length := by
  obtain ⟨st, hloop, hst⟩ := map_eq_some_iff.mp h
  cases hst
  obtain ⟨code, hcode, happ⟩ := compressChunkLoop_spec chunk.length _ (Nat.zero_le _)
    (by dsimp only; omega) (Nat.zero_le _) hloop
  have htake := happ.take
  rw [htake]
  exact ⟨hcode, happ.fits, happ.length⟩

/-! ### Decoder -/

/-- The decoder has written the data up to position `n`. -/
structure Decoded (data : Bytes) (len n : Nat) (st : ChunkDecoder) : Prop where
  wp : st.wp = n
  length : st.output.length = len
  agree : st.output.take n = data.take n

section Decoder

variable {data chunk chunkData : Bytes} {s len : Nat}

section

variable (hpart : (data.drop s).take chunk.length = chunk)

include hpart

section

variable (hroom : s + chunk.length ≤ len) {st : ChunkDecoder}

include hroom

theorem decodeLiteralItem_spec {a : UInt8} (ha : chunk[pos]? = some a)
    (hcode : chunkData.drop st.cp = a :: rest) (hst : Decoded data len (s + pos) st) :
    ∃ st', decodeLiteralItem chunkData st = .ok st' ∧ st'.cp = st.cp + 1 ∧
      Decoded data len (s + pos + 1) st' := by
  obtain ⟨hwp, hlen, hagree⟩ := hst
  obtain ⟨hpos, -⟩ := List.getElem?_eq_some_iff.mp ha
  have hbyte : chunkData.getD st.cp 0 = a := by
    have hhead := congrArg (·[0]?) hcode
    simp only [getElem?_drop, Nat.add_zero, getElem?_cons_zero] at hhead
    rw [getD_eq_getElem?_getD, hhead, getD_some]
  have hdata : data[s + pos]? = some a := by
    rw [← ha]
    conv_rhs => rw [← hpart]
    rw [getElem?_take_of_lt hpos, getElem?_drop]
  rw [decodeLiteralItem, if_neg (by omega), hbyte]
  refine ⟨_, rfl, rfl, by rw [hwp], by rw [length_set, hlen], ?_⟩
  rw [hwp]
  exact take_set hagree (by omega) hdata

theorem decodeMatchItem_spec (hm : ItemOk chunk pos (.copy m))
    (hcode : chunkData.drop st.cp = toLE 2 (matchWord pos m) ++ rest)
    (hst : Decoded data len (s + pos) st) :
    ∃ st', decodeMatchItem chunkData s st = .ok st' ∧ st'.cp = st.cp + 2 ∧
      Decoded data len (s + pos + m.length) st' := by
  obtain ⟨hwp, hlen, hagree⟩ := hst
  obtain ⟨hrep, hfits⟩ := hm
  have hword := decodeMatch_matchWord hfits hrep.offset_pos
  have hin : st.cp + 2 ≤ chunkData.length := by
    have h := congrArg length hcode
    rw [length_drop, length_append, length_toLE] at h
    omega
  have hread : chunkData.le16 st.cp = matchWord pos m := by
    rw [le16, slice, hcode, take_left' (length_toLE 2 _), ofLE_toLE _ _ hword.2]
  have hpos : st.wp - s = pos := by omega
  have hoff := hrep.offset_le
  have hfit := hrep.fits
  have hshift := hrep.shift hpart
  rw [decodeMatchItem, if_neg (by omega)]
  simp only [hread, hpos, hword.1]
  rw [if_neg (by omega), if_neg (by omega)]
  obtain ⟨htake, hkeep⟩ := take_copyChunks hshift hrep.offset_pos m.length 0 st.output (by omega)
    (by omega) hagree
  rw [Nat.one_mul, Nat.zero_add] at htake
  rw [← hwp] at htake hkeep
  refine ⟨_, rfl, rfl, by rw [hwp], hkeep.trans hlen, ?_⟩
  rw [← hwp]
  exact htake

/-- The items of a group are decoded one after the other. -/
theorem decodeItems_spec {flags : Nat} (ts : List (Token UInt8)) (n bit pos next : Nat)
    (st : ChunkDecoder) (rest : Bytes) (hparse : Parses (ItemOk chunk) pos ts next)
    (hcode : chunkData.drop st.cp = itemsBytes pos ts ++ rest)
    (hflags : ∀ j < ts.length, flags.testBit (bit + j) = ts[j]?.any isCopy)
    (hn : ts.length = n ∨ ts.length ≤ n ∧ rest = []) (hst : Decoded data len (s + pos) st) :
    ∃ st', decodeItems chunkData s flags (range' bit n) st = .ok st' ∧
      chunkData.drop st'.cp = rest ∧ st.cp ≤ st'.cp ∧ Decoded data len (s + next) st' := by
  induction ts generalizing n bit pos next st rest with
  | nil =>
    obtain rfl : next = pos := hparse
    rw [itemsBytes, nil_append] at hcode
    refine ⟨st, ?_, hcode, Nat.le_refl _, hst⟩
    cases n with
    | zero => rfl
    | succ n =>
      -- The group is not full: the chunk ends here.
      obtain ⟨-, rfl⟩ := hn.resolve_left (by simp)
      rw [drop_eq_nil_iff] at hcode
      rw [range'_succ, decodeItems, if_pos hcode]
  | cons t ts ih =>
    obtain ⟨ht, hparse⟩ := hparse
    obtain ⟨n, rfl⟩ : ∃ k, n = k + 1 := ⟨n - 1, by rw [length_cons] at hn; omega⟩
    have hbit : flags.testBit bit = isCopy t := by
      simpa using hflags 0 (by simp)
    have hnext : ∀ j < ts.length, flags.testBit (bit + 1 + j) = ts[j]?.any isCopy := by
      intro j hj
      have h := hflags (j + 1) (by simpa using hj)
      rwa [← Nat.add_assoc, Nat.add_right_comm] at h
    have hlen : ts.length = n ∨ ts.length ≤ n ∧ rest = [] := by
      rw [length_cons] at hn
      exact hn.imp (fun h => by omega) fun ⟨h, hrest⟩ => ⟨by omega, hrest⟩
    rw [itemsBytes, append_assoc] at hcode
    have hin : ¬st.cp ≥ chunkData.length := by
      intro hge
      rw [drop_eq_nil_of_le hge] at hcode
      exact itemBytes_ne_nil pos t (append_eq_nil_iff.mp hcode.symm).1
    have hdrop : ∀ {st' : ChunkDecoder}, st'.cp = st.cp + (itemBytes pos t).length →
        chunkData.drop st'.cp = itemsBytes (pos + t.span) ts ++ rest := by
      intro st' hcp
      rw [hcp, ← drop_drop, hcode, drop_left]
    rw [range'_succ, decodeItems, if_neg hin]
    cases t with
    | literal a =>
      have hzero : (flags >>> bit) % 2 = 0 := by
        simpa [Nat.testBit, isCopy] using hbit
      obtain ⟨mid, hmid, hcp, hdec⟩ := decodeLiteralItem_spec hpart hroom ht hcode hst
      obtain ⟨st', hrun, hrest, hle, hdone⟩ := ih n (bit + 1) _ next mid rest hparse (hdrop hcp)
        hnext hlen hdec
      rw [if_pos hzero, hmid]
      exact ⟨st', hrun, hrest, by omega, hdone⟩
    | copy m =>
      have hone : ¬(flags >>> bit) % 2 = 0 := by
        simpa [Nat.testBit, isCopy] using hbit
      obtain ⟨mid, hmid, hcp, hdec⟩ := decodeMatchItem_spec hpart hroom ht hcode hst
      rw [Nat.add_assoc] at hdec
      obtain ⟨st', hrun, hrest, hle, hdone⟩ := ih n (bit + 1) _ next mid rest hparse
        (hdrop (by rw [hcp, itemBytes, length_toLE])) hnext hlen hdec
      rw [if_neg hone, hmid]
      exact ⟨st', hrun, hrest, by omega, hdone⟩

/-- A compressed chunk is decoded to the part of the data it was made from. -/
theorem decompressChunkLoop_spec (hcode : ChunkCode chunk pos code) :
    ∀ (fuel : Nat) (st : ChunkDecoder), chunkData.length ≤ fuel + st.cp →
      chunkData.drop st.cp = code → Decoded data len (s + pos) st →
      ∃ st', decompressChunkLoop chunkData s fuel st = .ok st' ∧
        Decoded data len (s + chunk.length) st' := by
  induction hcode with
  | done =>
    intro fuel st _ hdrop hst
    refine ⟨st, ?_, hst⟩
    cases fuel with
    | zero => rfl
    | succ fuel =>
      rw [drop_eq_nil_iff] at hdrop
      rw [decompressChunkLoop, if_neg (by omega)]
  | group hparse hfull hrest ih =>
    rename_i pos next ts rest
    intro fuel st hfuel hdrop hst
    rw [groupBytes, cons_append] at hdrop
    have hlt : st.cp < chunkData.length := by
      have h := congrArg length hdrop
      rw [length_drop, length_cons] at h
      omega
    obtain ⟨fuel, rfl⟩ : ∃ k, fuel = k + 1 := ⟨fuel - 1, by omega⟩
    have hflag : (chunkData.getD st.cp 0).toNat = itemFlags 0 ts := by
      have hhead := congrArg (·[0]?) hdrop
      simp only [getElem?_drop, Nat.add_zero] at hhead
      rw [getD_eq_getElem?_getD, hhead]
      exact Nat.mod_eq_of_lt (itemFlags_lt (by omega))
    have hitems : chunkData.drop (st.cp + 1) = itemsBytes pos ts ++ rest := by
      rw [← drop_drop, hdrop, drop_succ_cons, drop_zero]
    have hbits : ∀ j < ts.length, (itemFlags 0 ts).testBit (0 + j) = ts[j]?.any isCopy :=
      fun j _ => testBit_itemFlags ts 0 j
    have hlast : ts.length = 8 ∨ ts.length ≤ 8 ∧ rest = [] :=
      hfull.imp id fun ⟨_, hle, hend⟩ => ⟨hle, hrest.eq_nil hend⟩
    obtain ⟨mid, hmid, hdrop', hle, hdec⟩ := decodeItems_spec hpart hroom ts 8 0 pos next
      { st with cp := st.cp + 1 } rest hparse hitems hbits hlast { hst with }
    obtain ⟨st', hrun, hdone⟩ := ih fuel mid (by dsimp only at hle; omega) hdrop' hdec
    refine ⟨st', ?_, hdone⟩
    rw [decompressChunkLoop, if_pos hlt]
    simp only [hflag, range_eq_range', hmid]
    exact hrun

end

end

end Decoder

/-! ### Streams -/

/-- The header of a chunk with `size` bytes of data. -/
def headerWord (size : Nat) (isCompressed : Bool) : Nat :=
  (size - 1) % 2 ^ 12 ||| CHUNK_SIGNATURE <<< 12 ||| (if isCompressed then 0x8000 else 0)

theorem headerWord_eq (h : size ≤ CHUNK_SIZE) (isCompressed : Bool) :
    headerWord size isCompressed =
      (if isCompressed then 0xB else 0x3) <<< 12 + (size - 1) := by
  have hsize : size - 1 < 2 ^ 12 := by
    unfold CHUNK_SIZE at h
    omega
  rw [headerWord, Nat.mod_eq_of_lt hsize, Nat.or_assoc, Nat.or_comm,
    Nat.shiftLeft_add_eq_or_of_lt hsize]
  cases isCompressed <;> rfl

/-- The fields of a header are read back from it. -/
theorem headerWord_fields (hpos : 1 ≤ size) (h : size ≤ CHUNK_SIZE) (isCompressed : Bool) :
    headerWord size isCompressed % 2 ^ 12 + 1 = size ∧
      (headerWord size isCompressed >>> 12) % 2 ^ 3 = CHUNK_SIGNATURE ∧
      (headerWord size isCompressed).testBit 15 = isCompressed ∧
      headerWord size isCompressed ≠ 0 ∧ headerWord size isCompressed < 2 ^ 16 := by
  have hsize : size ≤ 4096 := h
  rw [headerWord_eq h]
  cases isCompressed with
  | false =>
    simp only [Bool.false_eq_true, if_false, Nat.shiftLeft_eq, Nat.shiftRight_eq_div_pow,
      Nat.testBit_eq_decide_div_mod_eq, CHUNK_SIGNATURE, decide_eq_false_iff_not]
    omega
  | true =>
    simp only [if_true, Nat.shiftLeft_eq, Nat.shiftRight_eq_div_pow,
      Nat.testBit_eq_decide_div_mod_eq, CHUNK_SIGNATURE, decide_eq_true_eq]
    omega

/-- The bytes of one chunk: a header, and the chunk itself or its code. -/
inductive Record (chunk : Bytes) : Bytes → Prop
  | stored : Record chunk (Bytes.toLE 2 (headerWord chunk.length false) ++ chunk)
  | compressed {code : Bytes} (hcode : ChunkCode chunk 0 code) (hlen : code.length < chunk.length) :
      Record chunk (Bytes.toLE 2 (headerWord code.length true) ++ code)

/-- The records of the chunks from `pos` on. -/
inductive Records (x : Bytes) : Nat → Bytes → Prop
  | done : Records x x.length []
  | chunk {pos : Nat} {chunk code rest : Bytes} (hpart : (x.drop pos).take chunk.length = chunk)
      (hpos : 1 ≤ chunk.length) (hlen : chunk.length ≤ CHUNK_SIZE) (hcode : Record chunk code)
      (hrest : Records x (pos + chunk.length) rest) : Records x pos (code ++ rest)

theorem writeChunkHeader_spec (size : Nat) (isCompressed : Bool) (h : outPos + 2 ≤ output.length) :
    ∃ output', writeChunkHeader output outPos size isCompressed = .ok (output', outPos + 2) ∧
      Bytes.Appended output outPos (toLE 2 (headerWord size isCompressed)) output'
        (outPos + 2) := by
  have hword := length_toLE 2 (headerWord size isCompressed)
  have happ : Bytes.Appended output outPos (toLE 2 (headerWord size isCompressed)) _ _ :=
    appended_splice (by omega)
  refine ⟨_, ?_, happ⟩
  rw [writeChunkHeader, if_neg (by omega)]
  rfl

/-- A header and the data behind it. -/
theorem writeRecord_spec {data : Bytes} (isCompressed : Bool)
    (h : outPos + (data.length + 2) ≤ output.length) : ∃ output' outPos', (do
        let (output, outPos) ← writeChunkHeader output outPos data.length isCompressed
        writeBytes output outPos data) = .ok (output', outPos') ∧
      Bytes.Appended output outPos (toLE 2 (headerWord data.length isCompressed) ++ data)
        output' outPos' := by
  obtain ⟨mid, hheader, happ⟩ := writeChunkHeader_spec data.length isCompressed
    (show outPos + 2 ≤ output.length by omega)
  have hlen := happ.length
  have happ' : Appended mid (outPos + 2) data _ _ := appended_splice (by omega)
  refine ⟨_, _, ?_, happ.trans happ'⟩
  rw [hheader]
  exact if_neg (by omega)

/-- A chunk takes at most two bytes more than it has. -/
theorem compressNext_spec (h : outPos + (chunk.length + 2) ≤ output.length) :
    ∃ code output' outPos', compressNext chunk output outPos = .ok (output', outPos') ∧
      Record chunk code ∧ code.length ≤ chunk.length + 2 ∧
      Bytes.Appended output outPos code output' outPos' := by
  have hstored : ∃ code output' outPos', (do
        let (output, outPos) ← writeChunkHeader output outPos chunk.length false
        writeBytes output outPos chunk) = .ok (output', outPos') ∧
      Record chunk code ∧ code.length ≤ chunk.length + 2 ∧
      Bytes.Appended output outPos code output' outPos' := by
    obtain ⟨output', outPos', hrun, happ⟩ := writeRecord_spec false h
    refine ⟨_, output', outPos', hrun, .stored, ?_, happ⟩
    rw [length_append, length_toLE]
    omega
  unfold compressNext
  cases hchunk : compressChunk chunk (zeros chunk.length) with
  | none => exact hstored
  | some result =>
    obtain ⟨n, buf⟩ := result
    dsimp only
    split
    · rename_i hlt
      obtain ⟨hcode, hn, -⟩ := compressChunk_spec hchunk
      have hlen : (buf.take n).length = n := by rw [length_take]; omega
      obtain ⟨output', outPos', hrun, happ⟩ := writeRecord_spec true
        (show outPos + ((buf.take n).length + 2) ≤ output.length by omega)
      refine ⟨_, output', outPos', ?_, .compressed hcode (by omega), ?_, happ⟩
      · rw [← hrun, hlen]
      · rw [length_append, length_toLE]
        omega
    · exact hstored

/-- The room that `compress` needs for `n` bytes, without the terminator. -/
def recordsBound (n : Nat) : Nat := n + (n + CHUNK_SIZE - 1) / CHUNK_SIZE * 2

theorem compressLoop_spec (fuel inPos : Nat) (output : Bytes) (outPos : Nat)
    (hin : inPos ≤ x.length) (hfuel : x.length ≤ fuel + inPos)
    (hroom : outPos + recordsBound (x.length - inPos) ≤ output.length) :
    ∃ code output' outPos', compressLoop x fuel inPos output outPos = .ok (output', outPos') ∧
      Records x inPos code ∧ code.length ≤ recordsBound (x.length - inPos) ∧
      Bytes.Appended output outPos code output' outPos' := by
  induction fuel generalizing inPos output outPos with
  | zero =>
    obtain rfl : inPos = x.length := by omega
    exact ⟨[], output, outPos, rfl, .done, Nat.zero_le _, .refl (by omega)⟩
  | succ fuel ih =>
    rw [compressLoop]
    split
    · rename_i hlt
      have hsize : ((x.drop inPos).take (min (inPos + CHUNK_SIZE) x.length - inPos)).length =
          min CHUNK_SIZE (x.length - inPos) := by
        rw [length_take, length_drop]
        omega
      -- A chunk fills 4 KiB, or it is the last one.
      have hbound : min CHUNK_SIZE (x.length - inPos) + 2 +
          recordsBound (x.length - (inPos + min CHUNK_SIZE (x.length - inPos))) ≤
            recordsBound (x.length - inPos) := by
        unfold recordsBound CHUNK_SIZE
        omega
      have hchunk : 1 ≤ CHUNK_SIZE := by decide
      obtain ⟨code, mid, midPos, hnext, hrec, hlen, happ⟩ := compressNext_spec
        (show outPos + (((x.drop inPos).take
          (min (inPos + CHUNK_SIZE) x.length - inPos)).length + 2) ≤ output.length by omega)
      have hend : min (inPos + CHUNK_SIZE) x.length =
          inPos + ((x.drop inPos).take (min (inPos + CHUNK_SIZE) x.length - inPos)).length := by
        omega
      have hpos := happ.pos
      have hkeep := happ.length
      obtain ⟨rest, output', outPos', hloop, hrecs, hrest, happ'⟩ := ih
        (min (inPos + CHUNK_SIZE) x.length) mid midPos (by omega) (by omega) (by
          rw [hend, hsize]
          omega)
      rw [hend] at hrecs
      refine ⟨code ++ rest, output', outPos', ?_, .chunk ?_ (by omega) (by omega) hrec hrecs, ?_,
        happ.trans happ'⟩
      · simp only [slice, hnext]
        exact hloop
      · rw [hsize]
        congr 1
        omega
      · rw [hend, hsize] at hrest
        rw [length_append]
        omega
    · obtain rfl : inPos = x.length := by omega
      exact ⟨[], output, outPos, rfl, .done, Nat.zero_le _, .refl (by omega)⟩

/-- With room for the bound, the encoder writes the records of its input and a terminator. -/
theorem compress_spec (h : compressBound x.length ≤ output.length) :
    ∃ code out n, compress x output = .ok (out, n) ∧ Records x 0 code ∧
      out.take n = code ++ [0, 0] := by
  have hbound : recordsBound x.length + 2 ≤ compressBound x.length := by
    unfold recordsBound compressBound
    dsimp only
    omega
  obtain ⟨code, mid, midPos, hloop, hrecs, hlen, happ⟩ := compressLoop_spec x.length 0 output 0
    (Nat.zero_le x.length) (Nat.le_refl _) (by rw [Nat.sub_zero]; omega)
  rw [Nat.sub_zero] at hlen
  have hpos := happ.pos
  have hkeep := happ.length
  have happ₁ : Bytes.Appended mid midPos [0] (mid.set midPos 0) (midPos + 1) :=
    appended_set (by omega)
  have happ₂ : Bytes.Appended (mid.set midPos 0) (midPos + 1) [0] _ (midPos + 1 + 1) :=
    appended_set (by rw [happ₁.length]; omega)
  refine ⟨code, (mid.set midPos 0).set (midPos + 1) 0, midPos + 2, ?_, hrecs, ?_⟩
  · unfold compress
    rw [hloop]
    exact if_neg (by omega)
  · have htake := (happ.trans (happ₁.trans happ₂)).take
    rwa [take_zero, nil_append] at htake

/-- One record is decoded to its chunk. -/
theorem decompressNext_spec {inPos len : Nat} (hpart : (x.drop pos).take chunk.length = chunk)
    (hpos : 1 ≤ chunk.length) (hlen : chunk.length ≤ CHUNK_SIZE) (hroom : pos + chunk.length ≤ len)
    (hcode : Record chunk code) (hin : input.drop inPos = code ++ rest)
    (hlength : output.length = len) (hagree : output.take pos = x.take pos) :
    ∃ header output', readChunkHeader input inPos = some header ∧
      decompressNext input header (inPos + 2) output pos = .ok (output', pos + chunk.length) ∧
      input.drop (inPos + 2 + (header % 2 ^ 12 + 1)) = rest ∧
      inPos < inPos + 2 + (header % 2 ^ 12 + 1) ∧ output'.length = len ∧
      output'.take (pos + chunk.length) = x.take (pos + chunk.length) := by
  -- What is common to both kinds: the header is read and leads to the data behind it.
  have hheader : ∀ {size : Nat} {isCompressed : Bool} {body : Bytes}, 1 ≤ size →
      size ≤ CHUNK_SIZE → body.length = size →
      input.drop inPos = toLE 2 (headerWord size isCompressed) ++ (body ++ rest) →
      readChunkHeader input inPos = some (headerWord size isCompressed) ∧
        input.slice (inPos + 2) size = body ∧ inPos + 2 + size ≤ input.length ∧
        input.drop (inPos + 2 + size) = rest := by
    intro size isCompressed body hsize hmax hbody hdrop
    obtain ⟨-, -, -, hne, hlt⟩ := headerWord_fields hsize hmax isCompressed
    have htotal := congrArg length hdrop
    rw [length_drop, length_append, length_append, length_toLE] at htotal
    have hread : input.le16 inPos = headerWord size isCompressed := by
      rw [le16, slice, hdrop, take_left' (length_toLE 2 _), ofLE_toLE _ _ hlt]
    have hbehind : input.drop (inPos + 2) = body ++ rest := by
      rw [← drop_drop, hdrop, drop_left' (length_toLE 2 _)]
    refine ⟨?_, ?_, by omega, ?_⟩
    · rw [readChunkHeader, if_neg (by omega), hread]
      exact if_neg hne
    · rw [slice, hbehind, take_left' hbody]
    · rw [← drop_drop, hbehind, drop_left' hbody]
  cases hcode with
  | stored =>
    obtain ⟨hread, hslice, hfits, hrest⟩ := hheader hpos hlen rfl hin
    obtain ⟨hsize, hsig, hflag, -, -⟩ := headerWord_fields hpos hlen false
    have hdone := take_append_drop_of_agree hagree chunk (by omega) hpart
    refine ⟨_, output.splice pos chunk, hread, ?_, by rw [hsize]; exact hrest, by omega,
      by rw [length_splice (by omega), hlength], hdone⟩
    rw [decompressNext, validateChunkSignature]
    simp only [hsig, hsize, hflag, hslice, ne_eq, not_true_eq_false, if_false]
    rw [if_neg (by omega), copyUncompressedChunk]
    exact if_neg (by omega)
  | compressed hchunk hshort =>
    rename_i code
    have hne : 1 ≤ code.length := length_pos_of_ne_nil (hchunk.ne_nil hpos)
    obtain ⟨hread, hslice, hfits, hrest⟩ := hheader hne (by omega) rfl hin
    obtain ⟨hsize, hsig, hflag, -, -⟩ := headerWord_fields hne (by omega) true
    obtain ⟨st, hloop, hst⟩ := decompressChunkLoop_spec hpart hroom hchunk code.length
      { cp := 0, wp := pos, output } (Nat.le_refl _) rfl ⟨rfl, hlength, hagree⟩
    refine ⟨_, st.output, hread, ?_, by rw [hsize]; exact hrest, by omega, hst.length, hst.agree⟩
    rw [decompressNext, validateChunkSignature]
    simp only [hsig, hsize, hflag, hslice, ne_eq, not_true_eq_false, if_false]
    simp only [bind, Except.bind, if_true]
    rw [if_neg (by omega), decompressChunkStrict, hloop]
    simp only [bind, Except.bind, hst.wp]

/-- The records of a stream are decoded one after the other, up to the terminator. -/
theorem decompressLoop_spec (hcode : Records x pos code) :
    ∀ (fuel inPos : Nat) (output : Bytes), input.length ≤ fuel + inPos →
      input.drop inPos = code ++ [0, 0] → output.length = x.length →
      output.take pos = x.take pos →
      decompressLoop input fuel inPos output pos = .ok (x, x.length) := by
  induction hcode with
  | done =>
    intro fuel inPos output _ hin hlen hagree
    have hx : output = x := by
      rwa [take_of_length_le (by omega), take_length] at hagree
    have hnone : readChunkHeader input inPos = none := by
      have hzero : input.le16 inPos = 0 := by
        rw [le16, slice, hin]
        rfl
      rw [readChunkHeader]
      split
      · rfl
      · simp [hzero]
    cases fuel with
    | zero => rw [decompressLoop, hx]
    | succ fuel => rw [decompressLoop, hnone, hx]
  | chunk hpart hpos hlen hrec _ ih =>
    rename_i pos chunk code rest _
    intro fuel inPos output hfuel hin hlength hagree
    rw [append_assoc] at hin
    have hroom : pos + chunk.length ≤ x.length := by
      have h := congrArg length hpart
      rw [length_take, length_drop] at h
      omega
    obtain ⟨header, output', hread, hnext, hrest, hgrow, hlen', hagree'⟩ := decompressNext_spec
      hpart hpos hlen hroom hrec hin hlength hagree
    have hlt : inPos < input.length := by
      rw [readChunkHeader] at hread
      split at hread
      · cases hread
      · omega
    obtain ⟨fuel, rfl⟩ : ∃ k, fuel = k + 1 := ⟨fuel - 1, by omega⟩
    rw [decompressLoop, hread]
    simp only [hnext, bind, Except.bind]
    exact ih fuel _ output' (by omega) hrest hlen' hagree'

/-- With an output buffer of at least `compress_bound`, compression succeeds, and the decoder gives
    the input back. -/
theorem decompress_compress (h : compressBound x.length ≤ output.length) :
    ∃ out n, compress x output = .ok (out, n) ∧ ∀ buf : Bytes, buf.length = x.length →
      decompress (out.take n) buf = .ok (x, x.length) := by
  obtain ⟨code, out, n, hrun, hcode, htake⟩ := compress_spec h
  refine ⟨out, n, hrun, fun buf hbuf => ?_⟩
  rw [htake]
  exact decompressLoop_spec hcode _ 0 buf (Nat.le_refl _) rfl hbuf rfl

end Fsmnt.NtCompression.Lznt1
