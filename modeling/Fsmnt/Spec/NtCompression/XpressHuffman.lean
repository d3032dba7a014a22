import Fsmnt.Spec.NtCompression.XpressHuffmanSymbols

/-!
# XPRESS Huffman round trip

A block is the header of its code lengths and the stream of its symbols, and does not refer to what
precedes it. The header gives the decoder the table, and the streams follow each other without a
gap: a block ends where its decoder stops to read.
-/

namespace Fsmnt.NtCompression.XpressHuffman

open BitEncoder Bytes CanonicalCode Except List Lz77 MatchFinder UInt8

/-! ### The header -/

theorem headerByte {a b : Nat} (ha : a ≤ 15) (hb : b ≤ 15) :
    (ofNat (a % 16 ||| (b % 16) <<< 4)).toNat % 16 = a ∧
      (ofNat (a % 16 ||| (b % 16) <<< 4)).toNat >>> 4 = b := by
  have hlow : a % 16 = a := Nat.mod_eq_of_lt (by omega)
  have hhigh : b % 16 = b := Nat.mod_eq_of_lt (by omega)
  have hor : a ||| b <<< 4 = b * 16 + a := by
    rw [Nat.or_comm, ← Nat.shiftLeft_add_eq_or_of_lt (show a < 2 ^ 4 by omega), Nat.shiftLeft_eq]
  rw [hlow, hhigh, toNat_ofNat']
  omega

/-- The decoder reads the lengths that the encoder wrote. -/
theorem parseCodeLengths_buildHeader {lengths : List Nat} (hlen : lengths.length = NUM_SYMBOLS)
    (hle : ∀ l ∈ lengths, l ≤ 15) : parseCodeLengths (buildHeader lengths) = lengths := by
  unfold parseCodeLengths buildHeader
  rw [flatMap_map]
  have hpair : ∀ i ∈ range HEADER_SIZE, [(ofNat (lengths.getD (2 * i) 0 % 16 |||
      (lengths.getD (2 * i + 1) 0 % 16) <<< 4)).toNat % 16,
      (ofNat (lengths.getD (2 * i) 0 % 16 |||
        (lengths.getD (2 * i + 1) 0 % 16) <<< 4)).toNat >>> 4] =
      [lengths.getD (2 * i) 0, lengths.getD (2 * i + 1) 0] := by
    intro i _
    obtain ⟨hlow, hhigh⟩ := headerByte (getD_le hle (2 * i)) (getD_le hle (2 * i + 1))
    rw [hlow, hhigh]
  have hfull : 2 * HEADER_SIZE = lengths.length := hlen.symm
  rw [flatMap_congr hpair, flatMap_range_getD (Nat.le_of_eq hfull), hfull, take_length]

theorem length_buildHeader (lengths : List Nat) : (buildHeader lengths).length = HEADER_SIZE := by
  rw [buildHeader, length_map, length_range]

/-! ### A block -/

/-- The bytes of the block from `s` to `limit`. -/
def Encodes (x : Bytes) (s limit : Nat) (bs : Bytes) : Prop :=
  ∃ lengths ts, lengths.length = NUM_SYMBOLS ∧ Admissible 15 lengths ∧
    Coded lengths x s limit s ts ∧
    bs = buildHeader lengths ++ (encodeTokens lengths BitEncoder.new ts).finish

section Decoder

variable {lengths : List Nat} {x fin buf : Bytes} {s limit pos : Nat}

theorem encodeTokens_open (hadm : Admissible 15 lengths) {ts : List (Token UInt8)} {e : BitEncoder}
    (h : Coded lengths x s limit pos ts) (hopen : e.Open) :
    (encodeTokens lengths e ts).Open := by
  induction ts generalizing pos e with
  | nil =>
    exact hopen
  | cons t ts ih =>
    exact ih h.tail (encodeEntry_open hadm hopen (h.used t mem_cons_self)
      (distanceExtraCount_le h.parses.1))

/-- At the end of the block nothing is left to read. -/
theorem Follows.done {last : BitEncoder} {st : BitState}
    (h : Follows lengths x fin s limit last st buf pos) (hpos : limit ≤ pos) :
    pos = limit ∧ st = last.reader fin := by
  obtain ⟨⟨e, ts, -, rfl, hcoded, rfl⟩, -, -⟩ := h
  have hcount := hcoded.parses.add_length_le fun pos t ht => ht.span
  obtain rfl : ts = [] := eq_nil_of_length_eq_zero (by omega)
  have heq : limit = pos := hcoded.parses
  exact ⟨heq.symm, rfl⟩

/-- A block is decoded, whatever comes behind it. -/
theorem decompressBlockStrict_spec (level : SimdLevel) {bs : Bytes} (h : Encodes x s limit bs)
    (hlt : s < limit) (rest : Bytes) (hroom : limit ≤ buf.length) (hagree : buf.take s = x.take s) :
    ∃ buf', decompressBlockStrict level (bs ++ rest) buf s limit =
        .ok (buf', bs.length, limit - s) ∧
      buf'.length = buf.length ∧ buf'.take limit = x.take limit := by
  obtain ⟨lengths, ts, hlen, hadm, hcoded, rfl⟩ := h
  have hopen := encodeTokens_open hadm hcoded new_open
  have hallows := finish_allows hopen rest
  have hfinish := length_finish hopen
  have hslots := hopen.ptr1
  have hptr := hopen.ptr0
  have hheader := length_buildHeader lengths
  -- The first token has a code, so that the table can be built.
  obtain ⟨sym, hused⟩ : ∃ sym, 0 < lengths.getD sym 0 := by
    cases ts with
    | nil =>
      have heq : limit = s := hcoded.parses
      omega
    | cons t ts => exact ⟨_, hcoded.used t mem_cons_self⟩
  obtain ⟨table, hbuild, hdec⟩ := build_spec hadm (Nat.le_of_eq hlen) hused
  obtain ⟨fin, hfin⟩ : ∃ fin, fin = (encodeTokens lengths new ts).finish ++ rest := ⟨_, rfl⟩
  rw [← hfin] at hallows
  have hstart : Follows lengths x fin s limit (encodeTokens lengths new ts)
      (new.reader fin) buf s :=
    ⟨⟨_, ts, new_open, rfl, hcoded, rfl⟩, hroom, hagree⟩
  obtain ⟨st₁, buf₁, pos₁, hfast, hmid, hlen₁, -⟩ := decodeLoop_spec false (copies_guarded level)
    hdec hadm hallows
    (fun st outPos => outPos + OUTPUT_GUARD < limit ∧ st.pos + INPUT_GUARD ≤ fin.length)
    (fun st pos hgo => by have := (of_decide_eq_true hgo).1; omega) limit _ buf s (by omega) hstart
  obtain ⟨st₂, buf₂, pos₂, hslow, hend, hlen₂, hstop⟩ := decodeLoop_spec true copies_checked
    hdec hadm hallows (fun _ outPos => outPos < limit) (fun st pos => of_decide_eq_true) limit _
    buf₁ pos₁ (by omega) hmid
  obtain ⟨rfl, rfl⟩ := hend.done (Nat.le_of_not_lt (of_decide_eq_false hstop))
  refine ⟨buf₂, ?_, hlen₂.trans hlen₁, hend.agree⟩
  have hdata : ((buildHeader lengths ++ (encodeTokens lengths new ts).finish) ++
      rest).drop HEADER_SIZE = fin := by
    rw [append_assoc, drop_left' hheader, hfin]
  have hslice : slice ((buildHeader lengths ++
      (encodeTokens lengths new ts).finish) ++ rest) 0 HEADER_SIZE =
      buildHeader lengths := by
    rw [slice, drop_zero, append_assoc, take_left' hheader]
  have hfour : ¬fin.length < 4 := by
    rw [hfin, length_append]
    omega
  unfold decompressBlockStrict
  rw [if_neg (by rw [length_append, length_append]; omega), hslice, hdata,
    parseCodeLengths_buildHeader hlen hadm.le, hbuild]
  simp only [bind, Except.bind]
  rw [if_neg hfour, ← reader_new, hfast]
  dsimp only
  rw [hslow]
  dsimp only [reader]
  rw [length_append, length_append, hheader, hfinish, Nat.min_eq_left (by omega)]

end Decoder

/-! ### What the compressor writes -/

variable {r : List Nat × List SymbolEntry} {ts : List (Token UInt8)} {t : Token UInt8} {s : Nat}

/-- A token raises the frequency of its symbol. -/
theorem countSymbol_getD (ht : (symbolEntry t).symbol < r.1.length) (i : Nat) :
    (countSymbol r t).1.getD i 0 =
      r.1.getD i 0 + if i = (symbolEntry t).symbol then 1 else 0 := by
  rw [countSymbol]
  rw [getD_set_of_lt ht]
  split
  · rename_i heq
    rw [heq]
  · rfl

theorem sum_countSymbol (ht : (symbolEntry t).symbol < r.1.length) :
    (countSymbol r t).1.sum = r.1.sum + 1 := by
  have hget : r.1[(symbolEntry t).symbol]? = some (r.1.getD (symbolEntry t).symbol 0) := by
    rw [getD_eq_getElem?_getD, getElem?_eq_getElem ht, Option.getD_some]
  conv_rhs => rw [eq_take_append_of_getElem? hget]
  rw [countSymbol]
  rw [set_eq_take_append_cons_drop, if_pos ht]
  simp only [sum_append, sum_cons]
  omega

/-- The frequencies and the entries of a block. -/
structure Counted (ts : List (Token UInt8)) (r r' : List Nat × List SymbolEntry) : Prop where
  entries : r'.2 = r.2 ++ ts.map symbolEntry
  length : r'.1.length = r.1.length
  sum : r'.1.sum = r.1.sum + ts.length
  mono : ∀ i, r.1.getD i 0 ≤ r'.1.getD i 0
  used : ∀ t ∈ ts, 0 < r'.1.getD (symbolEntry t).symbol 0

theorem counted_foldl (r : List Nat × List SymbolEntry)
    (hlt : ∀ t ∈ ts, (symbolEntry t).symbol < r.1.length) :
    Counted ts r (ts.foldl countSymbol r) := by
  induction ts generalizing r with
  | nil =>
    exact ⟨(append_nil _).symm, rfl, rfl, fun i => Nat.le_refl _, fun t ht => by cases ht⟩
  | cons t ts ih =>
    have ht := hlt t mem_cons_self
    obtain ⟨hentries, hlen, hsum, hmono, hused⟩ := ih (countSymbol r t) fun u hu =>
      Nat.lt_of_lt_of_eq (hlt u (mem_cons_of_mem t hu)) length_set.symm
    rw [foldl_cons]
    refine ⟨?_, hlen.trans length_set, ?_, fun i => ?_, fun u hu => ?_⟩
    · rw [hentries]
      exact append_assoc _ _ _
    · rw [hsum, sum_countSymbol ht, length_cons]
      omega
    · have hstep := countSymbol_getD ht i
      exact Nat.le_trans (by omega) (hmono i)
    · cases hu with
      | head =>
        have hstep := countSymbol_getD ht (symbolEntry t).symbol
        rw [if_pos rfl] at hstep
        exact Nat.lt_of_lt_of_le (by omega) (hmono _)
      | tail _ hu => exact hused u hu

/-- A token that the finder emits in a block is one of the block, in the whole input. -/
theorem blockToken_of_tokenOk {x block : Bytes} (hblock : (x.drop s).take block.length = block)
    (pos : Nat) (t : Token UInt8) (ht : MatchFinder.TokenOk 65535 65535 block pos t) :
    BlockToken x s (s + pos) t := by
  cases t with
  | literal a =>
    refine ⟨?_, Nat.le_refl 1, fun m hm => by cases hm⟩
    obtain ⟨hlt, -⟩ := List.getElem?_eq_some_iff.mp ht.2
    have hget := ht.2
    rw [← hblock, getElem?_take_of_lt hlt, getElem?_drop] at hget
    exact hget
  | copy m =>
    obtain ⟨-, hrep, hwindow, hmin, hmax⟩ := ht
    refine ⟨hrep.shift hblock, Nat.le_trans (by decide) hmin, ?_⟩
    rintro _ ⟨⟩
    exact ⟨Nat.add_le_add_left hrep.offset_le s, hwindow, hmin, hmax⟩

section Block

variable {x block : Bytes} {s : Nat} {finder finder' : MatchFinder}
  (hblock : (x.drop s).take block.length = block) {symbols : List SymbolEntry} {freqs : List Nat}
include hblock

theorem tokenizeBlock_spec (hc : MatchFinder.Configured 65535 65535 finder)
    (h : tokenizeBlock block finder = .ok (finder', freqs, symbols)) :
    MatchFinder.Configured 65535 65535 finder' ∧
      ∃ ts, Parses (BlockToken x s) s ts (s + block.length) ∧
        Counted ts (replicate NUM_SYMBOLS 0, []) (freqs, symbols) := by
  obtain ⟨hc', ts, hts, hparse⟩ := tokenizeStreaming_spec (by decide)
    (show MatchFinder.Configured 65535 65535 finder.reset from { hc with }) h
  have hblocks : Parses (BlockToken x s) s ts (s + block.length) :=
    hparse.shift (blockToken_of_tokenOk hblock)
  refine ⟨hc', ts, hblocks, ?_⟩
  rw [hts]
  refine counted_foldl _ fun t ht => ?_
  obtain ⟨pos, hpos⟩ := hblocks.exists_of_mem ht
  rw [length_replicate]
  exact symbol_lt hpos

omit hblock in
/-- The codes of a block cover its tokens. -/
theorem codeLengths_spec {n : Nat} (hparse : Parses (BlockToken x s) s ts (s + n)) (hpos : 0 < n)
    (hmax : n ≤ BLOCK_SIZE) (h : Counted ts (replicate NUM_SYMBOLS 0, []) (freqs, symbols)) :
    ∃ lengths, buildCodeLengths freqs MAX_CODE_BITS = .ok lengths ∧ lengths.length = NUM_SYMBOLS ∧
      Admissible 15 lengths ∧ Coded lengths x s (s + n) s ts := by
  have hlen : freqs.length = NUM_SYMBOLS := h.length.trans length_replicate
  have hsum : freqs.sum = ts.length := by
    have := h.sum
    rwa [sum_replicate, nsmul_zero, Nat.zero_add] at this
  -- Every token covers a byte of the block, which bounds the depth of the tree.
  have hfib : freqs.sum < Nat.fib 257 := by
    have hfew := hparse.add_length_le fun pos t ht => ht.span
    have hmono : Nat.fib 25 ≤ Nat.fib 257 := Nat.fib_mono (by decide)
    have hvalue : Nat.fib 25 = 75025 := by decide
    change n ≤ 65536 at hmax
    omega
  have hocc : occurring freqs ≠ [] := by
    cases ts with
    | nil =>
      have heq : s + n = s := hparse
      omega
    | cons t ts => exact occurring_ne_nil (h.used t mem_cons_self)
  obtain ⟨lengths, hbuild, hsame, hadm, hcodes, -⟩ := buildCodeLengths_spec hocc
    (show 2 ≤ freqs.length by rw [hlen]; decide) (by rw [hlen]; decide) (by decide)
    (show freqs.length ≤ 2 ^ MAX_CODE_BITS by rw [hlen]; decide) hfib
  exact ⟨lengths, hbuild, hsame.trans hlen, hadm, hparse,
    fun t ht => hcodes _ (Nat.pos_iff_ne_zero.mp (h.used t ht))⟩

/-- A compressed block is a block of the format. -/
theorem compressBlock_spec {output output' : Bytes} {written : Nat}
    (hc : MatchFinder.Configured 65535 65535 finder) (hpos : 0 < block.length)
    (hmax : block.length ≤ BLOCK_SIZE)
    (h : compressBlock block output finder = .ok (finder', output', written)) :
    MatchFinder.Configured 65535 65535 finder' ∧ ∃ bs, Encodes x s (s + block.length) bs ∧
      Bytes.Appended output 0 bs output' written := by
  obtain ⟨⟨mid, freqs, symbols⟩, htok, h⟩ := bind_eq_ok_iff.mp h
  obtain ⟨hmid, ts, hparse, hcount⟩ := tokenizeBlock_spec hblock hc htok
  obtain ⟨lengths, hbuild, hlen, hadm, hcoded⟩ := codeLengths_spec hparse hpos hmax hcount
  have hentries : symbols = ts.map symbolEntry := hcount.entries
  dsimp only at h
  rw [hbuild] at h
  rw [hentries] at h
  change (if _ then _ else if _ then _ else if HEADER_SIZE +
    (encodeTokens lengths new ts).finish.length > _ then _ else _) = _ at h
  split at h
  · cases h
  split at h
  · cases h
  split at h
  · cases h
  rename_i htotal
  cases h
  have hheader := length_buildHeader lengths
  have hfirst : Bytes.Appended output 0 (buildHeader lengths)
      (output.splice 0 (buildHeader lengths)) (0 + (buildHeader lengths).length) :=
    appended_splice (by omega)
  rw [hheader] at hfirst
  exact ⟨hmid, _, ⟨lengths, ts, hlen, hadm, hcoded, rfl⟩,
    hfirst.trans (appended_splice (Nat.le_of_not_gt htotal))⟩

end Block

/-! ### Blocks -/

/-- The blocks of the input from `s` on. -/
inductive Blocks (x : Bytes) : Nat → Bytes → Prop
  | done : Blocks x x.length []
  | block {s : Nat} {bs rest : Bytes} (hlt : s < x.length)
    (first : Encodes x s (min (s + BLOCK_SIZE) x.length) bs)
    (others : Blocks x (min (s + BLOCK_SIZE) x.length) rest) : Blocks x s (bs ++ rest)

theorem decompressLoop_spec (level : SimdLevel) {x input : Bytes} {bs : Bytes} (h : Blocks x s bs)
    (fuel inPos : Nat) (buf : Bytes) (hfuel : x.length ≤ fuel + s) (hinput : input.drop inPos = bs)
    (hlen : buf.length = x.length) (hagree : buf.take s = x.take s) :
    decompressLoop level input fuel inPos s buf = .ok (x, x.length) := by
  induction h generalizing fuel inPos buf with
  | done =>
    obtain rfl : buf = x := by rwa [← hlen, take_length, hlen, take_length] at hagree
    cases fuel with
    | zero => rfl
    | succ fuel => exact if_neg (Nat.lt_irrefl _)
  | @block s bs rest hlt first others ih =>
    have hsize : BLOCK_SIZE = 65536 := rfl
    obtain ⟨fuel, rfl⟩ : ∃ k, fuel = k + 1 := ⟨fuel - 1, by omega⟩
    obtain ⟨buf', hrun, hlen', hagree'⟩ := decompressBlockStrict_spec level first (by omega) rest
      (show min (s + BLOCK_SIZE) x.length ≤ buf.length by omega) hagree
    have hrest : input.drop (inPos + bs.length) = rest := by
      rw [← drop_drop, hinput, drop_left]
    rw [decompressLoop, hlen, if_pos hlt, hinput]
    dsimp only
    rw [hrun]
    simp only [bind, Except.bind]
    rw [if_neg (by omega), Nat.add_sub_cancel' (by omega)]
    exact ih fuel (inPos + bs.length) buf' (by omega) hrest (hlen'.trans hlen) hagree'

theorem compressLoop_spec {x : Bytes} (fuel s outPos : Nat) (finder : MatchFinder) (output : Bytes)
    {finder' : MatchFinder} {output' : Bytes} {written : Nat} (hfuel : x.length ≤ fuel + s)
    (hs : s ≤ x.length) (hout : outPos ≤ output.length)
    (hc : MatchFinder.Configured 65535 65535 finder)
    (h : compressLoop x fuel s outPos finder output = .ok (finder', output', written)) :
    ∃ bs, Blocks x s bs ∧ Bytes.Appended output outPos bs output' written := by
  induction fuel generalizing s outPos finder output finder' output' written with
  | zero =>
    obtain rfl : s = x.length := by omega
    cases h
    exact ⟨[], .done, .refl hout⟩
  | succ fuel ih =>
    have hsize : BLOCK_SIZE = 65536 := rfl
    rw [compressLoop] at h
    split at h
    · rename_i hlt
      obtain ⟨⟨mid, tail, n⟩, hblock, h⟩ := bind_eq_ok_iff.mp h
      have hlen : (x.slice s (min (s + BLOCK_SIZE) x.length - s)).length =
          min (s + BLOCK_SIZE) x.length - s := by
        rw [length_slice]
        omega
      obtain ⟨hmid, bs, hbs, happ⟩ := compressBlock_spec (x := x) (s := s) (by rw [hlen]; rfl) hc
        (by omega) (by omega) hblock
      rw [hlen, Nat.add_sub_cancel' (by omega)] at hbs
      have hfirst := happ.of_drop hout
      obtain ⟨rest, hrest, happ'⟩ := ih _ _ mid _ (by omega) (by omega) hfirst.fits hmid h
      exact ⟨bs ++ rest, .block hlt hbs hrest, hfirst.trans happ'⟩
    · obtain rfl : s = x.length := by omega
      cases h
      exact ⟨[], .done, .refl hout⟩

/-- What the compressor writes is decompressed to its input. -/
theorem decompress_of_compress_eq_ok (level : SimdLevel) {x out out' buf : Bytes} {n : Nat}
    (h : compress x out = .ok (out', n)) (hbuf : buf.length = x.length) :
    decompress level (out'.take n) buf = .ok (x, x.length) := by
  obtain ⟨⟨finder, output, written⟩, hrun, hrest⟩ := Except.bind_eq_ok_iff.mp h
  cases hrest
  have hblocks : ∃ bs, Blocks x 0 bs ∧ Bytes.Appended out 0 bs out' n := by
    unfold compressWith at hrun
    split at hrun
    · rename_i hempty
      obtain rfl := List.isEmpty_iff.mp hempty
      cases hrun
      exact ⟨[], .done, .refl (Nat.zero_le _)⟩
    · exact compressLoop_spec x.length 0 0 _ out (by omega) (Nat.zero_le _) (Nat.zero_le _)
        ⟨rfl, rfl, rfl⟩ hrun
  obtain ⟨bs, hbs, happ⟩ := hblocks
  have htake := happ.take
  exact decompressLoop_spec level hbs buf.length 0 buf (by omega) htake hbuf rfl

/-- A literal, a match that overlaps itself, and another literal. -/
theorem decompress_of_compress_repeated : ∃ out' n,
    compress [7, 7, 7, 7, 7, 7, 7, 9] (Bytes.zeros 284) = .ok (out', n) ∧
      decompress .scalar (out'.take n) (Bytes.zeros 8) = .ok ([7, 7, 7, 7, 7, 7, 7, 9], 8) := by
  cases hrun : compress [7, 7, 7, 7, 7, 7, 7, 9] (Bytes.zeros 284) with
  | error e =>
    have hok : (compress [7, 7, 7, 7, 7, 7, 7, 9] (Bytes.zeros 284)).toOption.isSome = true := by
      decide +kernel
    rw [hrun] at hok
    cases hok
  | ok r => exact ⟨r.1, r.2, rfl, decompress_of_compress_eq_ok .scalar hrun rfl⟩

end Fsmnt.NtCompression.XpressHuffman
