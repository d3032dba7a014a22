import Fsmnt.Native.NtCompression.Huffman
import Fsmnt.Native.NtCompression.Xpress

/-!
# XPRESS Huffman

`xpress_huffman/`: blocks of 64 KiB, each a header of code lengths and a stream of 16-bit words. The
words of the bit stream are interleaved with the bytes of long match lengths: a word is laid down
where the decoder will look for it, which is before its bits are known.
-/

namespace Fsmnt.NtCompression.XpressHuffman

open List Bytes UInt8

open Lz77 (Match Token)

def HEADER_SIZE : Nat := 256

def NUM_SYMBOLS : Nat := 512

def MAX_CODE_BITS : Nat := 15

def BLOCK_SIZE : Nat := 65536

/-! ### Symbols -/

inductive LengthExt where
  | none
  | byte (val : Nat)
  | byteAndU16 (byteVal u16Val : Nat)
  | byteU16AndU32 (byteVal u16Val large : Nat)
  deriving Repr, DecidableEq

structure SymbolEntry where
  symbol : Nat
  distanceExtraValue : Nat
  distanceExtraCount : Nat
  lengthExt : LengthExt
  deriving Repr, DecidableEq

def encodeLength (length : Nat) : Nat × LengthExt :=
  let base := length - 3
  if base < 15 then (base, .none)
  else
    let extra := base - 15
    if extra < 255 then (15, .byte extra)
    else
      let encoded := length - 3
      if encoded ≤ 65535 then (15, .byteAndU16 255 encoded)
      else (15, .byteU16AndU32 255 0 encoded)

/-- The entry that `tokenize_block` makes of a token. -/
def symbolEntry : Token UInt8 → SymbolEntry
  | .literal byte =>
    { symbol := byte.toNat, distanceExtraValue := 0, distanceExtraCount := 0, lengthExt := .none }
  | .copy m =>
    let distanceLog := if m.offset = 1 then 0 else Nat.log2 m.offset
    let distanceExtra := if distanceLog = 0 then 0 else m.offset - 1 <<< distanceLog
    let (lengthHeader, lengthExt) := encodeLength m.length
    { symbol := 256 + distanceLog * 16 + lengthHeader, distanceExtraValue := distanceExtra,
      distanceExtraCount := distanceLog, lengthExt }

/-- One token of `tokenize_block`: the frequencies and the entries so far. -/
def countSymbol (s : List Nat × List SymbolEntry) (t : Token UInt8) : List Nat × List SymbolEntry :=
  let entry := symbolEntry t
  (s.1.set entry.symbol (s.1.getD entry.symbol 0 + 1), s.2 ++ [entry])

def tokenizeBlock (block : Bytes) (finder : MatchFinder) :
    Except Error (MatchFinder × List Nat × List SymbolEntry) :=
  MatchFinder.tokenizeStreaming countSymbol block finder.reset (replicate NUM_SYMBOLS 0, [])

/-! ### Compression -/

/-- The stream and the local variables of the encoding loop of `compress_block`. -/
structure BitEncoder where
  stream : Bytes
  ptr0 : Nat
  ptr1 : Nat
  accum : Nat
  extraBits : Nat
  deriving Repr, DecidableEq

/-- `encode_bits`. A code has at most 15 bits, so that the conversions to `u16` succeed. -/
def encodeBits (e : BitEncoder) (value count : Nat) : BitEncoder :=
  if count = 0 then e
  else
    let masked := value % 2 ^ count
    if e.extraBits < count then
      let deficit := count - e.extraBits
      let word := (e.accum <<< e.extraBits) % 2 ^ 16 ||| masked >>> deficit
      { stream := e.stream.splice e.ptr0 (toLE 2 word) ++ [0, 0]
        ptr0 := e.ptr1
        ptr1 := e.stream.length
        accum := masked
        extraBits := e.extraBits + 16 - count }
    else
      { e with
        accum := (e.accum <<< count) % 2 ^ 16 ||| masked
        extraBits := e.extraBits - count }

/-- The bytes of a length extension. -/
def LengthExt.bytes : LengthExt → Bytes
  | .none => []
  | .byte val => [ofNat val]
  | .byteAndU16 byteVal u16Val => ofNat byteVal :: toLE 2 u16Val
  | .byteU16AndU32 byteVal u16Val large =>
    ofNat byteVal :: (toLE 2 u16Val ++ toLE 4 large)

/-- One entry of the encoding loop. -/
def encodeEntry (codes : List (Nat × Nat)) (e : BitEncoder) (entry : SymbolEntry) : BitEncoder :=
  let (code, len) := codes.getD entry.symbol (0, 0)
  let e := encodeBits e code len
  let e := { e with stream := e.stream ++ entry.lengthExt.bytes }
  if entry.distanceExtraCount > 0 then
    encodeBits e entry.distanceExtraValue entry.distanceExtraCount
  else e

/-- The encoder before the first entry, with two word slots. -/
def BitEncoder.new : BitEncoder :=
  { stream := [0, 0, 0, 0], ptr0 := 0, ptr1 := 2, accum := 0, extraBits := 16 }

/-- The final flush. -/
def BitEncoder.finish (e : BitEncoder) : Bytes :=
  (e.stream.splice e.ptr0 (toLE 2 ((e.accum <<< e.extraBits) % 2 ^ 16))).splice e.ptr1 [0, 0]

def buildHeader (lengths : List Nat) : Bytes :=
  (range HEADER_SIZE).map fun i =>
    ofNat (lengths.getD (2 * i) 0 % 16 ||| (lengths.getD (2 * i + 1) 0 % 16) <<< 4)

/-- `compress_block`: the buffer and the number of bytes written. -/
def compressBlock (block output : Bytes) (finder : MatchFinder) :
    Except Error (MatchFinder × Bytes × Nat) := do
  let (finder, freqs, symbols) ← tokenizeBlock block finder
  let lengths ← buildCodeLengths freqs MAX_CODE_BITS
  if lengths.all (· = 0) then
    .error (.invalidData 0 "XPRESS Huffman block produced no symbols")
  else if output.length < HEADER_SIZE then .error (.outputTooSmall HEADER_SIZE output.length)
  else
    let output := output.splice 0 (buildHeader lengths)
    let codes := assignCanonicalCodes lengths (countPerLength lengths)
    let stream := (symbols.foldl (encodeEntry codes) BitEncoder.new).finish
    let total := HEADER_SIZE + stream.length
    if total > output.length then .error (.outputTooSmall total output.length)
    else .ok (finder, output.splice HEADER_SIZE stream, total)

/-- The loop of `Compressor::compress`. -/
def compressLoop (input : Bytes) : Nat → Nat → Nat → MatchFinder → Bytes →
    Except Error (MatchFinder × Bytes × Nat)
  | 0, _, outPos, finder, output => .ok (finder, output, outPos)
  | fuel + 1, inPos, outPos, finder, output =>
    if inPos < input.length then do
      let blockEnd := min (inPos + BLOCK_SIZE) input.length
      let (finder, tail, written) ← compressBlock (input.slice inPos (blockEnd - inPos))
        (output.drop outPos) finder
      compressLoop input fuel blockEnd (outPos + written) finder (output.take outPos ++ tail)
    else .ok (finder, output, outPos)

/-- `Compressor::compress`. -/
def compressWith (finder : MatchFinder) (input output : Bytes) :
    Except Error (MatchFinder × Bytes × Nat) :=
  if input.isEmpty then .ok (finder, output, 0)
  else compressLoop input input.length 0 0 finder output

/-- `compress`: the buffer and the number of bytes written. -/
def compress (input output : Bytes) : Except Error (Bytes × Nat) := do
  let (_, output, written) ← compressWith (MatchFinder.standard 65535 65535 32) input output
  .ok (output, written)

/-! ### Decoding table -/

def TABLE_BITS : Nat := 10

def TABLE_SIZE : Nat := 1 <<< TABLE_BITS

structure PackedDecodeTable where
  direct : List Nat
  overflow : List Nat
  overflowLen : Nat
  deriving Repr

/-- `PackedDecodeTable` while it is built, with `direct_filled`. -/
structure TableBuilder where
  direct : List Nat
  overflow : List Nat
  overflowLen : Nat
  directFilled : List Bool
  deriving Repr

namespace TableBuilder

def new : TableBuilder :=
  { direct := replicate TABLE_SIZE 0, overflow := replicate TABLE_SIZE 0,
    overflowLen := 0, directFilled := replicate TABLE_SIZE false }

def allocOverflow (tbl : TableBuilder) : Except Error (Nat × TableBuilder) :=
  let idx := tbl.overflowLen
  if idx ≥ TABLE_SIZE / 2 then
    .error (.invalidHuffmanTable "overflow table exceeds capacity")
  else .ok (idx, { tbl with overflowLen := tbl.overflowLen + 1 })

/-- A short code takes all entries that begin with it. -/
def fillShort (sym code len : Nat) (tbl : TableBuilder) : TableBuilder :=
  let pad := TABLE_BITS - len
  let base := code <<< pad
  let entry := sym <<< 4 ||| len
  (range (1 <<< pad)).foldl (fun tbl i =>
    { tbl with
      direct := tbl.direct.set (base ||| i) entry
      directFilled := tbl.directFilled.set (base ||| i) true }) tbl

/-- The overflow root of a prefix, which is allocated if need be. -/
def overflowRoot (pfx : Nat) (tbl : TableBuilder) : Except Error (Nat × TableBuilder) :=
  if tbl.directFilled.getD pfx false then .ok (tbl.direct.getD pfx 0 >>> 4, tbl)
  else do
    let (idx, tbl) ← tbl.allocOverflow
    .ok (idx, { tbl with
      direct := tbl.direct.set pfx (idx <<< 4)
      directFilled := tbl.directFilled.set pfx true })

/-- The child of an inner node of the overflow tree, which is allocated if need be. -/
def overflowChild (childIdx : Nat) (tbl : TableBuilder) : Except Error (Nat × TableBuilder) := do
  let tbl ← if tbl.overflow.getD childIdx 0 = 0 then do
      let (newNode, tbl) ← tbl.allocOverflow
      .ok { tbl with overflow := tbl.overflow.set childIdx (newNode <<< 4) }
    else .ok tbl
  .ok (tbl.overflow.getD childIdx 0 >>> 4, tbl)

/-- The walk along the last `bitPos` bits of a code, to its leaf. -/
def insertLeaf (sym code len : Nat) : Nat → Nat → TableBuilder → Except Error TableBuilder
  | 0, _, tbl => .ok tbl
  | bitPos + 1, node, tbl =>
    let bit := (code >>> bitPos) % 2
    let childIdx := node * 2 + bit
    if childIdx ≥ TABLE_SIZE then .error (.invalidHuffmanTable "overflow table full")
    else if bitPos = 0 then
      .ok { tbl with overflow := tbl.overflow.set childIdx (sym <<< 4 ||| len) }
    else do
      let (node, tbl) ← tbl.overflowChild childIdx
      insertLeaf sym code len bitPos node tbl

/-- One canonical code. -/
def insertCode (tbl : TableBuilder) (c : Nat × Nat × Nat) : Except Error TableBuilder :=
  let (sym, code, len) := c
  if len ≤ TABLE_BITS then .ok (tbl.fillShort sym code len)
  else do
    let (root, tbl) ← tbl.overflowRoot (code >>> (len - TABLE_BITS))
    insertLeaf sym code len (len - TABLE_BITS) root tbl

/-- Entries that no code begins with get the first entry that is filled. -/
def finish (tbl : TableBuilder) : PackedDecodeTable :=
  let fill := (tbl.direct.zip tbl.directFilled).find? fun p => p.2
  { direct :=
      match fill with
      | some (entry, _) =>
        (tbl.direct.zip tbl.directFilled).map fun p => if p.2 then p.1 else entry
      | none => tbl.direct
    overflow := tbl.overflow
    overflowLen := tbl.overflowLen }

end TableBuilder

namespace PackedDecodeTable

def build (lengths : List Nat) : Except Error PackedDecodeTable := do
  validateLengths lengths
  let counts := countPerLength lengths
  validateCodeSpace counts
  let tbl ← (canonicalCodes lengths counts).foldlM TableBuilder.insertCode TableBuilder.new
  .ok tbl.finish

/-- `decode_overflow`, for the bits from `bitsUsed` on. -/
def decodeOverflow (tbl : PackedDecodeTable) (nextBits : Nat) :
    List Nat → Nat → Except Error (Nat × Nat)
  | [], _ => .error (.invalidHuffmanTable "incomplete overflow tree traversal")
  | bitsUsed :: rest, node =>
    let bit := (nextBits >>> (31 - bitsUsed)) % 2
    let childIdx := node * 2 + bit
    if childIdx ≥ TABLE_SIZE then .error .panicked
    else
      let child := tbl.overflow.getD childIdx 0
      let childLen := child % 16
      if childLen ≠ 0 then .ok (child >>> 4, childLen)
      else decodeOverflow tbl nextBits rest (child >>> 4)

/-- `decode`: the symbol and the length of its code. -/
def decode (tbl : PackedDecodeTable) (nextBits : Nat) : Except Error (Nat × Nat) :=
  let entry := tbl.direct.getD (nextBits >>> (32 - TABLE_BITS)) 0
  let codeLen := entry % 16
  if codeLen ≠ 0 then .ok (entry >>> 4, codeLen)
  else tbl.decodeOverflow nextBits (range' TABLE_BITS (MAX_CODE_BITS - TABLE_BITS)) (entry >>> 4)

end PackedDecodeTable

/-! ### Decompression -/

def INPUT_GUARD : Nat := 176

def OUTPUT_GUARD : Nat := 188

/-- The bit register of `decompress_block_strict` and the position in the stream. -/
structure BitState where
  pos : Nat
  nextBits : Nat
  extraBitCount : Nat
  deriving Repr, DecidableEq

section Readers

/-! The fast path reads without checks; its guards keep the reads inside the input. -/

variable (checked : Bool) (data : Bytes)

def readU16 (pos : Nat) : Except Error Nat :=
  if checked ∧ pos + 2 > data.length then
    .error (.inputTruncated (HEADER_SIZE + pos) 2 (data.length - pos))
  else .ok (data.le16 pos)

def readU32 (pos : Nat) : Except Error Nat :=
  if checked ∧ pos + 4 > data.length then
    .error (.inputTruncated (HEADER_SIZE + pos) 4 (data.length - pos))
  else .ok (data.le32 pos)

def readByte (pos : Nat) : Except Error Nat :=
  if pos ≥ data.length then
    if checked then .error (.inputTruncated (HEADER_SIZE + pos) 1 0) else .error .panicked
  else .ok (data.getD pos 0).toNat

/-- Drop `n` bits, and refill the register if fewer than 16 are left. -/
def consume (n : Nat) (st : BitState) : Except Error BitState :=
  let nextBits := (st.nextBits <<< n) % 2 ^ 32
  if st.extraBitCount < n then do
    let word ← readU16 checked data st.pos
    .ok { pos := st.pos + 2
          nextBits := nextBits ||| (word <<< (n - st.extraBitCount)) % 2 ^ 32
          extraBitCount := st.extraBitCount + 16 - n }
  else .ok { st with nextBits, extraBitCount := st.extraBitCount - n }

/-- The length of a match and the position after its extension bytes. -/
def readLength (lengthHeader pos : Nat) : Except Error (Nat × Nat) :=
  if lengthHeader < 15 then .ok (lengthHeader + 3, pos)
  else do
    let extraByte ← readByte checked data pos
    let pos := pos + 1
    if extraByte < 255 then .ok (extraByte + 15 + 3, pos)
    else do
      let u16Val ← readU16 checked data pos
      let pos := pos + 2
      if u16Val = 0 then do
        let u32Val ← readU32 checked data pos
        .ok (u32Val + 3, pos + 4)
      else if u16Val < 15 then
        .error (.invalidData (HEADER_SIZE + pos - 2) ("XPRESS Huffman u16 length " ++
          toString u16Val ++ " is less than minimum 15"))
      else .ok (u16Val + 3, pos)

/-- The distance of a match. -/
def readDistance (distanceLog : Nat) (st : BitState) : Except Error (Nat × BitState) :=
  if distanceLog = 0 then .ok (1, st)
  else do
    let extra := st.nextBits >>> (32 - distanceLog)
    let st ← consume checked data distanceLog st
    .ok (1 <<< distanceLog + extra, st)

/-- A match symbol: the match and the state after it. -/
def readMatch (symbol : Nat) (st : BitState) : Except Error (Match × BitState) := do
  let symOffset := symbol - 256
  let (length, pos) ← readLength checked data (symOffset % 16) st.pos
  let (offset, st) ← readDistance checked data (symOffset >>> 4) { st with pos }
  .ok ({ offset, length }, st)

end Readers

/-- `copy_match_fast` of this module, with its bound. -/
def copyMatch (output : Bytes) (outPos distance length limit : Nat) : Except Error Bytes :=
  if outPos + length > limit then .error (.outputTooSmall (outPos + length) limit)
  else
    let src := outPos - distance
    if distance ≥ length then .ok (Lz77.copyWithin output src outPos length)
    else if distance = 1 then
      .ok (Xpress.fillLoop outPos length length 1 (output.set outPos (output.getD src 0)))
    else .ok (copyTiers distance src outPos length [(16, [8]), (8, [])] output)

/-- A match of the fast path: the bound is checked before the unchecked copy. -/
def copyMatchGuarded (level : SimdLevel) (output : Bytes) (outPos distance length limit : Nat) :
    Except Error Bytes :=
  if outPos + length > limit then .error (.outputTooSmall (outPos + length) limit)
  else .ok (copyMatchFast level output outPos distance length)

/-- One symbol of either path: the state, the buffer and the position in it. -/
def decodeSymbol (checked : Bool) (copy : Bytes → Nat → Nat → Nat → Nat → Except Error Bytes)
    (table : PackedDecodeTable) (data : Bytes) (outStart blockLimit : Nat) (st : BitState)
    (output : Bytes) (outPos : Nat) : Except Error (BitState × Bytes × Nat) := do
  let (symbol, codeLen) ← table.decode st.nextBits
  let st ← consume checked data codeLen st
  if symbol < 256 then .ok (st, output.set outPos (ofNat symbol), outPos + 1)
  else do
    let (m, st) ← readMatch checked data symbol st
    let posInBlock := outPos - outStart
    if m.offset > posInBlock then
      .error (.invalidData (HEADER_SIZE + st.pos) ("XPRESS Huffman match distance " ++
        toString m.offset ++ " exceeds block position " ++ toString posInBlock))
    else do
      let output ← copy output outPos m.offset m.length blockLimit
      .ok (st, output, outPos + m.length)

/-- The loop of either path, while `guard` holds. -/
def decodeLoop (guard : BitState → Nat → Bool)
    (symbol : BitState → Bytes → Nat → Except Error (BitState × Bytes × Nat)) :
    Nat → BitState → Bytes → Nat → Except Error (BitState × Bytes × Nat)
  | 0, st, output, outPos => .ok (st, output, outPos)
  | fuel + 1, st, output, outPos =>
    if guard st outPos then do
      let (st, output, outPos) ← symbol st output outPos
      decodeLoop guard symbol fuel st output outPos
    else .ok (st, output, outPos)

def parseCodeLengths (header : Bytes) : List Nat :=
  header.flatMap fun byte => [byte.toNat % 16, byte.toNat >>> 4]

/-- `decompress_block_strict`: the buffer, and the numbers of bytes consumed and written. A symbol
    writes at least one byte, so that the fuel does not run out. -/
def decompressBlockStrict (level : SimdLevel) (input output : Bytes) (outStart blockLimit : Nat) :
    Except Error (Bytes × Nat × Nat) :=
  if input.length < HEADER_SIZE then .error (.inputTruncated 0 HEADER_SIZE input.length)
  else do
    let table ← PackedDecodeTable.build (parseCodeLengths (input.slice 0 HEADER_SIZE))
    let data : Bytes := input.drop HEADER_SIZE
    if data.length < 4 then
      .error (.inputTruncated HEADER_SIZE (HEADER_SIZE + 4) input.length)
    else do
      let st : BitState :=
        { pos := 4, nextBits := data.le16 0 <<< 16 ||| data.le16 2, extraBitCount := 16 }
      let (st, output, outPos) ← decodeLoop
        (fun st outPos => outPos + OUTPUT_GUARD < blockLimit ∧ st.pos + INPUT_GUARD ≤ data.length)
        (decodeSymbol false (copyMatchGuarded level) table data outStart blockLimit)
        blockLimit st output outStart
      let (st, output, outPos) ← decodeLoop (fun _ outPos => outPos < blockLimit)
        (decodeSymbol true copyMatch table data outStart blockLimit) blockLimit st output outPos
      .ok (output, min (HEADER_SIZE + st.pos) input.length, outPos - outStart)

/-- The loop of `decompress`. -/
def decompressLoop (level : SimdLevel) (input : Bytes) : Nat → Nat → Nat → Bytes →
    Except Error (Bytes × Nat)
  | 0, _, outPos, output => .ok (output, outPos)
  | fuel + 1, inPos, outPos, output =>
    if outPos < output.length then do
      let blockLimit := min (outPos + BLOCK_SIZE) output.length
      let (output, consumed, written) ← decompressBlockStrict level (input.drop inPos) output
        outPos blockLimit
      if written = 0 then .ok (output, outPos)
      else decompressLoop level input fuel (inPos + consumed) (outPos + written) output
    else .ok (output, outPos)

/-- `decompress` on a processor of the given level: the buffer and the number of bytes written. -/
def decompress (level : SimdLevel) (input output : Bytes) : Except Error (Bytes × Nat) :=
  decompressLoop level input output.length 0 0 output

end Fsmnt.NtCompression.XpressHuffman
