import Fsmnt.Native.NtCompression.Basic
import Std.Data.TreeMap

/-!
# LZNT1

`lznt1/compress.rs` and the strict decoder of `lznt1/decompress.rs`. The input is cut into chunks
of 4 KiB; a compressed chunk is a sequence of flag bytes, each followed by up to eight items, and
the split of a match word into offset and length depends on the position in the chunk.
-/

namespace Fsmnt.NtCompression

namespace Lznt1

def CHUNK_SIZE : Nat := 4096

def CHUNK_SIGNATURE : Nat := 0b011

/-- The loop of `bit_widths`. No chunk reaches the position where `shift` would pass zero. -/
def bitWidthsLoop (posInChunk : Nat) : (shift threshold : Nat) → Nat
  | 0, _ => 0
  | shift + 1, threshold =>
    if threshold < posInChunk then bitWidthsLoop posInChunk shift (threshold <<< 1) else shift + 1

/-- `bit_widths`: the bits of a length, and those of a displacement. -/
def bitWidths (posInChunk : Nat) : Nat × Nat :=
  let shift := bitWidthsLoop posInChunk 12 0x10
  (shift, 16 - shift)

/-! ### Compression -/

def compressBound (inputLen : Nat) : Nat :=
  let numChunks := max ((inputLen + CHUNK_SIZE - 1) / CHUNK_SIZE) 1
  inputLen + numChunks * 2 + 2

/-- `hash3` into 4096 slots. -/
def hash3 (data : Bytes) (pos : Nat) : Nat := (mixHash3 data pos >>> 20) % 4096

/-- The hash table of a chunk; a slot that was never written is zero. -/
abbrev Head := Std.TreeMap Nat Nat

def updateHash (chunk : Bytes) (pos : Nat) (head : Head) : Head :=
  if pos + 3 ≤ chunk.length then head.insert (hash3 chunk pos) pos else head

def findChunkMatch (chunk : Bytes) (pos : Nat) (head : Head) : Option Lz77.Match :=
  if pos + 3 > chunk.length ∨ pos = 0 then none
  else
    let candidate := head.getD (hash3 chunk pos) 0
    if candidate ≥ pos then none
    else
      let displacement := pos - candidate
      let (lengthBits, _) := bitWidths pos
      let maxDisp := 1 <<< (16 - lengthBits)
      if displacement > maxDisp then none
      else
        let maxLenFromBits := (1 <<< lengthBits) - 1 + 3
        let maxLen := min maxLenFromBits (chunk.length - pos)
        let length := matchLength chunk candidate pos maxLen
        if length ≥ 3 then some { offset := displacement, length } else none

/-- The state of `compress_chunk`. -/
structure ChunkEncoder where
  output : Bytes
  outPos : Nat
  inPos : Nat
  head : Head

/-- A literal item. -/
def encodeLiteral (chunk : Bytes) (st : ChunkEncoder) : Option ChunkEncoder :=
  if st.outPos ≥ st.output.length then none
  else some
    { output := st.output.set st.outPos (chunk.getD st.inPos 0)
      outPos := st.outPos + 1
      inPos := st.inPos + 1
      head := updateHash chunk st.inPos st.head }

/-- A match item; `word` is its encoding. -/
def encodeMatch (chunk : Bytes) (word length : Nat) (st : ChunkEncoder) : Option ChunkEncoder :=
  if st.outPos + 2 > st.output.length then none
  else some
    { output := st.output.splice st.outPos (Bytes.toLE 2 word)
      outPos := st.outPos + 2
      inPos := st.inPos + length
      head := (List.range length).foldl (fun head i => updateHash chunk (st.inPos + i) head)
        st.head }

/-- The items of a flag byte, for the remaining `bits`, and the flags. -/
def compressItems (chunk : Bytes) : List Nat → Nat → ChunkEncoder → Option (Nat × ChunkEncoder)
  | [], flags, st => some (flags, st)
  | bit :: bits, flags, st =>
    if st.inPos ≥ chunk.length then some (flags, st)
    else
      match findChunkMatch chunk st.inPos st.head with
      | some m =>
        let (lengthBits, _) := bitWidths st.inPos
        let lengthMask := (1 <<< lengthBits) - 1
        let encodedDisp := m.offset - 1
        let encodedLen := m.length - 3
        if encodedLen > lengthMask then
          (encodeLiteral chunk st).bind fun st => compressItems chunk bits flags st
        else
          let word := (encodedDisp <<< lengthBits) % 2 ^ 16 ||| encodedLen
          (encodeMatch chunk word m.length st).bind fun st =>
            compressItems chunk bits (flags ||| 1 <<< bit) st
      | none => (encodeLiteral chunk st).bind fun st => compressItems chunk bits flags st

/-- One flag byte with its items. -/
def compressGroup (chunk : Bytes) (st : ChunkEncoder) : Option ChunkEncoder :=
  if st.outPos ≥ st.output.length then none
  else
    let flagPos := st.outPos
    let st := { st with output := st.output.set flagPos 0, outPos := st.outPos + 1 }
    (compressItems chunk (List.range 8) 0 st).map fun (flags, st) =>
      { st with output := st.output.set flagPos (UInt8.ofNat flags) }

/-- The loop of `compress_chunk`. -/
def compressChunkLoop (chunk : Bytes) : Nat → ChunkEncoder → Option ChunkEncoder
  | 0, st => some st
  | fuel + 1, st =>
    if st.inPos < chunk.length then
      (compressGroup chunk st).bind fun st => compressChunkLoop chunk fuel st
    else some st

/-- `compress_chunk`: the number of bytes written, and the buffer. -/
def compressChunk (chunk output : Bytes) : Option (Nat × Bytes) :=
  (compressChunkLoop chunk chunk.length
    { output, outPos := 0, inPos := 0, head := ∅ }).map fun st => (st.outPos, st.output)

def writeBytes (output : Bytes) (outPos : Nat) (data : Bytes) : Except Error (Bytes × Nat) :=
  if outPos + data.length > output.length then
    .error (.outputTooSmall (outPos + data.length) output.length)
  else .ok (output.splice outPos data, outPos + data.length)

def writeChunkHeader (output : Bytes) (outPos dataSize : Nat) (isCompressed : Bool) :
    Except Error (Bytes × Nat) :=
  if outPos + 2 > output.length then .error (.outputTooSmall (outPos + 2) output.length)
  else
    let sizeField := (dataSize - 1) % 2 ^ 12
    let compressedFlag := if isCompressed then 0x8000 else 0
    let header := sizeField ||| CHUNK_SIGNATURE <<< 12 ||| compressedFlag
    .ok (output.splice outPos (Bytes.toLE 2 header), outPos + 2)

/-- One chunk of `compress`. All bytes below the returned length are written, so that what an
    earlier chunk left in the scratch buffer is not seen. -/
def compressNext (chunkData output : Bytes) (outPos : Nat) : Except Error (Bytes × Nat) :=
  match compressChunk chunkData (Bytes.zeros chunkData.length) with
  | some (compressedLen, compressed) =>
    if compressedLen < chunkData.length then do
      let (output, outPos) ← writeChunkHeader output outPos compressedLen true
      writeBytes output outPos (compressed.take compressedLen)
    else do
      let (output, outPos) ← writeChunkHeader output outPos chunkData.length false
      writeBytes output outPos chunkData
  | none => do
    let (output, outPos) ← writeChunkHeader output outPos chunkData.length false
    writeBytes output outPos chunkData

/-- The loop of `compress`. -/
def compressLoop (input : Bytes) : Nat → Nat → Bytes → Nat → Except Error (Bytes × Nat)
  | 0, _, output, outPos => .ok (output, outPos)
  | fuel + 1, inPos, output, outPos =>
    if inPos < input.length then do
      let chunkEnd := min (inPos + CHUNK_SIZE) input.length
      let (output, outPos) ← compressNext (input.slice inPos (chunkEnd - inPos)) output outPos
      compressLoop input fuel chunkEnd output outPos
    else .ok (output, outPos)

/-- `compress`: the output buffer and the number of bytes written. -/
def compress (input output : Bytes) : Except Error (Bytes × Nat) := do
  let (output, outPos) ← compressLoop input input.length 0 output 0
  if outPos + 2 > output.length then .error (.outputTooSmall (outPos + 2) output.length)
  else .ok ((output.set outPos 0).set (outPos + 1) 0, outPos + 2)

/-! ### Decompression -/

def readChunkHeader (input : Bytes) (offset : Nat) : Option Nat :=
  if offset + 2 > input.length then none
  else
    let header := input.le16 offset
    if header = 0 then none else some header

/-- `{:#05b}` of a three-bit number. -/
def formatSignature (sig : Nat) : String :=
  "0b" ++ String.ofList ([2, 1, 0].map fun bit => if sig.testBit bit then '1' else '0')

def validateChunkSignature (header headerOffset : Nat) : Except Error Unit :=
  let sig := (header >>> 12) % 2 ^ 3
  if sig ≠ CHUNK_SIGNATURE then
    .error (.invalidData headerOffset ("LZNT1 chunk signature " ++ formatSignature sig ++
      ", expected " ++ formatSignature CHUNK_SIGNATURE))
  else .ok ()

def copyUncompressedChunk (chunkData output : Bytes) (outPos : Nat) :
    Except Error (Bytes × Nat) :=
  let len := chunkData.length
  if outPos + len > output.length then .error (.outputTooSmall (outPos + len) output.length)
  else .ok (output.splice outPos chunkData, outPos + len)

def decodeMatch (word posInChunk : Nat) : Lz77.Match :=
  let (lengthBits, _) := bitWidths posInChunk
  { offset := (word >>> lengthBits) + 1, length := word % 2 ^ lengthBits + 3 }

/-- The state of `decompress_chunk_strict`. -/
structure ChunkDecoder where
  cp : Nat
  wp : Nat
  output : Bytes
  deriving Repr, DecidableEq

/-- A match item. -/
def decodeMatchItem (chunkData : Bytes) (chunkStart : Nat) (st : ChunkDecoder) :
    Except Error ChunkDecoder :=
  if st.cp + 2 > chunkData.length then
    .error (.inputTruncated st.cp 2 (chunkData.length - st.cp))
  else
    let posInChunk := st.wp - chunkStart
    let m := decodeMatch (chunkData.le16 st.cp) posInChunk
    if m.offset > posInChunk then
      .error (.invalidData st.cp ("LZNT1 displacement " ++ toString m.offset ++
        " exceeds position " ++ toString posInChunk))
    else if st.wp + m.length > st.output.length then
      .error (.outputTooSmall (st.wp + m.length) st.output.length)
    else .ok
      { cp := st.cp + 2
        wp := st.wp + m.length
        output := Lz77.copyChunks 1 (st.wp - m.offset) st.wp m.length 0 st.output }

/-- A literal item. -/
def decodeLiteralItem (chunkData : Bytes) (st : ChunkDecoder) : Except Error ChunkDecoder :=
  if st.wp ≥ st.output.length then .error (.outputTooSmall (st.wp + 1) st.output.length)
  else .ok
    { cp := st.cp + 1
      wp := st.wp + 1
      output := st.output.set st.wp (chunkData.getD st.cp 0) }

/-- The items of a flag byte, for the remaining `bits`. -/
def decodeItems (chunkData : Bytes) (chunkStart flags : Nat) :
    List Nat → ChunkDecoder → Except Error ChunkDecoder
  | [], st => .ok st
  | bit :: bits, st =>
    if st.cp ≥ chunkData.length then .ok st
    else if (flags >>> bit) % 2 = 0 then do
      decodeItems chunkData chunkStart flags bits (← decodeLiteralItem chunkData st)
    else do
      decodeItems chunkData chunkStart flags bits (← decodeMatchItem chunkData chunkStart st)

/-- The loop of `decompress_chunk_strict`. -/
def decompressChunkLoop (chunkData : Bytes) (chunkStart : Nat) :
    Nat → ChunkDecoder → Except Error ChunkDecoder
  | 0, st => .ok st
  | fuel + 1, st =>
    if st.cp < chunkData.length then do
      let flags := (chunkData.getD st.cp 0).toNat
      let st ← decodeItems chunkData chunkStart flags (List.range 8) { st with cp := st.cp + 1 }
      decompressChunkLoop chunkData chunkStart fuel st
    else .ok st

def decompressChunkStrict (chunkData output : Bytes) (outPos : Nat) :
    Except Error (Bytes × Nat) := do
  let st ← decompressChunkLoop chunkData outPos chunkData.length { cp := 0, wp := outPos, output }
  .ok (st.output, st.wp)

/-- One chunk of `decompress`, whose header has been read. -/
def decompressNext (input : Bytes) (header inPos : Nat) (output : Bytes) (outPos : Nat) :
    Except Error (Bytes × Nat) := do
  validateChunkSignature header (inPos - 2)
  let chunkDataSize := header % 2 ^ 12 + 1
  if inPos + chunkDataSize > input.length then
    .error (.inputTruncated inPos chunkDataSize (input.length - inPos))
  else
    let chunkData := input.slice inPos chunkDataSize
    if header.testBit 15 then decompressChunkStrict chunkData output outPos
    else copyUncompressedChunk chunkData output outPos

/-- The loop of `decompress`. -/
def decompressLoop (input : Bytes) : Nat → Nat → Bytes → Nat → Except Error (Bytes × Nat)
  | 0, _, output, outPos => .ok (output, outPos)
  | fuel + 1, inPos, output, outPos =>
    match readChunkHeader input inPos with
    | none => .ok (output, outPos)
    | some header => do
      let (output, outPos) ← decompressNext input header (inPos + 2) output outPos
      decompressLoop input fuel (inPos + 2 + (header % 2 ^ 12 + 1)) output outPos

/-- `decompress`: the output buffer and the number of bytes written. -/
def decompress (input output : Bytes) : Except Error (Bytes × Nat) :=
  decompressLoop input input.length 0 output 0

end Lznt1

end Fsmnt.NtCompression
