import Fsmnt.Native.NtCompression.Lznt1

/-!
# What the LZNT1 decoder leaves in its output buffer

`lznt1/decompress.rs` decodes in place: an error leaves what was decoded before it in the buffer.
The strict decoder stops there. The lenient one zeroes the buffer first, skips the chunk and goes
on.
-/

namespace Fsmnt.NtCompression.Lznt1

/-- The buffer when the items of a flag byte are decoded, or one of them fails. -/
def itemsBuffer (chunkData : Bytes) (chunkStart flags : Nat) : List Nat → ChunkDecoder → Bytes
  | [], st => st.output
  | bit :: bits, st =>
    if st.cp ≥ chunkData.length then st.output
    else
      let item := if (flags >>> bit) % 2 = 0 then decodeLiteralItem chunkData st
        else decodeMatchItem chunkData chunkStart st
      match item with
      | .ok st => itemsBuffer chunkData chunkStart flags bits st
      | .error _ => st.output

/-- The buffer when `decompress_chunk_strict` ends. -/
def chunkBuffer (chunkData : Bytes) (chunkStart : Nat) : Nat → ChunkDecoder → Bytes
  | 0, st => st.output
  | fuel + 1, st =>
    if st.cp < chunkData.length then
      let flags := (chunkData.getD st.cp 0).toNat
      let st := { st with cp := st.cp + 1 }
      match decodeItems chunkData chunkStart flags (List.range 8) st with
      | .ok st => chunkBuffer chunkData chunkStart fuel st
      | .error _ => itemsBuffer chunkData chunkStart flags (List.range 8) st
    else st.output

/-- The buffer when a chunk that is in the input is decoded; a stored chunk that does not fit is not
    copied at all. -/
def nextBuffer (chunkData : Bytes) (isCompressed : Bool) (output : Bytes) (outPos : Nat) : Bytes :=
  if isCompressed then
    chunkBuffer chunkData outPos chunkData.length { cp := 0, wp := outPos, output }
  else
    match copyUncompressedChunk chunkData output outPos with
    | .ok (output, _) => output
    | .error _ => output

/-- The buffer when the loop of `decompress` ends. -/
def bufferLoop (input : Bytes) : Nat → Nat → Bytes → Nat → Bytes
  | 0, _, output, _ => output
  | fuel + 1, inPos, output, outPos =>
    match readChunkHeader input inPos with
    | none => output
    | some header =>
      let chunkDataSize := header % 2 ^ 12 + 1
      match decompressNext input header (inPos + 2) output outPos with
      | .ok (output, outPos) => bufferLoop input fuel (inPos + 2 + chunkDataSize) output outPos
      | .error _ =>
        -- the signature and the size are checked before anything is written
        if (header >>> 12) % 2 ^ 3 ≠ CHUNK_SIGNATURE ∨ inPos + 2 + chunkDataSize > input.length then
          output
        else nextBuffer (input.slice (inPos + 2) chunkDataSize) (header.testBit 15) output outPos

/-- The buffer when `decompress` ends, with a result or an error. -/
def decompressBuffer (input output : Bytes) : Bytes := bufferLoop input input.length 0 output 0

/-- One chunk of `decompress_lenient`. -/
def lenientNext (chunkData : Bytes) (isCompressed : Bool) (output : Bytes) (outPos : Nat) :
    Bytes × Nat :=
  let decoded := if isCompressed then decompressChunkStrict chunkData output outPos
    else copyUncompressedChunk chunkData output outPos
  match decoded with
  | .ok (output, outPos) => (output, outPos)
  | .error _ =>
    let skipped := if isCompressed then CHUNK_SIZE else chunkData.length
    (nextBuffer chunkData isCompressed output outPos, outPos + min skipped (output.length - outPos))

/-- The loop of `decompress_lenient`. -/
def lenientLoop (input : Bytes) : Nat → Nat → Bytes → Nat → Bytes
  | 0, _, output, _ => output
  | fuel + 1, inPos, output, outPos =>
    match readChunkHeader input inPos with
    | none => output
    | some header =>
      let chunkDataSize := header % 2 ^ 12 + 1
      if inPos + 2 + chunkDataSize > input.length then output
      else if outPos ≥ output.length then output
      else
        let (output, outPos) := lenientNext (input.slice (inPos + 2) chunkDataSize)
          (header.testBit 15) output outPos
        lenientLoop input fuel (inPos + 2 + chunkDataSize) output outPos

/-- `decompress_lenient` into a buffer of `n` bytes, which it zeroes first. -/
def decompressLenient (input : Bytes) (n : Nat) : Bytes :=
  lenientLoop input input.length 0 (Bytes.zeros n) 0

end Fsmnt.NtCompression.Lznt1
