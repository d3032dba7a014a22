import Fsmnt.ForStd.Bytes

/-!
# LZO extents

`decompress_lzo` of `file/compression.rs`. The LZO1X decoder is a library: it is given a segment and
the size of the buffer for what it decodes. Positions stay below `2 ^ 34`, so that no addition
overflows; allocations do not fail.
-/

namespace Fsmnt.FsBtrfs

open Bytes

inductive BtrfsError where
  | decompressionFailed (compression : UInt8) (reason : String)
  deriving DecidableEq, Repr

/-- `decode_error(Compression::Lzo, ..)`. -/
def lzoError (reason : String) : BtrfsError := .decompressionFailed 2 reason

section

variable (decode : Bytes → Nat → Except String Bytes) (data : Bytes) (outputLength sectorSize : Nat)

/-- The loop of `decompress_lzo`. Each pass goes behind a header, so there are fewer passes than
    bytes. -/
def decompressLzoLoop (totalLength : Nat) : Nat → Nat → Bytes → Except BtrfsError Bytes
  | 0, _, output => .ok output
  | passes + 1, position, output =>
    if position < totalLength ∧ output.length < outputLength then
      let sectorRemaining := sectorSize - position % sectorSize
      if sectorRemaining < 4 ∧ totalLength - position ≤ sectorRemaining then .ok output
      else
        let position := if sectorRemaining < 4 then position + sectorRemaining else position
        let headerEnd := position + 4
        if totalLength < headerEnd then .error (lzoError "truncated LZO segment header")
        else
          let segmentLength := data.le32 position
          let segmentEnd := headerEnd + segmentLength
          if totalLength < segmentEnd then .error (lzoError "truncated LZO segment")
          else
            match decode (data.slice headerEnd segmentLength) sectorSize with
            | .error reason => .error (lzoError reason)
            | .ok decoded => decompressLzoLoop totalLength passes segmentEnd
                (output ++ decoded.take (outputLength - output.length))
    else .ok output

def decompressLzo : Except BtrfsError Bytes :=
  if data.length < 4 ∨ sectorSize < 4 then .error (lzoError "truncated LZO header")
  else
    let totalLength := data.le32 0
    if data.length < totalLength then .error (lzoError "LZO total length exceeds the extent")
    else
      match decompressLzoLoop decode data outputLength sectorSize totalLength totalLength 4 [] with
      | .error e => .error e
      | .ok output =>
        if output.length ≠ outputLength then
          .error (lzoError "decoded LZO length differs from ram_bytes")
        else .ok output

end

end Fsmnt.FsBtrfs
