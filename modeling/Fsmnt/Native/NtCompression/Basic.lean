import Fsmnt.ForStd.Bytes
import Fsmnt.ForStd.Lz77

/-!
# Errors, match copies and match lengths of `nt-compression`

`error.rs`, and the primitives on matches in `raw.rs` and `simd.rs`. The copies differ in the chunks
they move; which one runs depends on the processor.
-/

namespace Fsmnt.NtCompression

/-- `Error`, and `panicked` for a run that ends in a panic. -/
inductive Error where
  | panicked
  | inputTruncated (offset expected actual : Nat)
  | outputTooSmall (expected actual : Nat)
  | invalidData (offset : Nat) (reason : String)
  | invalidHuffmanTable (reason : String)
  deriving Repr, DecidableEq

/-- `SimdLevel` of `fsmnt-parser-core`. -/
inductive SimdLevel where
  | scalar
  | sse2
  | avx2
  | avx512
  deriving Repr, DecidableEq

/-- After the full chunks: one chunk `if i + t <= length` for every `t` in `tails`, and then
    the rest byte by byte. -/
def copyTail (src dst length : Nat) : List Nat → Nat → Bytes → Bytes
  | [], i, buf => Lz77.copyChunks 1 src dst (length - i) i buf
  | t :: tails, i, buf =>
    if i + t ≤ length then
      copyTail src dst length tails (i + t) (Lz77.copyWithin buf (src + i) (dst + i) t)
    else copyTail src dst length tails i buf

/-- The chunks of the first tier that are no longer than `distance`; bytes if there is none. -/
def copyTiers (distance src dst length : Nat) : List (Nat × List Nat) → Bytes → Bytes
  | [], buf => Lz77.copyChunks 1 src dst length 0 buf
  | (w, tails) :: tiers, buf =>
    if distance ≥ w then
      copyTail src dst length tails (w * (length / w))
        (Lz77.copyChunks w src dst (length / w) 0 buf)
    else copyTiers distance src dst length tiers buf

/-- The shape that `copy_match_unchecked` and the SIMD copies share. -/
def copyMatchTiered (tiers : List (Nat × List Nat)) (output : Bytes)
    (outPos distance length : Nat) : Bytes :=
  let src := outPos - distance
  if distance ≥ length then Lz77.copyWithin output src outPos length
  else if distance = 1 then
    output.splice outPos (List.replicate length (output.getD src 0))
  else copyTiers distance src outPos length tiers output

/-- `raw::copy_match_unchecked`, which is also `copy_match_scalar`. -/
def copyMatchUnchecked : Bytes → Nat → Nat → Nat → Bytes := copyMatchTiered [(16, []), (8, [])]

def copyMatchSse2 : Bytes → Nat → Nat → Nat → Bytes := copyMatchTiered [(16, []), (8, [])]

def copyMatchAvx2 : Bytes → Nat → Nat → Nat → Bytes :=
  copyMatchTiered [(32, [16]), (16, []), (8, [])]

def copyMatchAvx512 : Bytes → Nat → Nat → Nat → Bytes :=
  copyMatchTiered [(64, [32, 16]), (32, [16]), (16, []), (8, [])]

/-- `copy_match_fast` on a processor of the given level. -/
def copyMatchFast (level : SimdLevel) : Bytes → Nat → Nat → Nat → Bytes :=
  match level with
  | .scalar => copyMatchUnchecked
  | .sse2 => copyMatchSse2
  | .avx2 => copyMatchAvx2
  | .avx512 => copyMatchAvx512

/-! ### Match finding -/

/-- `match_length_unchecked`: the number of leading bytes, at most `max`, in which `data` agrees at
    `a` and at `b`. The source compares eight bytes at a time. -/
def matchLength (data : Bytes) (a b : Nat) : (max : Nat) → Nat
  | 0 => 0
  | max + 1 =>
    if data.getD a 0 = data.getD b 0 then matchLength data (a + 1) (b + 1) max + 1 else 0

/-- Three bytes, multiplied into 32 bits. -/
def mixHash3 (data : Bytes) (pos : Nat) : Nat := Bytes.ofLE (data.slice pos 3) * 0x9E3779B1 % 2 ^ 32

end Fsmnt.NtCompression
