import Fsmnt.ForStd.Bytes

/-!
# E8 call translation

`e8.rs` of `nt-compression`: the operand of every x86 `CALL` (`0xE8`) is made absolute before
compression and relative again after decompression. Both passes scan the buffer in the same way
and differ in what they do to an operand.

An `i32` is an `Int`. With a positive `file_size` and a position in range, none of the sums and
differences below leaves the range of an `i32`.
-/

namespace Fsmnt.NtCompression

/-- `i32::from_le_bytes`. -/
def i32OfLE (bs : Bytes) : Int :=
  let n := Bytes.ofLE bs
  if n < 2 ^ 31 then n else n - 2 ^ 32

/-- `i32::to_le_bytes`. -/
def i32ToLE (n : Int) : Bytes := Bytes.toLE 4 (n % 2 ^ 32).toNat

/-- `i32::try_from` succeeds. -/
def InI32 (n : Int) : Prop := -2 ^ 31 ≤ n ∧ n < 2 ^ 31

instance (n : Int) : Decidable (InI32 n) := inferInstanceAs (Decidable (_ ∧ _))

/-- What a pass writes in place of the operand `n` of a call at `currentPos`, if anything. -/
abbrev E8Translation := (n currentPos : Int) → Option Int

/-- A pass rewrites the operand at `off` of a call at `currentPos`. -/
def rewriteOperand (translate : E8Translation) (currentPos : Int) (off : Nat) (data : Bytes) :
    Bytes :=
  match translate (i32OfLE (data.slice off 4)) currentPos with
  | some value => data.splice off (i32ToLE value)
  | none => data

/-- The loop of both passes. -/
def e8Loop (translate : E8Translation) (chunkOffset : Int) (limit : Nat) : Nat → Nat → Bytes → Bytes
  | 0, _, data => data
  | fuel + 1, pos, data =>
    if pos < limit then
      if data.getD pos 0 ≠ 0xE8 then e8Loop translate chunkOffset limit fuel (pos + 1) data
      else
        let currentPos := chunkOffset + pos
        if InI32 currentPos then
          e8Loop translate chunkOffset limit fuel (pos + 5)
            (rewriteOperand translate currentPos (pos + 1) data)
        else data
    else data

/-- A pass over a buffer. -/
def e8Pass (translate : E8Translation) (data : Bytes) (chunkOffset : Int) : Bytes :=
  if data.length ≤ 10 ∨ chunkOffset ≥ 0x40000000 then data
  else e8Loop translate chunkOffset (data.length - 10) data.length 0 data

/-- The operand that `apply_e8_preprocessing` writes. -/
def applyE8Operand (fileSize : Int) : E8Translation := fun n currentPos =>
  if n ≥ -currentPos ∧ n < fileSize - currentPos then
    some (if n ≥ 0 then n + currentPos else n + fileSize)
  else none

/-- The operand that `undo_e8_preprocessing` writes. -/
def undoE8Operand (fileSize : Int) : E8Translation := fun n currentPos =>
  if n ≥ 0 ∧ n < fileSize then
    let relative := n - currentPos
    some (if relative ≥ -currentPos ∧ relative < 0 then relative + fileSize else relative)
  else if n ≥ -currentPos ∧ n < 0 then
    let restored := n + fileSize
    some (if restored ≥ 0 ∧ restored < fileSize then restored - fileSize else restored)
  else none

def applyE8Preprocessing (data : Bytes) (fileSize chunkOffset : Int) : Bytes :=
  e8Pass (applyE8Operand fileSize) data chunkOffset

def undoE8Preprocessing (data : Bytes) (fileSize chunkOffset : Int) : Bytes :=
  e8Pass (undoE8Operand fileSize) data chunkOffset

end Fsmnt.NtCompression
