import Fsmnt.ForStd.Bytes
import Fsmnt.ForStd.EStateM

/-!
# Readers with a position

A reader is given by what `read` and `seek` do to its state. A read is asked for a number of bytes
and may return fewer; a call that fails leaves a state too, and the next call starts from it.
-/

/-- Where a seek counts from. -/
inductive SeekFrom where
  | start (offset : Nat)
  | current (delta : Int)
  | fromEnd (delta : Int)
  deriving DecidableEq, Repr

/-- A call on a reader. -/
inductive ReaderCall where
  | read (count : Nat)
  | seek (position : SeekFrom)
  deriving DecidableEq, Repr

/-- The operations of a reader with states `σ` and errors `ε`. -/
structure ReadSeek (ε σ : Type) where
  read : Nat → EStateM ε σ Bytes
  seek : SeekFrom → EStateM ε σ Nat

/-- A reader with its `read_exact`, which fails unless it can return all the bytes asked for. -/
structure BlockReader (ε σ : Type) extends ReadSeek ε σ where
  readExact : Nat → EStateM ε σ Bytes

/-- A block reader, with what a `read_exact` that fails has put at the start of its buffer. -/
structure FillReader (ε σ : Type) extends BlockReader ε σ where
  written : Nat → σ → Bytes

namespace ReadSeek

variable {ε σ : Type}

/-- The state after a call, whether it succeeded or failed. -/
def after (reader : ReadSeek ε σ) (s : σ) : ReaderCall → σ
  | .read count => (reader.read count s).state
  | .seek position => (reader.seek position s).state

end ReadSeek

/-- `checked_add_signed` on `u64`. -/
def Nat.checkedAddSigned64 (base : Nat) (delta : Int) : Option Nat :=
  if 0 ≤ (base : Int) + delta ∧ ((base : Int) + delta).toNat < 2 ^ 64 then
    some ((base : Int) + delta).toNat
  else none

/-- Where a seek goes in a stream of the given length, from the given position. -/
def SeekFrom.target (length position : Nat) : SeekFrom → Option Nat
  | .start offset => some offset
  | .current delta => position.checkedAddSigned64 delta
  | .fromEnd delta => length.checkedAddSigned64 delta

/-- The sum, where it is a `u64`. -/
theorem Nat.checkedAddSigned64_eq_some_iff {base r : Nat} {delta : Int} :
    base.checkedAddSigned64 delta = some r ↔ (base : Int) + delta = r ∧ r < 2 ^ 64 := by
  unfold Nat.checkedAddSigned64
  constructor
  · intro h
    split at h
    · cases h
      omega
    · cases h
  · rintro ⟨h, hlt⟩
    rw [if_pos (by omega), Option.some.injEq]
    omega
