import Fsmnt.ForStd.ReadSeek

/-!
# The block cache

`io/block_cache.rs` of the parser core. One block of fixed size is kept. It is invalidated before a
block is read over it, so that nothing depends on what a failing read has put there.
-/

namespace Fsmnt.ParserCore

/-- `Attached`: a value together with the reader it is read from. -/
structure Attached (σ α : Type) where
  fs : σ
  value : α

/-- A call on the underlying reader. -/
def Attached.onFs {ε σ α β : Type} (x : EStateM ε σ β) : EStateM ε (Attached σ α) β :=
  EStateM.zoom Attached.fs (fun fs self => { self with fs }) x

structure BlockCache where
  blockSize : Nat
  start : Option Nat
  bytes : Bytes
  deriving DecidableEq

namespace BlockCache

/-- `new`; nothing is allocated yet. -/
def new (blockSize : Nat) : BlockCache := { blockSize, start := none, bytes := [] }

variable {ε σ : Type} (fs : BlockReader ε σ)

/-- The block is no longer said to be there. -/
def invalidate (self : Attached σ BlockCache) : Attached σ BlockCache :=
  { self with value := { self.value with start := none } }

/-- The block has been read. -/
def fill (start : Nat) (bytes : Bytes) (self : Attached σ BlockCache) : Attached σ BlockCache :=
  { self with value := { self.value with start := some start, bytes } }

def readBlock (start : Nat) : EStateM ε (Attached σ BlockCache) Bytes := do
  let self ← get
  if self.value.start = some start then pure self.value.bytes
  else do
    modify invalidate
    let _ ← Attached.onFs (fs.seek (.start start))
    let bytes ← Attached.onFs (fs.readExact self.value.blockSize)
    modify (fill start bytes)
    pure bytes

/-- The loop of `read_exact_at`. Each pass copies at least one byte. -/
def readBlocks (invalidInput : ε) (blockSize : Nat) :
    Nat → Nat → Nat → EStateM ε (Attached σ BlockCache) Bytes
  | 0, _, _ => pure []
  | passes + 1, position, remaining =>
    if remaining = 0 then pure []
    else if 2 ^ 64 ≤ position then throw invalidInput
    else do
      let blockStart := position / blockSize * blockSize
      let within := position - blockStart
      let chunk := min (blockSize - within) remaining
      let block ← readBlock fs blockStart
      let rest ← readBlocks invalidInput blockSize passes (position + chunk) (remaining - chunk)
      pure (block.slice within chunk ++ rest)

def readExactAt (invalidInput : ε) (offset n : Nat) : EStateM ε (Attached σ BlockCache) Bytes := do
  let self ← get
  readBlocks fs invalidInput self.value.blockSize n offset n

end BlockCache

end Fsmnt.ParserCore
