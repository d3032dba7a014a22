import Fsmnt.Native.NtCompression.Basic
import Std.Data.TreeMap

/-!
# Hash-chain match finder

`lz77.rs`: the finder that the XPRESS, XPRESS Huffman and LZX compressors share, with lazy matching.
-/

namespace Fsmnt.NtCompression

/-- `MatchFinder`, with its configuration. A slot of either table that was never written is zero;
    a position is stored plus one. -/
structure MatchFinder where
  windowSize : Nat
  minMatchLen : Nat
  maxMatchLen : Nat
  maxChainLen : Nat
  head : Std.TreeMap Nat Nat
  prev : Std.TreeMap Nat Nat

namespace MatchFinder

def standard (windowSize maxMatchLen maxChainLen : Nat) : MatchFinder :=
  { windowSize, minMatchLen := 3, maxMatchLen, maxChainLen, head := ∅, prev := ∅ }

variable (finder : MatchFinder)

def reset : MatchFinder := { finder with head := ∅ }

/-- `hash3` into 2^15 slots. -/
def hash3 (data : Bytes) (pos : Nat) : Nat := mixHash3 data pos >>> 17

/-- The longest match that is looked for at `pos`. -/
def maxLenAt (data : Bytes) (pos : Nat) : Nat :=
  let remaining := if data.length - pos < 2 ^ 32 then data.length - pos else finder.maxMatchLen
  min finder.maxMatchLen remaining

/-- The loop of `find_match`, with the links that may still be followed: the best length and its
    offset. -/
def findMatchLoop (finder : MatchFinder) (data : Bytes) (pos : Nat) :
    Nat → Nat → Nat → Nat → Nat × Nat
  | 0, _, bestLen, bestOffset => (bestLen, bestOffset)
  | links + 1, chainPos, bestLen, bestOffset =>
    if chainPos = 0 then (bestLen, bestOffset)
    else
      let candidate := chainPos - 1
      let dist := pos - candidate
      if dist > finder.windowSize ∨ candidate ≥ pos then (bestLen, bestOffset)
      else
        let maxLen := finder.maxLenAt data pos
        let next := finder.prev.getD (candidate % finder.windowSize) 0
        if bestLen < maxLen ∧ data.getD (candidate + bestLen) 0 = data.getD (pos + bestLen) 0 then
          let len := matchLength data candidate pos maxLen
          if len > bestLen then
            if len = maxLen then (len, dist)
            else findMatchLoop finder data pos links next len dist
          else findMatchLoop finder data pos links next bestLen bestOffset
        else findMatchLoop finder data pos links next bestLen bestOffset

def findMatch (data : Bytes) (pos : Nat) : Option Lz77.Match :=
  if pos + finder.minMatchLen > data.length then none
  else if data.length - pos < 3 then none
  else
    let (bestLen, bestOffset) := findMatchLoop finder data pos finder.maxChainLen
      (finder.head.getD (hash3 data pos) 0) (finder.minMatchLen - 1) 0
    if bestLen ≥ finder.minMatchLen then some { offset := bestOffset, length := bestLen } else none

/-- `update`. A position that does not fit a `u32` panics. -/
def update (data : Bytes) (pos : Nat) : Except Error MatchFinder :=
  if pos + 3 > data.length then .ok finder
  else if pos + 1 ≥ 2 ^ 32 then .error .panicked
  else
    let h := hash3 data pos
    .ok { finder with
      prev := finder.prev.insert (pos % finder.windowSize) (finder.head.getD h 0)
      head := finder.head.insert h (pos + 1) }

/-- Enter the first two positions of a match that is emitted. -/
def updateMatch (data : Bytes) (pos : Nat) (m : Lz77.Match) : Except Error MatchFinder := do
  let finder ← finder.update data pos
  if m.length ≥ 2 then finder.update data (pos + 1) else .ok finder

section Tokenize

variable {σ : Type} (emit : σ → Lz77.Token UInt8 → σ) (data : Bytes)

/-- The end of an iteration of `tokenize_streaming`: defer a match, or emit a literal. The new
    pending match and the state of the receiver. -/
def deferOrEmit (finder : MatchFinder) (pos : Nat) (current : Option Lz77.Match) (s : σ) :
    Except Error (MatchFinder × Option (Nat × Lz77.Match) × σ) :=
  match current with
  | some m => .ok (finder, some (pos, m), s)
  | none => do
    let finder ← finder.update data pos
    .ok (finder, none, emit s (.literal (data.getD pos 0)))

/-- The loop of `tokenize_streaming`. -/
def tokenizeLoop : Nat → MatchFinder → Nat → Option (Nat × Lz77.Match) → σ →
    Except Error (MatchFinder × Option (Nat × Lz77.Match) × σ)
  | 0, finder, _, pending, s => .ok (finder, pending, s)
  | fuel + 1, finder, pos, pending, s =>
    if pos < data.length then
      let current := finder.findMatch data pos
      match pending with
      | some (pendingPos, pendingMatch) =>
        if current.all fun cur => decide (pendingMatch.length ≥ cur.length) then do
          let finder ← finder.updateMatch data pendingPos pendingMatch
          tokenizeLoop fuel finder (pendingPos + pendingMatch.length) none
            (emit s (.copy pendingMatch))
        else do
          let finder ← finder.update data pendingPos
          let (finder, pending, s) ← deferOrEmit emit data finder pos current
            (emit s (.literal (data.getD pendingPos 0)))
          tokenizeLoop fuel finder (pos + 1) pending s
      | none => do
        let (finder, pending, s) ← deferOrEmit emit data finder pos current s
        tokenizeLoop fuel finder (pos + 1) pending s
    else .ok (finder, pending, s)

/-- `tokenize_streaming`: `emit` receives the tokens of `data` one after the other. -/
def tokenizeStreaming (finder : MatchFinder) (s : σ) : Except Error (MatchFinder × σ) := do
  let (finder, pending, s) ← tokenizeLoop emit data data.length finder 0 none s
  match pending with
  | some (pendingPos, pendingMatch) =>
    let finder ← finder.updateMatch data pendingPos pendingMatch
    .ok (finder, emit s (.copy pendingMatch))
  | none => .ok (finder, s)

end Tokenize

end MatchFinder

end Fsmnt.NtCompression
