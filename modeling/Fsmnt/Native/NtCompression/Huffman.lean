import Fsmnt.Native.NtCompression.Basic
import Fsmnt.ForStd.HuffmanTree

/-!
# Huffman codes

`huffman.rs`: canonical codes from code lengths, and code lengths from frequencies. The decoding
tables are modelled with the formats that use them.
-/

namespace Fsmnt.NtCompression

open List

def MAX_CODE_LEN : Nat := 16

/-! ### Canonical codes -/

def validateLengths (lengths : List Nat) : Except Error Unit :=
  if (lengths.filter (0 < ·)).length = 0 then
    .error (.invalidHuffmanTable "all code lengths are zero")
  else .ok ()

def countPerLength (lengths : List Nat) : List Nat :=
  lengths.foldl (fun counts len =>
    if len > 0 ∧ len ≤ MAX_CODE_LEN then counts.set len (counts.getD len 0 + 1) else counts)
    (replicate (MAX_CODE_LEN + 1) 0)

def validateCodeSpace (counts : List Nat) : Except Error Unit :=
  let kraft := ((range' 1 MAX_CODE_LEN).map fun len =>
    counts.getD len 0 <<< (MAX_CODE_LEN - len)).sum
  if kraft > 1 <<< MAX_CODE_LEN then .error (.invalidHuffmanTable "oversubscribed code space")
  else .ok ()

/-- The table of first codes in `canonical_codes`, from `bits` on. -/
def firstCodes (counts : List Nat) : List Nat → Nat → List Nat → List Nat
  | [], _, nextCode => nextCode
  | bits :: rest, code, nextCode =>
    let code := (code + counts.getD (bits - 1) 0) <<< 1
    firstCodes counts rest code (nextCode.set bits code)

/-- `CanonicalCodes::next`, for all symbols from `symbol` on. -/
def canonicalCodesFrom (nextCode : List Nat) (symbol : Nat) : List Nat → List (Nat × Nat × Nat)
  | [] => []
  | length :: rest =>
    if length = 0 ∨ length > MAX_CODE_LEN then canonicalCodesFrom nextCode (symbol + 1) rest
    else
      let code := nextCode.getD length 0
      (symbol, code, length) ::
        canonicalCodesFrom (nextCode.set length (code + 1)) (symbol + 1) rest

/-- `canonical_codes`: the symbols with a code, their codes and the lengths of these. -/
def canonicalCodes (lengths counts : List Nat) : List (Nat × Nat × Nat) :=
  canonicalCodesFrom (firstCodes counts (range' 1 MAX_CODE_LEN) 0 (replicate (MAX_CODE_LEN + 1) 0))
    0 lengths

/-- `assign_canonical_codes_into`. -/
def assignCanonicalCodes (lengths counts : List Nat) : List (Nat × Nat) :=
  (canonicalCodes lengths counts).foldl (fun codes c => codes.set c.1 (c.2.1, c.2.2))
    (replicate lengths.length (0, 0))

/-! ### Code lengths -/

/-- The `BinaryHeap` of `Reverse((frequency, node))`, as the list in the order of its pops. -/
def heapPush (x : Nat × Nat) (heap : List (Nat × Nat)) : List (Nat × Nat) :=
  Huffman.insertKey (fun k => k) x heap

/-- The nodes of the symbols that occur. -/
def symbolHeap (freqs : List Nat) : List (Nat × Nat) :=
  freqs.zipIdx.foldl (fun heap p => if p.1 = 0 then heap else heapPush p heap) []

/-- `while workspace.heap.len() > 1`. The parent `u32::MAX` of a root is `none`. -/
def mergeLoop : Nat → List (Nat × Nat) → Nat → List (Option Nat) → List (Option Nat)
  | fuel + 1, (f1, n1) :: (f2, n2) :: heap, internal, parent =>
    mergeLoop fuel (heapPush (f1 + f2, internal) heap) (internal + 1)
      ((parent.set n1 (some internal)).set n2 (some internal))
  | _, _, _, parent => parent

/-- `while workspace.parent[node] != u32::MAX`; the depth is a `u8`. -/
def depthLoop (parent : List (Option Nat)) : Nat → Nat → Nat → Nat
  | 0, _, depth => depth
  | fuel + 1, node, depth =>
    match parent.getD node none with
    | none => depth
    | some up => depthLoop parent fuel up ((depth + 1) % 256)

/-- The Kraft sum of `limit_code_lengths`. -/
def kraftSum (max : Nat) (lengths : List Nat) : Nat :=
  ((lengths.filter (0 < ·)).map fun l => 1 <<< (max - l)).sum

/-- One bit more for the first `needed` codes of length `minLen`. -/
def lengthen (minLen : Nat) : Nat → List Nat → List Nat
  | _, [] => []
  | 0, lengths => lengths
  | needed + 1, len :: lengths =>
    if len = minLen then (minLen + 1) :: lengthen minLen needed lengths
    else len :: lengthen minLen (needed + 1) lengths

/-- The loop of `limit_code_lengths`. Every iteration lengthens some code, so that `fuel` suffices
    that bounds the sum of the lengths. -/
def limitLoop (max : Nat) : Nat → List Nat → Except Error (List Nat)
  | 0, _ => .error .panicked
  | fuel + 1, lengths =>
    let capacity := 1 <<< max
    let sum := kraftSum max lengths
    if sum ≤ capacity then .ok lengths
    else
      match (lengths.filter (0 < ·)).min? with
      | none => .error .panicked
      | some minLen =>
        if minLen ≥ max then .error .panicked
        else
          let reductionPer := 1 <<< (max - minLen - 1)
          let needed := (sum - capacity + (reductionPer - 1)) / reductionPer
          limitLoop max fuel (lengthen minLen needed lengths)

/-- `limit_code_lengths`. The shift `1u64 << max` needs `max < 64`. -/
def limitCodeLengths (lengths : List Nat) (maxBits : Nat) : Except Error (List Nat) :=
  if lengths.any (· > maxBits) then
    if 64 ≤ maxBits then .error .panicked
    else limitLoop maxBits (maxBits * lengths.length + 1) (lengths.map fun len =>
      if len > maxBits then maxBits else len)
  else .ok lengths

/-- The depths of the symbols in the tree that `build_code_lengths_into` builds. -/
def symbolDepths (freqs : List Nat) : List Nat :=
  let heap := symbolHeap freqs
  let parent := mergeLoop heap.length heap freqs.length (replicate (freqs.length * 2) none)
  freqs.zipIdx.map fun p => if p.1 = 0 then 0 else depthLoop parent (freqs.length * 2) p.2 0

/-- `build_code_lengths_into`. The numbers of the nodes are `u32`. -/
def buildCodeLengths (freqs : List Nat) (maxBits : Nat) : Except Error (List Nat) :=
  match freqs.zipIdx.filter fun p => p.1 ≠ 0 with
  | [] => .ok (replicate freqs.length 0)
  | [(_, onlySymbol)] =>
    let dummy := if onlySymbol = 0 then 1 else 0
    if onlySymbol ≥ 2 ^ 32 ∨ dummy ≥ freqs.length then .error .panicked
    else .ok (((replicate freqs.length 0).set onlySymbol 1).set dummy 1)
  | symbols =>
    -- what `next_internal` is after the last merge
    if freqs.length + (symbols.length - 1) ≥ 2 ^ 32 then .error .panicked
    else limitCodeLengths (symbolDepths freqs) maxBits

end Fsmnt.NtCompression
