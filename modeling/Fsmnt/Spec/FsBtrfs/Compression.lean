import Fsmnt.Native.FsBtrfs.Compression

/-!
# LZO extents decode to the concatenation of their segments

A header never straddles a sector: where fewer than four bytes are left in one, they are zero. The
last segment may have such a padding behind it or not.
-/

namespace Fsmnt.FsBtrfs

open Bytes List

/-- The zeros behind a segment that ends at `position`. -/
def lzoPadding (sectorSize position : Nat) : Bytes :=
  if sectorSize - position % sectorSize < 4 then zeros (sectorSize - position % sectorSize) else []

/-- The segments as they are laid out from `position` on. -/
def lzoSegments (sectorSize : Nat) (padLast : Bool) : Nat → List Bytes → Bytes
  | position, [] => if padLast then lzoPadding sectorSize position else []
  | position, segment :: segments =>
    let padding := lzoPadding sectorSize position
    padding ++ (toLE 4 segment.length ++ (segment ++
      lzoSegments sectorSize padLast (position + padding.length + 4 + segment.length) segments))

/-- The total length and the segments. -/
def lzoStream (sectorSize : Nat) (padLast : Bool) (segments : List Bytes) : Bytes :=
  let body := lzoSegments sectorSize padLast 4 segments
  toLE 4 (4 + body.length) ++ body

variable {decode : Bytes → Nat → Except String Bytes} {data output : Bytes} {padLast : Bool}
  {outputLength sectorSize total passes position : Nat} {segments : List (Bytes × Bytes)}

theorem decompressLzoLoop_of_done (h : ¬ (position < total ∧ output.length < outputLength)) :
    decompressLzoLoop decode data outputLength sectorSize total passes position output =
      .ok output := by
  cases passes with
  | zero => rfl
  | succ passes => rw [decompressLzoLoop, if_neg h]

/-- From a position on, the loop decodes the segments that are laid out there. -/
theorem decompressLzoLoop_eq
    (hdecode : ∀ segment ∈ segments, decode segment.1 sectorSize = .ok segment.2)
    (hdata : data.drop position =
      lzoSegments sectorSize padLast position (segments.map Prod.fst))
    (hmax : data.length < 2 ^ 32) (hpasses : data.length ≤ position + passes)
    (houtput : output.length ≤ outputLength) :
    decompressLzoLoop decode data outputLength sectorSize data.length passes position output =
      .ok (output ++ (segments.flatMap Prod.snd).take (outputLength - output.length)) := by
  induction segments generalizing position passes output with
  | nil =>
    rw [flatMap_nil, take_nil, append_nil]
    by_cases hmore : position < data.length ∧ output.length < outputLength
    swap
    · exact decompressLzoLoop_of_done hmore
    -- only a padding can be left, which ends the loop
    have hlength := congrArg List.length hdata
    rw [length_drop, map_nil, lzoSegments, lzoPadding] at hlength
    cases passes with
    | zero => rfl
    | succ passes =>
      rw [decompressLzoLoop, if_pos hmore]
      refine if_pos ?_
      split at hlength
      · split at hlength
        · rename_i hshort
          rw [length_zeros] at hlength
          exact ⟨hshort, Nat.le_of_eq hlength⟩
        · rw [length_nil] at hlength
          omega
      · rw [length_nil] at hlength
        omega
  | cons segment segments ih =>
    by_cases hfull : output.length = outputLength
    · rw [hfull, Nat.sub_self, take_zero, append_nil]
      exact decompressLzoLoop_of_done (by omega)
    rw [map_cons, lzoSegments] at hdata
    have hnext : (if sectorSize - position % sectorSize < 4 then
        position + (sectorSize - position % sectorSize) else position) =
          position + (lzoPadding sectorSize position).length := by
      rw [lzoPadding]
      split
      · rw [length_zeros]
      · rfl
    generalize lzoPadding sectorSize position = padding at hdata hnext
    have hlength := congrArg List.length hdata
    simp only [length_drop, length_append, length_toLE] at hlength
    have hheader := (drop_drop (i := padding.length) (j := position) (l := data)).symm.trans
      ((congrArg _ hdata).trans drop_left)
    have hbody := (drop_drop (i := 4) (l := data)).symm.trans
      ((congrArg _ hheader).trans (drop_left' (length_toLE 4 _)))
    have hsize : data.le32 (position + padding.length) = segment.1.length := by
      rw [le32, slice, hheader, take_left' (length_toLE 4 _), ofLE_toLE 4 _ (by omega)]
    cases passes with
    | zero => omega
    | succ passes =>
      rw [decompressLzoLoop, if_pos (by omega)]
      simp only [hnext, hsize]
      rw [if_neg, if_neg (by omega), if_neg (by omega), slice, hbody, take_left,
        hdecode segment mem_cons_self]
      · simp only
        rw [ih fun s hs => hdecode s (mem_cons_of_mem _ hs)]
        · rw [flatMap_cons, take_append, append_assoc, length_append, length_take]
          congr 4
          omega
        · rw [← drop_drop, hbody, drop_left]
        · omega
        · rw [length_append, length_take]
          omega
      · rintro ⟨hshort, hle⟩
        rw [if_pos hshort] at hnext
        omega

/-- For every list of segments, laid out with or without a padding at the end, whose decoding the
    library inverts: an extent decodes to the concatenation, cut at the length asked for, or fails
    when there is less. -/
theorem decompressLzo_lzoStream (decode : Bytes → Nat → Except String Bytes)
    (segments : List (Bytes × Bytes)) (padLast : Bool) (outputLength sectorSize : Nat)
    (hsector : 4 ≤ sectorSize)
    (hdecode : ∀ segment ∈ segments, decode segment.1 sectorSize = .ok segment.2)
    (hmax : (lzoStream sectorSize padLast (segments.map Prod.fst)).length < 2 ^ 32) :
    decompressLzo decode (lzoStream sectorSize padLast (segments.map Prod.fst)) outputLength
      sectorSize =
        if (segments.flatMap Prod.snd).length < outputLength then
          .error (.decompressionFailed 2 "decoded LZO length differs from ram_bytes")
        else .ok ((segments.flatMap Prod.snd).take outputLength) := by
  generalize hdata : lzoStream sectorSize padLast (segments.map Prod.fst) = data at *
  have hdrop : data.drop 4 = lzoSegments sectorSize padLast 4 (segments.map Prod.fst) := by
    rw [← hdata, lzoStream, drop_left' (length_toLE 4 _)]
  have htake : data.take 4 = toLE 4 data.length := by
    rw [← hdata, lzoStream, take_left' (length_toLE 4 _), length_append, length_toLE]
  have hlength := congrArg List.length htake
  rw [length_take, length_toLE] at hlength
  have htotal : data.le32 0 = data.length := by
    rw [le32, slice, drop_zero, htake, ofLE_toLE 4 _ (by omega)]
  rw [decompressLzo, if_neg (by omega)]
  simp only [htotal]
  rw [if_neg (Nat.lt_irrefl _),
    decompressLzoLoop_eq hdecode hdrop hmax (by omega) (Nat.zero_le _)]
  simp only [nil_append, length_nil, Nat.sub_zero, length_take]
  by_cases hshort : (segments.flatMap Prod.snd).length < outputLength
  · rw [if_pos hshort, if_pos (by omega)]
    rfl
  · rw [if_neg hshort, if_neg (by omega)]

/-- The LZO1X decoder on the streams that are one literal run and the end marker. -/
def decodeLiterals : Bytes → Nat → Except String Bytes
  | run :: rest, capacity =>
    if rest.drop (run.toNat - 17) = [17, 0, 0] ∧ run.toNat - 17 ≤ capacity then
      .ok (rest.take (run.toNat - 17))
    else .error "lookbehind overrun"
  | [], _ => .error "input overrun"

/-- The texts `abcde` and `fghi`. The header of the second does not fit in the first sector. -/
theorem decompressLzo_lzoStream_padded :
    decompressLzo decodeLiterals (lzoStream 19 true
      [[22, 97, 98, 99, 100, 101, 17, 0, 0], [21, 102, 103, 104, 105, 17, 0, 0]]) 8 19 =
        .ok [97, 98, 99, 100, 101, 102, 103, 104] :=
  decompressLzo_lzoStream decodeLiterals
    [([22, 97, 98, 99, 100, 101, 17, 0, 0], [97, 98, 99, 100, 101]),
      ([21, 102, 103, 104, 105, 17, 0, 0], [102, 103, 104, 105])]
    true 8 19 (by decide) (by simp [decodeLiterals]) (by decide)

/-- Nothing is decoded, and one byte is asked for. -/
theorem decompressLzo_short :
    decompressLzo decodeLiterals (lzoStream 4096 false []) 1 4096 ≠ .ok (([] : Bytes).take 1) := by
  decide

end Fsmnt.FsBtrfs
