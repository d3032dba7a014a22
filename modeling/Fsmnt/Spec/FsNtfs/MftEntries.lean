import Fsmnt.Native.FsNtfs.MftEntries
import Fsmnt.Spec.FsNtfs.DataRunMap
import Mathlib.Algebra.Order.BigOperators.Group.List
import Mathlib.Algebra.Order.Group.Nat

/-!
# Sequential and random access to the records of the MFT

The iterator goes from record to record inside a fragment and starts the next fragment at its first
byte; a seek finds the fragment of a record by its offset. The two agree where the fragments end
with a record.
-/

namespace Fsmnt.FsNtfs

open DataRunMap NtfsMftEntries NtfsDataRun

variable {runs front back : List NtfsDataRun} {run : NtfsDataRun} {image : ByteImage}
  {sizes : List Nat} {size dataSize n : Nat}

/-- The iterator after `n` records. -/
def entriesAfter (runs : List NtfsDataRun) (dataSize size : Nat) : Nat → NtfsMftEntries
  | 0 => new runs dataSize size
  | n + 1 => (entriesAfter runs dataSize size n).next.2

/-- The call after `n` records and the one after a seek to record `n` go to one place, and the bytes
    there are those at `n * size` in the data of the MFT. -/
def SameRecord (runs : List NtfsDataRun) (dataSize size n : Nat) : Prop :=
  ∃ position : NtfsPosition, (entriesAfter runs dataSize size n).next.1 = some (n, position) ∧
    ((new runs dataSize size).seekToRecord n).next.1 = some (n, position) ∧
    ∀ i < size, diskOffset runs (n * size + i) = position.map (· + i)

/-- The records that lie inside fragments of these sizes. -/
def recordsInside (sizes : List Nat) (dataSize size : Nat) : Nat := min dataSize sizes.sum / size

/-- The fragments end with a record, as far as there are records. -/
def Aligned (sizes : List Nat) (dataSize size : Nat) : Prop :=
  ∀ k ≤ sizes.length, (sizes.take k).sum < recordsInside sizes dataSize size * size →
    size ∣ (sizes.take k).sum

theorem lt_of_lt_recordsInside (hn : n < recordsInside sizes dataSize size) :
    n < dataSize / size ∧ n * size + size ≤ sizes.sum := by
  constructor
  · exact hn.trans_le (Nat.div_le_div_right (Nat.min_le_left ..))
  · calc n * size + size = (n + 1) * size := (Nat.succ_mul n size).symm
      _ ≤ recordsInside sizes dataSize size * size := Nat.mul_le_mul_right size hn
      _ ≤ min dataSize sizes.sum := Nat.div_mul_le_self ..
      _ ≤ sizes.sum := Nat.min_le_right ..

/-- The iterator at a record, which lies in the fragment behind `front`. -/
def entriesAt (runs front : List NtfsDataRun) (dataSize size n : Nat) : NtfsMftEntries :=
  { new runs dataSize size with
    segmentIndex := front.length
    offsetInSegment := n * size - totalLength front
    currentRecord := n }

theorem next_entriesAt (hruns : RunsInside image (front ++ run :: back)) (hn : n < dataSize / size)
    (hle : totalLength front ≤ n * size) (hlt : n * size < totalLength front + run.allocatedSize) :
    (entriesAt (front ++ run :: back) front dataSize size n).next.1 =
      some (n, diskOffset (front ++ run :: back) (n * size)) := by
  rw [diskOffset_append hle, ← hruns.of_append.add_eq (by omega)]
  simp [NtfsMftEntries.next, entriesAt, new, DataRunMap.segment, getElem?_fromDataRuns, hn.not_ge]

/-- A seek goes to the fragment that contains the record. -/
theorem next_seekToRecord (hruns : RunsInside image runs) (hn : n < dataSize / size)
    (hlt : n * size < totalLength runs) :
    ((new runs dataSize size).seekToRecord n).next.1 = some (n, diskOffset runs (n * size)) := by
  obtain ⟨front, run, back, rfl, hle, hlt, hindex⟩ := exists_segmentIndexContaining hlt
  rw [← next_entriesAt hruns hn hle hlt]
  simp [seekToRecord, entriesAt, new, resolveIndex, hindex, getElem?_fromDataRuns, hn.not_ge]

/-- A record that starts in a fragment lies in it. -/
theorem Aligned.record_le (h : Aligned ((front ++ run :: back).map allocatedSize) dataSize size)
    (hn : n < recordsInside ((front ++ run :: back).map allocatedSize) dataSize size)
    (hlt : n * size < totalLength front + run.allocatedSize) :
    n * size + size ≤ totalLength front + run.allocatedSize := by
  have hend := Nat.mul_le_mul_right size hn
  rw [Nat.succ_mul] at hend
  have hfirst : (((front ++ run :: back).map allocatedSize).take
      (front.length + 1)).sum = totalLength front + run.allocatedSize := by
    simp [totalLength]
  have hdvd := h (front.length + 1) (by simp)
  rw [hfirst] at hdvd
  by_cases hin : size ∣ totalLength front + run.allocatedSize
  · have := Nat.le_of_dvd (by omega) (Nat.dvd_sub hin (Nat.dvd_mul_left size n))
    omega
  · have := mt hdvd hin
    omega

section

variable (hruns : RunsInside image runs) (haligned : Aligned (runs.map allocatedSize) dataSize size)
  (hn : n < recordsInside (runs.map allocatedSize) dataSize size)

include hruns haligned hn

/-- With fragments that end with a record the iterator is where a seek would put it. -/
theorem exists_entriesAfter : ∃ front run back, runs = front ++ run :: back ∧
    totalLength front ≤ n * size ∧ n * size < totalLength front + run.allocatedSize ∧
      entriesAfter runs dataSize size n = entriesAt runs front dataSize size n := by
  obtain ⟨hrecord, hle⟩ := lt_of_lt_recordsInside hn
  have hsize : 0 < size := Nat.pos_of_ne_zero fun h => by simp [h] at hrecord
  change _ ≤ totalLength runs at hle
  induction n with
  | zero =>
    cases runs with
    | nil => simp at hle; omega
    | cons run back =>
      exact ⟨[], run, back, rfl, by simp, by simpa using hruns.pos run (by simp),
        by simp [entriesAfter, entriesAt, new]⟩
  | succ n ih =>
    rw [Nat.succ_mul] at hle ⊢
    obtain ⟨front, run, back, rfl, hfront, hlt, heq⟩ := ih (by omega) (by omega) (by omega)
    have hfits := haligned.record_le (by omega) hlt
    have hnot : ¬ dataSize / size ≤ n := by omega
    rw [entriesAfter, heq]
    by_cases hlast : totalLength front + run.allocatedSize = n * size + size
    · -- the record was the last one of its fragment
      cases back with
      | nil =>
        simp at hle
        omega
      | cons next back =>
        have hpos := hruns.pos next (by simp)
        refine ⟨front ++ [run], next, back, by simp, by simp; omega, by simp; omega, ?_⟩
        have hpassed : run.allocatedSize ≤ n * size - totalLength front + size := by omega
        simp [NtfsMftEntries.next, entriesAt, new, DataRunMap.segment, getElem?_fromDataRuns,
          hpassed, hnot, Nat.succ_mul, ← hlast]
    · have hinside : ¬ run.allocatedSize ≤ n * size - totalLength front + size := by omega
      refine ⟨front, run, back, rfl, by omega, by omega, ?_⟩
      simp [NtfsMftEntries.next, entriesAt, new, DataRunMap.segment, getElem?_fromDataRuns, hinside,
        hnot, Nat.succ_mul]
      omega

theorem sameRecord_of_aligned : SameRecord runs dataSize size n := by
  obtain ⟨hrecord, hle⟩ := lt_of_lt_recordsInside hn
  obtain ⟨front, run, back, rfl, hfront, hlt, heq⟩ := exists_entriesAfter hruns haligned hn
  have hfits := haligned.record_le hn hlt
  refine ⟨diskOffset _ (n * size), ?_, next_seekToRecord hruns hrecord ?_, ?_⟩
  · rw [heq, next_entriesAt hruns hrecord hfront hlt]
  · rw [totalLength_append, totalLength_cons]
    omega
  · intro i hi
    rw [diskOffset_append (by omega), diskOffset_append hfront, diskOffset, diskOffset,
      if_pos (by omega), if_pos (by omega), Option.map_map]
    congr 1
    funext p
    simp
    omega

end

/-- The first byte of a fragment. -/
theorem diskOffset_take {k : Nat} (hpos : ∀ s ∈ sizes, 0 < s)
    (hlt : (sizes.take k).sum < sizes.sum) :
    diskOffset (sizes.map (mk (some 1))) (sizes.take k).sum = some 1 := by
  induction sizes generalizing k with
  | nil => simp at hlt
  | cons s sizes ih =>
    cases k with
    | zero => simp [diskOffset, hpos s List.mem_cons_self]
    | succ k =>
      rw [List.map_cons, List.take_succ_cons, List.sum_cons, diskOffset, if_neg (by simp),
        Nat.add_sub_cancel_left]
      exact ih (fun s hs => hpos s (List.mem_cons_of_mem _ hs)) (Nat.lt_of_add_lt_add_left hlt)

/-- Whatever the fragments lie at, both ways to a record lead to its bytes, exactly when the
    fragments end with a record. -/
theorem sameRecord_iff (hpos : ∀ s ∈ sizes, 0 < s) (hsum : sizes.sum < 2 ^ 64) :
    (∀ image runs, RunsInside image runs → runs.map allocatedSize = sizes →
      ∀ n < recordsInside sizes dataSize size, SameRecord runs dataSize size n) ↔
      Aligned sizes dataSize size := by
  constructor
  · intro h k hk hlt
    -- fragments that all lie at byte 1, so that none goes on where another one ends
    have hsizes : (sizes.map (mk (some 1))).map allocatedSize = sizes := by
      simp [Function.comp_def]
    have hruns : RunsInside ⟨fun _ => 0, 2 ^ 64⟩ (sizes.map (mk (some 1))) := by
      refine ⟨Nat.le_refl _, by rwa [totalLength, hsizes], ?_, ?_⟩
      · simpa using hpos
      · intro run hmem p hp
        obtain ⟨s, hs, rfl⟩ := List.mem_map.mp hmem
        cases hp
        have := List.le_sum_of_mem hs
        simp only
        omega
    have hsize : 0 < size := Nat.pos_of_ne_zero fun h => by simp [h] at hlt
    have hn := (Nat.div_lt_iff_lt_mul hsize).mpr hlt
    obtain ⟨position, -, -, hbytes⟩ := h _ _ hruns hsizes _ hn
    have hboundary := hbytes _ (Nat.mod_lt (sizes.take k).sum hsize)
    have hend := (Nat.div_mul_le_self (min dataSize sizes.sum) size).trans (Nat.min_le_right ..)
    rw [Nat.div_add_mod', diskOffset_take hpos (hlt.trans_le hend)] at hboundary
    obtain ⟨p, rfl, hp⟩ := Option.map_eq_some_iff.mp hboundary.symm
    refine Nat.dvd_of_mod_eq_zero (Nat.eq_zero_of_not_pos fun hmod => ?_)
    have hfirst := hbytes 0 hsize
    obtain rfl : p = 0 := by omega
    exact Nat.lt_irrefl 0 (hruns.diskOffset_eq_some hfirst).1
  · rintro haligned image runs hruns rfl n hn
    exact sameRecord_of_aligned hruns haligned hn

/-- Two fragments of whole records. -/
theorem sameRecord_after_fragment : SameRecord [⟨some 4096, 2048⟩, ⟨some 8192, 1024⟩] 3072 1024 2 :=
  (sameRecord_iff (by decide) (by decide)).mpr (by unfold Aligned; decide) ⟨fun _ => 0, 2 ^ 20⟩
    [⟨some 4096, 2048⟩, ⟨some 8192, 1024⟩] ⟨by decide, by decide, by decide, by simp⟩ rfl 2
      (by decide)

/-- Two fragments of three clusters of 512 bytes. The iterator leaves the first one in the middle of
    record 1 and takes the first byte of the second one, where record 1 ends, for record 2. -/
theorem not_sameRecord_straddling :
    RunsInside ⟨fun _ => 0, 2 ^ 20⟩ [⟨some 4096, 1536⟩, ⟨some 8192, 1536⟩] ∧
      2 < recordsInside [1536, 1536] 3072 1024 ∧
      ¬ SameRecord [⟨some 4096, 1536⟩, ⟨some 8192, 1536⟩] 3072 1024 2 := by
  refine ⟨⟨by decide, by decide, by decide, by simp⟩, by decide, ?_⟩
  rintro ⟨position, hnext, hseek, -⟩
  exact absurd (hnext.trans hseek.symm) (by decide)

end Fsmnt.FsNtfs
