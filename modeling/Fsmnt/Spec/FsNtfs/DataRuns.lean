import Fsmnt.Native.FsNtfs.DataRuns
import Mathlib.Tactic.IntervalCases

/-!
# Mapping pairs decode to the runs they encode

A list of runs is encoded with a header, a count and an offset for each run, where the offset is
relative to the allocated run before it. The decoder infers a sparse run from an offset of zero.
-/

namespace Fsmnt.FsNtfs

open Bytes NtfsDataRuns EStateM Option

/-- A run of clusters, with the cluster it is allocated at unless it is sparse. -/
structure ClusterRun where
  count : Nat
  lcn : Option Nat

/-- The run in bytes. -/
def ClusterRun.toDataRun (clusterSize : Nat) (run : ClusterRun) : NtfsDataRun where
  position := run.lcn.map (· * clusterSize)
  allocatedSize := run.count * clusterSize

/-- The first byte of a mapping pair. -/
def pairHeader (count offset : Bytes) : UInt8 := .ofNat (offset.length * 16 + count.length)

/-- A little-endian count, as short as it can be or wider. -/
structure IsCount (bytes : Bytes) (count : Nat) : Prop where
  width : 1 ≤ bytes.length ∧ bytes.length ≤ 8
  value : ofLE bytes = count
  pos : 1 ≤ count

/-- A little-endian two's complement integer. -/
structure IsDelta (bytes : Bytes) (delta : Int) : Prop where
  width : 1 ≤ bytes.length ∧ bytes.length ≤ 8
  value : (ofLE bytes : Int).bmod (256 ^ bytes.length) = delta

/-- The bytes encode the runs after an allocated run at `previous`. -/
inductive Encodes : Nat → List ClusterRun → Bytes → Prop
  | terminator (previous : Nat) (padding : Bytes) : Encodes previous [] (0 :: padding)
  | sparse {previous n : Nat} {count rest : Bytes} {runs : List ClusterRun}
      (hcount : IsCount count n) (h : Encodes previous runs rest) :
      Encodes previous (⟨n, none⟩ :: runs) (pairHeader count [] :: (count ++ rest))
  | allocated {previous n lcn : Nat} {count offset rest : Bytes} {runs : List ClusterRun}
      (hcount : IsCount count n) (hoffset : IsDelta offset (lcn - previous))
      (h : Encodes lcn runs rest) :
      Encodes previous (⟨n, some lcn⟩ :: runs)
        (pairHeader count offset :: (count ++ (offset ++ rest)))

/-- The runs the iterator yields from a state, up to its end. -/
inductive Yields : NtfsDataRuns → List NtfsDataRun → Prop
  | nil {s s' : NtfsDataRuns} (h : next s = .ok none s') : Yields s []
  | cons {s s' : NtfsDataRuns} {run : NtfsDataRun} {runs : List NtfsDataRun}
      (h : next s = .ok (some run) s') (hrest : Yields s' runs) : Yields s (run :: runs)

variable {previous n lcn : Nat} {count offset rest bytes : Bytes} {runs : List ClusterRun}
  {s s' t : NtfsDataRuns} {run : NtfsDataRun} {yielded : List NtfsDataRun} {position : NtfsPosition}

theorem yields_cons_iff :
    Yields s (run :: yielded) ↔ ∃ s', next s = .ok (some run) s' ∧ Yields s' yielded := by
  constructor
  · rintro (_ | ⟨h, hrest⟩)
    exact ⟨_, h, hrest⟩
  · rintro ⟨s', h, hrest⟩
    exact .cons h hrest

/-- The bits that a shorter integer does not use are copies of its sign. -/
theorem parseSigned_eq (hlen : bytes.length ≤ 8) :
    parseVariableLengthSignedInteger bytes = (ofLE bytes : Int).bmod (256 ^ bytes.length) := by
  have hlt := ofLE_lt bytes
  simp only [parseVariableLengthSignedInteger, BitVec.toInt_sshiftRight, BitVec.toInt_shiftLeft,
    BitVec.toNat_ofNat, Int.shiftRight_eq_div_pow, Nat.shiftLeft_eq]
  generalize ofLE bytes = v at *
  generalize bytes.length = n at *
  -- each width is a fact about constants
  interval_cases n <;>
    simp only [Int.bmod_def, Nat.reduceSub, Nat.reduceMul, Nat.reduceMod] <;>
    split_ifs <;> omega

theorem pairHeader_nibbles (hc : 1 ≤ count.length ∧ count.length ≤ 8)
    (ho : offset.length ≤ 8) : pairHeader count offset ≠ 0 ∧
      (pairHeader count offset &&& 0x0f).toNat = count.length ∧
      ((pairHeader count offset &&& 0xf0) >>> 4).toNat = offset.length := by
  have hall : ∀ c ≤ 8, ∀ o ≤ 8, 1 ≤ c → UInt8.ofNat (o * 16 + c) ≠ 0 ∧
      (UInt8.ofNat (o * 16 + c) &&& 0x0f).toNat = c ∧
      ((UInt8.ofNat (o * 16 + c) &&& 0xf0) >>> 4).toNat = o := by decide
  exact hall _ hc.2 _ ho hc.1

theorem validateByteCount_append (s : NtfsDataRuns) (rest : Bytes) (h : bytes.length ≤ 8) :
    s.validateByteCount (bytes ++ rest) bytes.length = .ok bytes := by
  simp [validateByteCount, h.not_gt]

section Pair

variable (hdata : s.data.drop s.offset = pairHeader count offset :: (count ++ (offset ++ rest)))
include hdata

/-- How far the iterator has to move for a pair. -/
theorem drop_of_pair : s.data.drop (s.offset + (1 + count.length + offset.length)) = rest := by
  rw [← List.drop_drop, hdata, Nat.add_assoc, Nat.add_comm 1, List.drop_succ_cons,
    ← List.drop_drop, List.drop_left, List.drop_left]

variable (hcount : IsCount count n) (ho : offset.length ≤ 8)
include hcount ho

/-- When the iterator yields a run for a mapping pair. -/
theorem next_pair : next s = .ok (some ⟨position, n * s.clusterSize⟩) s' ↔
    n * s.clusterSize < 2 ^ 64 ∧ ∃ t,
      runPosition (parseVariableLengthSignedInteger offset) s = .ok position t ∧
      { t with offset := t.offset + (1 + count.length + offset.length) } = s' := by
  obtain ⟨hc, hv, hpos⟩ := hcount
  obtain ⟨hne, hlow, hhigh⟩ := pairHeader_nibbles hc ho
  unfold next
  rw [get_bind_run, hdata]
  simp only [hne, if_false, hlow, hhigh, validateByteCount_append s _ hc.2, List.drop_left,
    validateByteCount_append s _ ho, hv, MonadExcept.ofExcept, pure_bind]
  by_cases hsize : n * s.clusterSize < 2 ^ 64
  · rw [if_neg (by omega)]
    simp only [bind_eq_ok_iff, modify_eq_ok_iff, pure_eq_ok_iff, some.injEq,
      exists_eq_left', exists_const]
    grind
  · rw [if_pos (by omega)]
    simp only [bind_eq_ok_iff, throw_ne_ok, hsize, false_and, exists_false]

end Pair

/-- A run is seen to be allocated if it has moved and does not start the disk. -/
theorem runPosition_eq_some_iff :
    runPosition ((lcn : Int) - s.previousLcn) s = .ok (some (lcn * s.clusterSize)) t ↔
      lcn ≠ s.previousLcn ∧ lcn * s.clusterSize ≠ 0 ∧ lcn * s.clusterSize < 2 ^ 64 ∧
        { s with previousLcn := lcn } = t := by
  unfold runPosition
  rw [get_bind_run]
  by_cases hsame : lcn = s.previousLcn
  · simp [hsame]
  rw [if_neg (by omega)]
  -- the difference to a cluster leads back to it
  have hback : Lcn.checkedAdd s.previousLcn ((lcn : Int) - s.previousLcn) = some lcn ∨
      Lcn.checkedAdd s.previousLcn ((lcn : Int) - s.previousLcn) = none ∧ 2 ^ 64 ≤ lcn := by
    unfold Lcn.checkedAdd
    grind
  rcases hback with hadd | ⟨hadd, hbig⟩
  · simp only [hadd, modify_bind_run, Lcn.position, NtfsPosition.new]
    split_ifs <;> simp_all [MonadExcept.ofExcept]
  have hfar : lcn * s.clusterSize ≠ 0 → 2 ^ 64 ≤ lcn * s.clusterSize := fun h =>
    hbig.trans (Nat.le_mul_of_pos_right lcn (Nat.pos_of_ne_zero (right_ne_zero_of_mul h)))
  simp only [hadd, throw_ne_ok, false_iff]
  rintro ⟨-, hne, hlt, -⟩
  exact hlt.not_ge (hfar hne)

/-- What can be told from the pairs: no run is too big, and an allocated run is neither at the
position of the allocated run before it nor at the start of the disk. -/
@[mk_iff]
structure Distinct (clusterSize previous : Nat) (runs : List ClusterRun) : Prop where
  size : ∀ run ∈ runs, run.count * clusterSize < 2 ^ 64
  position : ∀ run ∈ runs, ∀ lcn ∈ run.lcn, lcn * clusterSize ≠ 0 ∧ lcn * clusterSize < 2 ^ 64
  moved : (previous :: runs.filterMap ClusterRun.lcn).IsChain (· ≠ ·)

/-- The induction is on the encoding: after each pair the iterator is at the rest of it. -/
theorem yields_iff (h : Encodes previous runs bytes) (hdata : s.data.drop s.offset = bytes)
    (hprevious : s.previousLcn = previous) :
    Yields s (runs.map (ClusterRun.toDataRun s.clusterSize)) ↔
      Distinct s.clusterSize previous runs := by
  induction h generalizing s with
  | terminator previous padding =>
    have hend : next s = .ok none { s with offset := s.data.length } := by
      unfold next
      rw [get_bind_run, hdata]
      rfl
    simpa using ⟨fun _ => ⟨by simp, by simp, by simp⟩, fun _ => Yields.nil hend⟩
  | @sparse _ n count rest runs hcount h ih =>
    have hrun : runPosition (parseVariableLengthSignedInteger []) s = .ok none s := rfl
    have hrest := ih (s := { s with offset := _ }) (drop_of_pair hdata) hprevious
    simp only [List.map_cons, yields_cons_iff, next_pair hdata hcount (by simp),
      ClusterRun.toDataRun, map_none, hrun, Result.ok.injEq, true_and, and_assoc,
      exists_and_left, exists_eq_left', hrest]
    simp [distinct_iff, and_assoc]
  | @allocated _ n lcn count offset rest runs hcount hoffset h ih =>
    subst hprevious
    have hrest := ih (s := { s with previousLcn := lcn, offset := _ }) (drop_of_pair hdata) rfl
    simp only [List.map_cons, yields_cons_iff, next_pair hdata hcount hoffset.width.2,
      ClusterRun.toDataRun, map_some, parseSigned_eq hoffset.width.2, hoffset.value,
      runPosition_eq_some_iff, and_assoc, exists_and_left, exists_eq_left', hrest]
    simp only [distinct_iff, List.forall_mem_cons, List.filterMap_cons, List.isChain_cons_cons,
      mem_some]
    grind

/-- Decoding gives back the runs that were encoded, for the lists where it can tell them. -/
theorem yields_runs_iff (clusterSize : Nat) (start : NtfsPosition) {runs : List ClusterRun}
    {bytes : Bytes} (h : Encodes 0 runs bytes) :
    Yields (.new clusterSize bytes start) (runs.map (ClusterRun.toDataRun clusterSize)) ↔
      Distinct clusterSize 0 runs := yields_iff h rfl rfl

/-- A run, a hole, and a run before them with a count that is wider than it needs to be. -/
theorem yields_runs_around_hole :
    Encodes 0 [⟨2, some 10⟩, ⟨1, none⟩, ⟨3, some 5⟩] [0x11, 2, 10, 1, 1, 0x12, 3, 0, 0xfb, 0] ∧
      Yields (.new 4096 [0x11, 2, 10, 1, 1, 0x12, 3, 0, 0xfb, 0] none)
        [⟨some 40960, 8192⟩, ⟨none, 4096⟩, ⟨some 20480, 12288⟩] := by
  have hlast := @Encodes.allocated 10 3 5 [3, 0] [0xfb] [0] [] ⟨by decide, rfl, by decide⟩
    ⟨by decide, by decide⟩ (.terminator 5 [])
  have h := @Encodes.allocated 0 2 10 [2] [10] _ _ ⟨by decide, rfl, by decide⟩
    ⟨by decide, by decide⟩
    (@Encodes.sparse 10 1 [1] _ _ ⟨by decide, rfl, by decide⟩ hlast)
  exact ⟨h, (yields_runs_iff 4096 none h).mpr ⟨by simp, by simp, by simp⟩⟩

/-- The runs of the boot sectors, at cluster 0, come back sparse. -/
theorem not_yields_boot : Encodes 0 [⟨2, some 0⟩] [0x11, 2, 0, 0] ∧
    ¬ Yields (.new 4096 [0x11, 2, 0, 0] none) [⟨some 0, 8192⟩] := by
  refine ⟨@Encodes.allocated 0 2 0 [2] [0] _ _ ⟨by decide, rfl, by decide⟩ ⟨by decide, by decide⟩
    (.terminator 0 []), ?_⟩
  rintro (_ | ⟨h, -⟩)
  cases h

end Fsmnt.FsNtfs
