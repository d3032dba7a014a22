import Fsmnt.ForStd.ReadContent
import Fsmnt.Native.FsNtfs.DataRunMap

/-!
# What a run list holds

The runs of an attribute give a byte at every virtual offset: the one on the disk in an allocated
run, zero in a hole. The map finds the run of an offset by its table and reads from there on.
-/

namespace Fsmnt.FsNtfs

open Bytes EStateM List Option

variable {offset v n : Nat} {front runs : List NtfsDataRun}

/-- The bytes that runs span. -/
def totalLength (runs : List NtfsDataRun) : Nat := (runs.map NtfsDataRun.allocatedSize).sum

@[simp] theorem totalLength_nil : totalLength [] = 0 := rfl

@[simp] theorem totalLength_cons {run : NtfsDataRun} :
    totalLength (run :: runs) = run.allocatedSize + totalLength runs := by
  simp [totalLength]

@[simp] theorem totalLength_append {runs' : List NtfsDataRun} :
    totalLength (runs ++ runs') = totalLength runs + totalLength runs' := by
  simp [totalLength]

/-- The place on the disk of the byte at an offset; none in a hole and behind the runs. -/
def diskOffset : List NtfsDataRun → Nat → Option Nat
  | [], _ => none
  | run :: runs, q =>
    if q < run.allocatedSize then run.position.map (· + q)
    else diskOffset runs (q - run.allocatedSize)

/-- The byte of the runs at an offset. -/
def runByte (content : Nat → UInt8) (runs : List NtfsDataRun) (q : Nat) : UInt8 :=
  match diskOffset runs q with
  | some p => content p
  | none => 0

/-- Runs as a volume has them: none is empty, and the clusters lie inside the image. -/
structure RunsInside (image : ByteImage) (runs : List NtfsDataRun) : Prop where
  length_le : image.length ≤ 2 ^ 64
  totalLength_lt : totalLength runs < 2 ^ 64
  pos : ∀ run ∈ runs, 0 < run.allocatedSize
  inside : ∀ run ∈ runs, ∀ p, run.position = some p → 0 < p ∧ p + run.allocatedSize ≤ image.length

variable {image : ByteImage} {run : NtfsDataRun} {runs : List NtfsDataRun} {q p : Nat}

theorem RunsInside.tail (h : RunsInside image (run :: runs)) : RunsInside image runs :=
  ⟨h.length_le, Nat.lt_of_le_of_lt (by simp) h.totalLength_lt,
    fun r hr => h.pos r (mem_cons_of_mem run hr),
    fun r hr => h.inside r (mem_cons_of_mem run hr)⟩

theorem RunsInside.of_append (h : RunsInside image (front ++ runs)) : RunsInside image runs :=
  ⟨h.length_le, Nat.lt_of_le_of_lt (by simp) h.totalLength_lt,
    fun r hr => h.pos r (mem_append_right front hr),
    fun r hr => h.inside r (mem_append_right front hr)⟩

/-- Runs that end before an offset do not place it. -/
theorem diskOffset_append (h : totalLength front ≤ q) :
    diskOffset (front ++ runs) q = diskOffset runs (q - totalLength front) := by
  induction front generalizing q with
  | nil => simp
  | cons run front ih =>
    rw [totalLength_cons] at h
    rw [cons_append, diskOffset, if_neg (by omega), ih (by omega), totalLength_cons, Nat.sub_add_eq]

/-- What is placed lies inside the image. -/
theorem RunsInside.diskOffset_eq_some (h : RunsInside image runs)
    (hp : diskOffset runs q = some p) : 0 < p ∧ p < image.length := by
  induction runs generalizing q with
  | nil => cases hp
  | cons run runs ih =>
    rw [diskOffset] at hp
    split at hp
    · obtain ⟨first, hfirst, rfl⟩ := map_eq_some_iff.mp hp
      have := h.inside run mem_cons_self first hfirst
      omega
    · exact ih h.tail hp

/-- No position of a run inside an image wraps. -/
theorem RunsInside.add_eq (h : RunsInside image (run :: runs)) (hq : q < run.allocatedSize) :
    run.position.add q = diskOffset (run :: runs) q := by
  rw [diskOffset, if_pos hq]
  cases hp : run.position with
  | none => rfl
  | some p =>
    obtain ⟨hpos, hle⟩ := h.inside run mem_cons_self p hp
    have hlength := h.length_le
    have hmod : (p + q) % 2 ^ 64 = p + q := Nat.mod_eq_of_lt (by omega)
    simp only [NtfsPosition.add, bind_some, NtfsPosition.new, hmod, map_some]
    rw [if_neg (by omega)]

namespace DataRunMap

/-! ### The table -/

theorem drop_segmentsFrom : (segmentsFrom v (front ++ runs)).drop front.length =
      segmentsFrom (v + totalLength front) runs := by
  induction front generalizing v with
  | nil => simp
  | cons run front ih =>
    rw [cons_append, segmentsFrom, length_cons, drop_succ_cons, ih, totalLength_cons, Nat.add_assoc]

theorem takeWhile_segmentsFrom_of_lt (h : offset < v) :
    (segmentsFrom v runs).takeWhile (fun segment => segment.virtualOffset ≤ offset) = [] := by
  cases runs with
  | nil => rfl
  | cons run runs => rw [segmentsFrom, takeWhile_cons_of_neg (by simpa using h)]

/-- The segments that start at or before an offset are those up to the one that contains it. -/
theorem exists_takeWhile (hv : v ≤ offset) (hlt : offset < v + totalLength runs) :
    ∃ front run back, runs = front ++ run :: back ∧ v + totalLength front ≤ offset ∧
      offset < v + totalLength front + run.allocatedSize ∧
      ((segmentsFrom v runs).takeWhile fun segment => segment.virtualOffset ≤ offset).length =
        front.length + 1 := by
  induction runs generalizing v with
  | nil =>
    simp only [totalLength_nil] at hlt
    omega
  | cons run runs ih =>
    rw [totalLength_cons] at hlt
    by_cases hin : offset < v + run.allocatedSize
    · refine ⟨[], run, runs, rfl, by simpa using hv, by simpa using hin, ?_⟩
      rw [segmentsFrom, takeWhile_cons_of_pos (by simpa using hv), takeWhile_segmentsFrom_of_lt hin]
      rfl
    obtain ⟨front, run', back, rfl, hle, hlt', hlength⟩ :=
      ih (v := v + run.allocatedSize) (by omega) (by omega)
    refine ⟨run :: front, run', back, rfl, ?_, ?_, ?_⟩
    · rw [totalLength_cons]
      omega
    · rw [totalLength_cons]
      omega
    · rw [segmentsFrom, takeWhile_cons_of_pos (by simpa using hv), length_cons, hlength,
        length_cons]

theorem getElem?_fromDataRuns {back : List NtfsDataRun} :
    (fromDataRuns (front ++ run :: back)).segments[front.length]? = some
      { virtualOffset := totalLength front, position := run.position,
        size := run.allocatedSize } := by
  have hdrop : ((segmentsFrom 0 (front ++ run :: back)).drop front.length).head? =
      (segmentsFrom (0 + totalLength front) (run :: back)).head? := by rw [drop_segmentsFrom]
  simpa [fromDataRuns, segmentsFrom] using hdrop

/-- The binary search finds the run that contains an offset. -/
theorem exists_segmentIndexContaining (hlt : offset < totalLength runs) :
    ∃ front run back, runs = front ++ run :: back ∧ totalLength front ≤ offset ∧
      offset < totalLength front + run.allocatedSize ∧
      (fromDataRuns runs).segmentIndexContaining offset = some front.length := by
  obtain ⟨front, run, back, rfl, hle, hlt', hlength⟩ :=
    exists_takeWhile (Nat.zero_le offset) (by rwa [Nat.zero_add])
  rw [Nat.zero_add] at hle hlt'
  refine ⟨front, run, back, rfl, hle, hlt', ?_⟩
  simp only [segmentIndexContaining]
  rw [show ((fromDataRuns (front ++ run :: back)).segments.takeWhile fun segment =>
    segment.virtualOffset ≤ offset).length = front.length + 1 from hlength]
  simp [getElem?_fromDataRuns, hlt']

theorem getLast?_segmentsFrom : (match (segmentsFrom v runs).getLast? with
      | some segment => segment.virtualOffset + segment.size
      | none => v) = v + totalLength runs := by
  induction runs generalizing v with
  | nil => rfl
  | cons run runs ih =>
    rw [segmentsFrom, getLast?_cons, totalLength_cons, ← Nat.add_assoc, ← ih]
    cases (segmentsFrom (v + run.allocatedSize) runs).getLast? with
    | none => rfl
    | some segment => rfl

/-- The map is as long as its runs. -/
theorem totalSize_fromDataRuns : (fromDataRuns runs).totalSize = totalLength runs := by
  have h : (fromDataRuns runs).totalSize = 0 + totalLength runs := getLast?_segmentsFrom
  rwa [Nat.zero_add] at h

/-! ### Reads -/

section Reads

variable {σ : Type} {fs : BlockReader NtfsError σ} {pos : σ → Nat} {I : σ → Prop} {s : σ}

theorem window_runByte_tail (h : v + run.allocatedSize ≤ offset) :
    window (fun q => runByte image.content (run :: runs) (q - v)) offset n =
      window (fun q => runByte image.content runs (q - (v + run.allocatedSize))) offset n := by
  apply window_congr
  intro i _
  simp only [runByte]
  rw [diskOffset, if_neg (by omega), Nat.sub_add_eq]

variable (hfs : fs.ServesImage image pos I) {total : Nat}

include hfs

/-- A read inside the image gives its bytes. -/
theorem post_readDisk (hs : I s) (hle : p + n ≤ image.length) :
    Post (readDisk fs p n) s (fun bs t => I t ∧ bs = window image.content p n)
      (fun _ _ => False) := by
  refine (hfs.provides.post_readAt hs p n).mono (fun _ _ h => ⟨h.1, h.2.1⟩) ?_
  rintro _ t ⟨-, hlt⟩
  exact absurd (hlt trivial) (Nat.not_lt.mpr hle)

/-- The bytes of a run that is read from the middle. -/
theorem post_readSegment (hruns : RunsInside image (run :: runs)) (hs : I s) (hv : v ≤ offset)
    (hlt : offset - v < run.allocatedSize) (hle : offset - v + n ≤ run.allocatedSize) :
    Post (readSegment fs run.position (offset - v) n) s
      (fun bs t => I t ∧
        bs = window (fun q => runByte image.content (run :: runs) (q - v)) offset n)
      (fun _ _ => False) := by
  have hbyte : ∀ i < n, diskOffset (run :: runs) (offset + i - v) =
      run.position.map (· + (offset + i - v)) := by
    intro i hi
    rw [diskOffset, if_pos (by omega)]
  rw [readSegment, hruns.add_eq hlt, diskOffset, if_pos hlt]
  cases hp : run.position with
  | none =>
    refine ⟨hs, ?_⟩
    rw [zeros, ← window_const 0 offset n]
    apply window_congr
    intro i hi
    simp only [runByte, hbyte i hi, hp, map_none]
  | some p =>
    obtain ⟨-, hinside⟩ := hruns.inside run mem_cons_self p hp
    have hle' : p + (offset - v) + n ≤ image.length := by omega
    refine (post_readDisk hfs hs hle').imp ?_
    rintro bs t ⟨ht, rfl⟩
    refine ⟨ht, window_inj.mpr ?_⟩
    intro i hi
    simp only [runByte, hbyte i hi, hp, map_some]
    congr 1
    omega

/-- The segments from the one that contains `offset` on give the bytes of their runs. -/
theorem post_readSegments (hruns : RunsInside image runs) (hs : I s) (hv : v ≤ offset)
    (hle : total = 0 ∨ offset + total ≤ v + totalLength runs)
    (hin : ∀ run ∈ runs.head?, total = 0 ∨ offset < v + run.allocatedSize) :
    Post (readSegments fs (segmentsFrom v runs) offset total) s (fun bs t => I t ∧
        bs = window (fun q => runByte image.content runs (q - v)) offset total)
      (fun _ _ => False) := by
  induction runs generalizing v offset total s with
  | nil =>
    have hzero : total = 0 := by
      simp only [totalLength_nil] at hle
      omega
    simp only [hzero]
    exact ⟨hs, rfl⟩
  | cons run runs ih =>
    simp only [segmentsFrom, readSegments, post_ite, post_pure, post_bind]
    refine ⟨fun hzero => ⟨hs, by rw [hzero, window_zero]⟩, fun hpos => ?_⟩
    have hlt : offset - v < run.allocatedSize := by
      have := hin run rfl
      omega
    rw [totalLength_cons] at hle
    refine (post_readSegment hfs hruns hs hv hlt (by omega)).imp ?_
    rintro bs t ⟨ht, rfl⟩
    by_cases hend : total ≤ run.allocatedSize - (offset - v)
    · -- the read ends in this run
      rw [Nat.min_eq_left hend, Nat.sub_self]
      cases runs with
      | nil | cons => exact ⟨ht, append_nil _⟩
    -- the read goes on at the start of the next run
    rw [Nat.min_eq_right (Nat.le_of_not_le hend)]
    have hnext : offset + (run.allocatedSize - (offset - v)) = v + run.allocatedSize := by omega
    refine (ih hruns.tail ht (v := v + run.allocatedSize) (by omega) (by omega) ?_).imp ?_
    · intro next hmem
      have := hruns.pos next (mem_cons_of_mem run (mem_of_mem_head? hmem))
      omega
    rintro rest u ⟨hu, rfl⟩
    refine ⟨hu, ?_⟩
    rw [← window_runByte_tail (Nat.le_of_eq hnext.symm), window_append]
    congr 1
    omega

/-- `read_at` returns the bytes of the runs. -/
theorem post_readAt (hruns : RunsInside image runs) (hs : I s)
    (hle : offset + total ≤ totalLength runs) :
    Post (readAt fs (fromDataRuns runs) offset total) s
      (fun r t => I t ∧ r.2 = window (runByte image.content runs) offset total)
      (fun _ _ => False) := by
  have hlt := hruns.totalLength_lt
  simp only [readAt, post_ite, post_pure, post_throw, totalSize_fromDataRuns]
  refine ⟨fun hzero => ⟨hs, by rw [hzero, window_zero]⟩, fun hpos => ⟨fun h => by omega, fun _ =>
    ⟨fun h => by omega, fun _ => ?_⟩⟩⟩
  have hin : offset < totalLength runs := by omega
  obtain ⟨front, run, back, rfl, hfront, hback, hindex⟩ := exists_segmentIndexContaining hin
  rw [hindex]
  simp only [post_bind, post_pure]
  rw [show (fromDataRuns (front ++ run :: back)).segments.drop front.length =
    segmentsFrom (0 + totalLength front) (run :: back) from drop_segmentsFrom, Nat.zero_add]
  rw [totalLength_append] at hle
  refine (post_readSegments hfs hruns.of_append hs hfront (.inr hle) ?_).imp ?_
  · rintro next ⟨⟩
    exact .inr hback
  · rintro bs t ⟨ht, rfl⟩
    refine ⟨ht, window_congr fun i _ => ?_⟩
    rw [runByte, runByte, diskOffset_append (by omega)]

end Reads

end DataRunMap

end Fsmnt.FsNtfs
