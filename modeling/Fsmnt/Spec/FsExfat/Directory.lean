import Fsmnt.ForStd.Simulates
import Fsmnt.Native.FsExfat.Directory
import Fsmnt.Spec.ParserCore.BlockCache

/-!
# What a directory iterator sees

The iterator is the same over a chain of clusters and over a plain list of entries. So the directory
that it sees is the list of the entries of its chain, whatever uses it.
-/

namespace Fsmnt.FsExfat

open ClusterBuffer DirEntries EStateM ParserCore Simulates Stop Bytes

/-! ### The iterator over a list -/

/-- Entries with their offsets, up to where reading fails. -/
abbrev EntryList := List (Except ExFatError (Bytes × Nat))

/-- The next entry of a list. -/
def readFlat : EStateM ExFatError EntryList (Option (Bytes × Nat)) := do
  match ← get with
  | [] => pure none
  | .ok entry :: rest => do
    set rest
    pure (some entry)
  | .error e :: _ => do
    set ([] : EntryList)
    throw e

/-! ### The end of a list is reached -/

section Shrinks

/-- How many entries are left. -/
def left (s : DirEntries EntryList) : Nat := s.source.length

variable (s : DirEntries EntryList) (fuel : Nat)

theorem shrinks_readEntry : Post (readEntry readFlat) s
      (fun entry t => left t ≤ left s ∧ (entry ≠ none → left t < left s))
      (fun e _ => e ≠ .outOfFuel) := by
  obtain ⟨entries, finished, includeDeleted, includeBenign⟩ := s
  match entries with
  | [] => exact ⟨Nat.le_refl _, fun hne => absurd rfl hne⟩
  | .ok entry :: rest => exact ⟨Nat.le_succ _, fun _ => Nat.lt_succ_self _⟩
  | .error e :: rest => exact nofun

theorem shrinks_readSecondaries (secondaryCount primaryOffset count : Nat) (i assembly s) :
    Post (readSecondaries readFlat secondaryCount primaryOffset count i assembly) s
      (fun _ t => left t ≤ left s) (fun e _ => e ≠ .outOfFuel) := by
  induction count generalizing i assembly s with
  | zero => exact Nat.le_refl _
  | succ count ih =>
    rw [readSecondaries, post_bind]
    apply (shrinks_readEntry s).imp
    rintro entry t ⟨hle, -⟩
    cases entry with
    | none => exact failed_ne_outOfFuel _
    | some entry =>
      simp only [post_bind, post_liftExcept]
      refine ⟨fun assembly _ => ?_, fun e _ => failed_ne_outOfFuel e⟩
      exact (ih (i + 1) assembly t).imp fun _ u hu => Nat.le_trans hu hle

theorem shrinks_handleEntry (entry : Bytes) (offset : Nat) (s : DirEntries EntryList) :
    Post (handleEntry readFlat entry offset) s (fun _ t => left t ≤ left s)
      (fun e _ => e ≠ .outOfFuel) := by
  have hassemble : Post (assembleFileEntry readFlat entry offset) s
      (fun _ t => left t ≤ left s) (fun e _ => e ≠ .outOfFuel) := by
    simp only [assembleFileEntry, post_ite, post_throw, post_bind]
    refine ⟨fun _ => failed_ne_outOfFuel _, fun _ => ⟨fun _ => failed_ne_outOfFuel _, fun _ => ?_⟩⟩
    apply (shrinks_readSecondaries _ _ _ _ _ s).imp
    intro assembly t ht
    split
    · exact failed_ne_outOfFuel _
    · exact ht
  simp only [handleEntry, post_bind, post_get, post_ite, post_modify, post_pure, post_throw]
  refine ⟨fun _ => Nat.le_refl _, fun _ => ⟨fun _ => ?_, fun _ => ⟨fun _ => ?_, fun _ => ?_⟩⟩⟩
  · exact ⟨fun _ => Nat.le_refl _, fun _ => Nat.le_refl _⟩
  · exact hassemble
  · refine ⟨fun _ => Nat.le_refl _, fun _ => ⟨fun _ => Nat.le_refl _, fun _ =>
      ⟨fun _ => ?_, fun _ => failed_ne_outOfFuel _⟩⟩⟩
    exact ⟨fun _ => Nat.le_refl _, fun _ => Nat.le_refl _⟩

/-- Every pass but the last reads an entry. -/
theorem shrinks_nextStep : Post (nextStep readFlat) s
      (fun r t => left t ≤ left s ∧ (r ≠ .inr none → left t < left s))
      (fun e _ => e ≠ .outOfFuel) := by
  simp only [nextStep, post_bind, post_get, post_ite, post_pure, post_attempt]
  refine ⟨fun _ => ⟨Nat.le_refl _, fun hne => absurd rfl hne⟩, fun _ => ?_⟩
  apply (shrinks_readEntry s).imp
  rintro entry t ⟨hle, hlt⟩
  cases entry with
  | none => exact ⟨hle, fun hne => absurd rfl hne⟩
  | some entry =>
    apply (shrinks_handleEntry entry.1 entry.2 t).imp
    intro r u hu
    have hless := hlt (Option.some_ne_none _)
    exact ⟨by omega, fun _ => by omega⟩

/-- An item uses up entries. -/
theorem shrinks_next (s : DirEntries EntryList) (hs : left s < fuel) :
    Post (next readFlat fuel) s (fun item t => left t ≤ left s ∧ (item ≠ none → left t < left s))
      (fun e _ => e ≠ .outOfFuel) := by
  refine post_loop_of_lt (I := fun t => left t ≤ left s) left (fun _ t ht => ?_) () (Nat.le_refl _)
    hs
  apply (shrinks_nextStep t).imp
  rintro r u ⟨hle, hlt⟩
  refine ⟨fun next hr => ?_, fun item hr => ?_⟩
  · have hless := hlt (hr ▸ Sum.inl_ne_inr)
    exact ⟨by omega, hless⟩
  · refine ⟨by omega, fun hne => ?_⟩
    have hless := hlt fun heq => hne (Sum.inr.inj (hr.symm.trans heq))
    omega

variable {β γ : Type} {step : β → DirItem → β ⊕ γ} {atEnd : β → Except ExFatError γ}

/-- A loop over the items ends; a result that the end of the list cannot give has taken an entry. -/
theorem shrinks_forItems {P : γ → Prop}
    (hend : ∀ state result, atEnd state = .ok result → ¬ P result) (fuel : Nat) (start : β)
    (s : DirEntries EntryList) (hs : left s < fuel) :
    Post (forItems readFlat step atEnd fuel start) s
      (fun result t => P result → left t < left s) (fun e _ => e ≠ .outOfFuel) := by
  refine post_loop_of_lt (I := fun t => left t ≤ left s) left (fun state t ht => ?_) start
    (Nat.le_refl _) hs
  rw [post_bind]
  apply (shrinks_next fuel t (by omega)).imp
  rintro item u ⟨hule, hult⟩
  cases item with
  | none =>
    simp only [post_bind, post_liftExcept, post_pure]
    refine ⟨fun result hresult => ⟨fun next hr => absurd hr Sum.inr_ne_inl, fun b hb hP => ?_⟩,
      fun e _ => failed_ne_outOfFuel e⟩
    obtain rfl := Sum.inr.inj hb
    exact absurd hP (hend state result hresult)
  | some item =>
    have hless := hult (Option.some_ne_none _)
    exact ⟨fun _ _ => ⟨by omega, hless⟩, fun _ _ _ => by omega⟩

/-- A loop over the items ends. -/
theorem finishes_forItems (start : β) (s : DirEntries EntryList) (hs : left s < fuel) :
    Finishes (forItems readFlat step atEnd fuel start) s :=
  (shrinks_forItems (fun _ _ _ => not_false) fuel start s hs).imp (fun _ _ _ => trivial)

/-- The walk ends before the fuel does. -/
theorem finishes_walkEntries (s : DirEntries EntryList) (hs : left s < fuel) :
    Finishes (walkEntries readFlat fuel) s := by
  refine post_loop_of_lt (I := fun t => left t ≤ left s) left (fun entries t ht => ?_) []
    (Nat.le_refl _) hs
  rw [post_bind]
  have htry : Post (tryNext readFlat fuel) t
      (fun entry u => entry ≠ none → left u < left t) (fun e _ => e ≠ .outOfFuel) := by
    apply shrinks_forItems _ fuel () t (by omega)
    intro _ result hresult hne
    exact hne (Except.ok.inj hresult).symm
  apply htry.imp
  intro entry u hu
  cases entry with
  | none => exact ⟨fun next hr => absurd hr Sum.inr_ne_inl, fun _ _ => trivial⟩
  | some entry =>
    have hless := hu (Option.some_ne_none _)
    exact ⟨fun _ _ => ⟨by omega, hless⟩, fun _ _ => trivial⟩

end Shrinks

/-! ### Simulation of everything that uses entries -/

section Simulation

variable {σ τ : Type} {R : σ → τ → Prop}

/-- The iterators differ in where the entries come from. -/
structure DirRel (R : σ → τ → Prop) (s : DirEntries σ) (t : DirEntries τ) : Prop where
  source : R s.source t.source
  finished : s.finished = t.finished
  includeDeleted : s.includeDeleted = t.includeDeleted
  includeBenign : s.includeBenign = t.includeBenign

theorem dirRel_new {s : σ} {t : τ} (h : R s t) : DirRel R (.new s) (.new t) := ⟨h, rfl, rfl, rfl⟩

theorem simulates_finish : Simulates (DirRel R)
    (modify finish : EStateM (Stop ExFatError) (DirEntries σ) PUnit)
    (modify finish) :=
  .modify fun _ _ h => { h with finished := rfl }

variable {read : EStateM ExFatError σ (Option (Bytes × Nat))}
  {read' : EStateM ExFatError τ (Option (Bytes × Nat))} (hread : Simulates R read read')

include hread

theorem simulates_readEntry : Simulates (DirRel R) (readEntry read) (readEntry read') :=
  hread.liftFailure.zoom (fun _ _ h => h.source) fun _ _ _ _ h hsource =>
    { h with source := hsource }

theorem simulates_readSecondaries (secondaryCount primaryOffset left : Nat) (i assembly) :
    Simulates (DirRel R) (readSecondaries read secondaryCount primaryOffset left i assembly)
      (readSecondaries read' secondaryCount primaryOffset left i assembly) := by
  induction left generalizing i assembly with
  | zero => exact .pure assembly
  | succ left ih =>
    apply (simulates_readEntry hread).bind
    intro entry
    cases entry with
    | none => exact simulates_finish.bind fun _ => .throw _
    | some entry => exact (lift _).bind fun assembly => ih (i + 1) assembly

theorem simulates_assembleFileEntry (primary : Bytes) (primaryOffset : Nat) :
    Simulates (DirRel R) (assembleFileEntry read primary primaryOffset)
      (assembleFileEntry read' primary primaryOffset) := by
  apply Simulates.ite
  · exact .throw _
  apply Simulates.ite
  · exact .throw _
  apply (simulates_readSecondaries hread _ _ _ _ _).bind
  intro assembly
  cases hstream : assembly.stream with
  | none => exact .throw _
  | some stream => exact .pure _

theorem simulates_handleEntry (entry : Bytes) (offset : Nat) :
    Simulates (DirRel R) (handleEntry read entry offset) (handleEntry read' entry offset) := by
  apply get_bind
  intro s t h
  -- the flags are the same on both sides
  rw [h.includeDeleted, h.includeBenign]
  apply Simulates.ite
  · exact simulates_finish.bind fun _ => .pure _
  apply Simulates.ite
  · exact .ite (.pure _) (.pure _)
  apply Simulates.ite
  · exact (simulates_assembleFileEntry hread entry offset).bind fun _ => .pure _
  apply Simulates.ite
  · exact .pure _
  apply Simulates.ite
  · exact .pure _
  apply Simulates.ite
  · exact .ite (.pure _) (.pure _)
  · exact simulates_finish.bind fun _ => .throw _

/-- One step sees the same entries on both sides, -/
theorem simulates_nextStep : Simulates (DirRel R) (nextStep read) (nextStep read') := by
  apply get_bind
  intro s t h
  rw [h.finished]
  apply Simulates.ite
  · exact .pure _
  apply (simulates_readEntry hread).attempt.bind
  intro entry
  match entry with
  | .error e => exact simulates_finish.bind fun _ => .throw e
  | .ok none => exact simulates_finish.bind fun _ => .pure _
  | .ok (some (entry, offset)) => exact simulates_handleEntry hread entry offset

theorem simulates_forItems {β γ : Type} (step : β → DirItem → β ⊕ γ)
    (atEnd : β → Except ExFatError γ) (fuel : Nat) (start : β) :
    Simulates (DirRel R) (forItems read step atEnd fuel start)
      (forItems read' step atEnd fuel start) := by
  apply Simulates.loop
  intro state
  apply (Simulates.loop (fun _ => simulates_nextStep hread) fuel ()).bind
  intro item
  cases item with
  | none => exact (lift _).bind fun _ => .pure _
  | some item => exact .pure _

theorem simulates_readClusterDirectory (fuel : Nat) :
    Simulates (DirRel R) (readClusterDirectory read fuel) (readClusterDirectory read' fuel) :=
  simulates_forItems hread _ _ fuel []

/-- and so does the whole walk. -/
theorem simulates_walkEntries (fuel : Nat) :
    Simulates (DirRel R) (walkEntries read fuel) (walkEntries read' fuel) := by
  apply Simulates.loop
  intro entries
  apply (simulates_forItems hread _ _ fuel ()).bind
  intro entry
  cases entry with
  | none | some entry => exact .pure _

end Simulation

/-! ### The chain of a directory -/

section Chain

variable (exfat : ExFat)

/-- The clusters that the table chains, from a cluster on; an error is where following it fails. -/
def chain (table : Nat → Nat) : Nat → Nat → List (Except ExFatError Nat)
  | 0, _ => [.error (.chainLoop exfat.clusterCount)]
  | left + 1, cluster =>
    if cluster < 2 ∨ exfat.lastCluster < cluster then [.error (.invalidCluster cluster)]
    else
      match exfat.classifyNextCluster cluster (table cluster) with
      | .error e => [.error e]
      | .ok none => [.ok cluster]
      | .ok (some next) => .ok cluster :: chain table left next

/-- Where a cluster starts. -/
def heapOffset (cluster : Nat) : Nat :=
  exfat.clusterHeapByteOffset + (cluster - 2) * exfat.clusterSize

/-- The entries stored in a cluster. -/
def clusterEntries (image : ByteImage) (cluster : Nat) : List (Bytes × Nat) :=
  (List.range (exfat.clusterSize / dirEntrySize)).map fun i =>
    (window image.content (heapOffset exfat cluster + i * dirEntrySize) dirEntrySize,
      heapOffset exfat cluster + i * dirEntrySize)

/-- The entries of a chain of clusters. -/
def chainEntries (image : ByteImage) (clusters : List (Except ExFatError Nat)) : EntryList :=
  clusters.flatMap fun
    | .ok cluster => (clusterEntries exfat image cluster).map .ok
    | .error e => [.error e]

/-- The image holds the table. -/
def HoldsTable (image : ByteImage) (table : Nat → Nat) : Prop :=
  ∀ cluster, 2 ≤ cluster → cluster ≤ exfat.lastCluster →
    ofLE (window image.content (exfat.fatByteOffset + cluster * 4) 4) = table cluster

/-- The table is in front of the clusters, and all of them are in the image. -/
structure Complete (image : ByteImage) : Prop where
  table_le : exfat.fatByteOffset + (exfat.clusterCount + 2) * 4 ≤ exfat.clusterHeapByteOffset
  heap_le : exfat.clusterHeapByteOffset + exfat.clusterCount * exfat.clusterSize ≤ image.length

end Chain

section Reads

variable {σ : Type} {exfat : ExFat} {fs : BlockReader ExFatError σ} {image : ByteImage}
  {pos : σ → Nat} {D : σ → Prop} {table : Nat → Nat} {cluster : Nat} {s : ClusterBuffer σ}
  {iter : ClusterIterator σ}

theorem bytesPerSector_pos : 0 < exfat.bytesPerSector := Nat.two_pow_pos _

theorem clusterSize_le : exfat.clusterSize ≤ 2 ^ 25 :=
  Nat.pow_le_pow_right (by decide) exfat.cluster_le

/-- A cluster holds a whole number of entries, and no fewer than sixteen. -/
theorem exists_clusterSize (exfat : ExFat) : ∃ n, 16 ≤ n ∧ exfat.clusterSize =
    n * dirEntrySize := by
  refine ⟨2 ^ (exfat.bytesPerSectorShift + exfat.sectorsPerClusterShift - 5), ?_, ?_⟩
  · have hge := exfat.shift_ge
    have hpow : 2 ^ 4 ≤ 2 ^ (exfat.bytesPerSectorShift + exfat.sectorsPerClusterShift - 5) :=
      Nat.pow_le_pow_right (by decide) (by omega)
    exact hpow
  · have hge := exfat.shift_ge
    show 2 ^ _ = 2 ^ _ * 2 ^ 5
    rw [← Nat.pow_add]
    congr 1
    omega

/-- What is left of the chain. -/
def pending (exfat : ExFat) (table : Nat → Nat) (iter : ClusterIterator σ) :
    List (Except ExFatError Nat) :=
  match iter.currentCluster with
  | none => []
  | some cluster => chain exfat table (exfat.clusterCount - iter.clustersTraversed) cluster

theorem pending_of_none (h : iter.currentCluster = none) :
    pending exfat table iter = [] := by
  simp only [pending, h]

theorem pending_of_some (h : iter.currentCluster = some cluster) :
    pending exfat table iter =
      chain exfat table (exfat.clusterCount - iter.clustersTraversed) cluster := by
  simp only [pending, h]

theorem heap_lt : exfat.clusterHeapByteOffset < 2 ^ 44 := by
  have hheap := exfat.clusterHeapOffset_lt
  calc exfat.clusterHeapOffset * exfat.bytesPerSector
      ≤ exfat.clusterHeapOffset * 2 ^ 12 :=
        Nat.mul_le_mul_left _ (Nat.pow_le_pow_right (by decide) exfat.shift_le)
    _ < 2 ^ 44 := by omega

/-- The sectors of the table are in the image. -/
theorem blocksInside_table (hcomplete : Complete exfat image) (hle : cluster ≤ exfat.lastCluster) :
    BlockCache.BlocksInside image exfat.bytesPerSector (exfat.fatByteOffset + cluster * 4) 4 := by
  intro q hq hq'
  have hlast : exfat.lastCluster ≤ exfat.clusterCount + 1 := Nat.min_le_left _ _
  have htable := hcomplete.table_le
  have hheap := hcomplete.heap_le
  have hlt : q < exfat.clusterHeapByteOffset := by omega
  refine ⟨Nat.lt_trans hlt (Nat.lt_trans heap_lt (by decide)), ?_⟩
  have hsector : q / exfat.bytesPerSector < exfat.clusterHeapOffset :=
    (Nat.div_lt_iff_lt_mul bytesPerSector_pos).mpr hlt
  calc q / exfat.bytesPerSector * exfat.bytesPerSector + exfat.bytesPerSector
      = (q / exfat.bytesPerSector + 1) * exfat.bytesPerSector := (Nat.add_one_mul _ _).symm
    _ ≤ exfat.clusterHeapByteOffset := Nat.mul_le_mul_right _ hsector
    _ ≤ image.length := by omega

/-- The entries left in the buffer. -/
def buffered (s : ClusterBuffer σ) : List (Bytes × Nat) :=
  (List.range ((s.bufferValid - s.bufferOffset) / dirEntrySize)).map fun i =>
    (s.buffer.slice (s.bufferOffset + i * dirEntrySize) dirEntrySize,
      s.currentClusterOffset + s.bufferOffset + i * dirEntrySize)

/-- The buffer and what is left of the chain hold the entries of the list. -/
structure HoldsEntries (exfat : ExFat) (image : ByteImage) (D : σ → Prop) (table : Nat → Nat)
    (s : ClusterBuffer σ) (entries : EntryList) : Prop where
  fat : BlockCache.Inv image D exfat.bytesPerSector s.clusterIter.fat
  whole : ∃ n, s.bufferValid = s.bufferOffset + n * dirEntrySize
  addressable : s.currentClusterOffset + s.bufferValid < 2 ^ 64
  entries_eq : entries =
    (buffered s).map .ok ++ chainEntries exfat image (pending exfat table s.clusterIter)

/-- Taking an entry from the buffer. -/
theorem exists_takeEntry {n : Nat}
    (hwhole : s.bufferValid = s.bufferOffset + (n + 1) * dirEntrySize)
    (haddressable : s.currentClusterOffset + s.bufferValid < 2 ^ 64) :
    ∃ entry, takeEntry s = .ok (some entry)
        { s with bufferOffset := s.bufferOffset + dirEntrySize } ∧
      buffered s = entry :: buffered { s with bufferOffset := s.bufferOffset + dirEntrySize } := by
  refine ⟨(s.buffer.slice s.bufferOffset dirEntrySize, s.currentClusterOffset + s.bufferOffset), ?_,
    ?_⟩
  · have hroom : ¬ s.bufferValid < s.bufferOffset + dirEntrySize := by
      simp only [dirEntrySize] at hwhole ⊢
      omega
    have hoffset : min (s.currentClusterOffset + (s.bufferOffset + dirEntrySize - dirEntrySize))
        (2 ^ 64 - 1) = s.currentClusterOffset + s.bufferOffset := by
      omega
    rw [takeEntry, get_bind_run, if_neg hroom, ← hoffset]
    rfl
  · have hcount : (s.bufferValid - s.bufferOffset) / dirEntrySize = n + 1 := by
      simp only [dirEntrySize] at hwhole ⊢
      omega
    have hcount' : (s.bufferValid - (s.bufferOffset + dirEntrySize)) / dirEntrySize = n := by
      simp only [dirEntrySize] at hwhole ⊢
      omega
    rw [buffered, buffered, hcount, hcount', List.range_succ_eq_map, List.map_cons, List.map_map]
    refine congrArg₂ List.cons ?_ ?_
    · rw [Nat.zero_mul, Nat.add_zero, Nat.add_zero]
    apply List.map_congr_left
    intro i _
    have hshift : s.bufferOffset + (i + 1) * dirEntrySize =
        s.bufferOffset + dirEntrySize + i * dirEntrySize := by
      rw [Nat.add_one_mul]
      omega
    show (_, _) = (_, _)
    rw [Nat.add_assoc s.currentClusterOffset, hshift, ← Nat.add_assoc]

/-- A buffer with a whole cluster. -/
theorem buffered_eq_clusterEntries (hoffset : s.bufferOffset = 0)
    (hvalid : s.bufferValid = exfat.clusterSize)
    (hbuffer : s.buffer = window image.content (heapOffset exfat cluster) exfat.clusterSize)
    (hstart : s.currentClusterOffset = heapOffset exfat cluster) :
    buffered s = clusterEntries exfat image cluster := by
  rw [buffered, hoffset, hvalid, hbuffer, hstart, Nat.sub_zero]
  apply List.map_congr_left
  intro i hi
  obtain ⟨n, -, hsize⟩ := exists_clusterSize exfat
  have hin : i < n := by
    rw [hsize, Nat.mul_div_cancel _ (by decide)] at hi
    exact List.mem_range.mp hi
  have hle : i * dirEntrySize + dirEntrySize ≤ exfat.clusterSize := by
    rw [hsize, ← Nat.add_one_mul]
    exact Nat.mul_le_mul_right _ hin
  rw [Nat.zero_add, Nat.add_zero, slice_window hle]

/-- A cluster is inside the image, and can be addressed. -/
theorem cluster_inside (hcomplete : Complete exfat image) (hge : 2 ≤ cluster)
    (hle : cluster ≤ exfat.lastCluster) :
    heapOffset exfat cluster + exfat.clusterSize ≤ image.length ∧
      heapOffset exfat cluster + exfat.clusterSize < 2 ^ 64 := by
  have hlast : exfat.lastCluster ≤ exfat.clusterCount + 1 := Nat.min_le_left _ _
  have hnext : heapOffset exfat cluster + exfat.clusterSize =
      exfat.clusterHeapByteOffset + (cluster - 1) * exfat.clusterSize := by
    rw [heapOffset, Nat.add_assoc, ← Nat.add_one_mul]
    congr 2
    omega
  have hcount : (cluster - 1) * exfat.clusterSize ≤ exfat.clusterCount * exfat.clusterSize :=
    Nat.mul_le_mul_right _ (by omega)
  have hsize : exfat.clusterCount * exfat.clusterSize ≤ 2 ^ 32 * 2 ^ 25 :=
    Nat.mul_le_mul (Nat.le_of_lt exfat.clusterCount_lt) clusterSize_le
  have hheap : exfat.clusterHeapByteOffset < 2 ^ 44 := heap_lt
  have himage := hcomplete.heap_le
  constructor
  · omega
  · omega

section

variable (hfs : fs.ServesImage image pos D) (hcomplete : Complete exfat image)
  (htable : HoldsTable exfat image table)

include hfs hcomplete htable

/-- Reading the table, in a complete image. -/
theorem post_nextClusterCached {s : Attached σ BlockCache}
    (hs : BlockCache.Inv image D exfat.bytesPerSector s) (cluster : Nat) :
    Post (nextClusterCached exfat fs cluster) s
      (fun next t => BlockCache.Inv image D exfat.bytesPerSector t ∧
        ¬ (cluster < 2 ∨ exfat.lastCluster < cluster) ∧
        exfat.classifyNextCluster cluster (table cluster) = .ok next)
      (fun e t => BlockCache.Inv image D exfat.bytesPerSector t ∧
        ((cluster < 2 ∨ exfat.lastCluster < cluster) ∧ e = .invalidCluster cluster ∨
          ¬ (cluster < 2 ∨ exfat.lastCluster < cluster) ∧
            exfat.classifyNextCluster cluster (table cluster) = .error e)) := by
  rw [nextClusterCached, post_ite, post_throw, post_bind]
  refine ⟨fun hout => ⟨hs, .inl ⟨hout, rfl⟩⟩, fun hin => ?_⟩
  have hinside := blocksInside_table hcomplete (by omega : cluster ≤ exfat.lastCluster)
  apply (BlockCache.post_readExactAt hfs.provides bytesPerSector_pos hs _ _).mono
  · rintro bytes t ⟨ht, rfl⟩
    rw [htable cluster (by omega) (by omega)]
    split
    · rename_i next hclassify
      exact ⟨ht, hin, hclassify⟩
    · rename_i e hclassify
      exact ⟨ht, .inr ⟨hin, hclassify⟩⟩
  · rintro e t ⟨-, hnot⟩
    exact absurd hinside (hnot trivial)

/-- One step of the cluster iterator takes one step of the chain. -/
theorem post_iterator_next {s : ClusterIterator σ}
    (hs : BlockCache.Inv image D exfat.bytesPerSector s.fat) :
    Post (ClusterIterator.next exfat fs) s
      (fun next t => BlockCache.Inv image D exfat.bytesPerSector t.fat ∧
        (next = none ∧ pending exfat table s = [] ∧ pending exfat table t = [] ∨
          ∃ cluster, next = some cluster ∧ 2 ≤ cluster ∧ cluster ≤ exfat.lastCluster ∧
            pending exfat table s = .ok cluster :: pending exfat table t))
      (fun e t => BlockCache.Inv image D exfat.bytesPerSector t.fat ∧
        pending exfat table s = [.error e] ∧ pending exfat table t = []) := by
  simp only [ClusterIterator.next, post_bind, post_get]
  split
  · rename_i hnone
    exact ⟨hs, .inl ⟨rfl, pending_of_none hnone, pending_of_none hnone⟩⟩
  rename_i cluster hcurrent
  simp only [post_bind, post_set, post_ite, post_modify, post_throw, post_attempt, post_zoom]
  refine ⟨fun hloop => ?_, fun hmore => ?_⟩
  · have hzero : exfat.clusterCount - s.clustersTraversed = 0 := by omega
    exact ⟨hs, by rw [pending_of_some hcurrent, hzero, chain], rfl⟩
  · obtain ⟨left, hleft⟩ : ∃ left, exfat.clusterCount - s.clustersTraversed = left + 1 :=
      ⟨exfat.clusterCount - s.clustersTraversed - 1, by omega⟩
    have hleft' : exfat.clusterCount - (s.clustersTraversed + 1) = left := by omega
    apply (post_nextClusterCached hfs hcomplete htable hs cluster).mono
    · rintro next fat ⟨hfat, hin, hclassify⟩
      refine ⟨hfat, .inr ⟨cluster, rfl, by omega, by omega, ?_⟩⟩
      rw [pending_of_some hcurrent, hleft, chain, if_neg hin, hclassify]
      cases next with
      | none => rfl
      | some next =>
        show _ = _ :: chain exfat table _ next
        rw [hleft']
    · rintro e fat ⟨hfat, ⟨hout, rfl⟩ | ⟨hin, hclassify⟩⟩
      · exact ⟨hfat, by rw [pending_of_some hcurrent, hleft, chain, if_pos hout], rfl⟩
      · exact ⟨hfat, by rw [pending_of_some hcurrent, hleft, chain, if_neg hin, hclassify], rfl⟩

/-- Loading a cluster takes one step of the chain. -/
theorem post_loadNextCluster (hs : BlockCache.Inv image D exfat.bytesPerSector s.clusterIter.fat) :
    Post (loadNextCluster exfat fs) s
      (fun _ t => BlockCache.Inv image D exfat.bytesPerSector t.clusterIter.fat ∧
        (t.bufferValid = 0 ∧ t.bufferOffset = 0 ∧ t.currentClusterOffset = s.currentClusterOffset ∧
            pending exfat table s.clusterIter = [] ∧ pending exfat table t.clusterIter = [] ∨
          ∃ cluster, 2 ≤ cluster ∧ cluster ≤ exfat.lastCluster ∧ t.bufferOffset = 0 ∧
            t.bufferValid = exfat.clusterSize ∧
            t.buffer = window image.content (heapOffset exfat cluster) exfat.clusterSize ∧
            t.currentClusterOffset = heapOffset exfat cluster ∧
            pending exfat table s.clusterIter = .ok cluster :: pending exfat table t.clusterIter))
      (fun e t => ∃ clusterIter, t = { s with clusterIter } ∧
        BlockCache.Inv image D exfat.bytesPerSector clusterIter.fat ∧
        pending exfat table s.clusterIter = [.error e] ∧ pending exfat table clusterIter = []) := by
  rw [loadNextCluster, post_bind, post_zoom]
  apply (post_iterator_next hfs hcomplete htable hs).mono
  · rintro next iter ⟨hiter, ⟨rfl, hnil, hnil'⟩ | ⟨cluster, rfl, hge, hle, hpending⟩⟩
    · exact ⟨hiter, .inl ⟨rfl, rfl, rfl, hnil, hnil'⟩⟩
    · have hoffset : exfat.clusterOffset cluster = .ok (heapOffset exfat cluster) := by
        rw [ExFat.clusterOffset, if_neg (by omega), if_neg (by omega), heapOffset]
      obtain ⟨hinside, -⟩ := cluster_inside hcomplete hge hle
      -- the read goes through to the device, past the cache of the table
      have hread := hfs.provides.post_readAt hiter.fs
        (heapOffset exfat cluster) exfat.clusterSize
      rw [post_bind] at hread
      simp only [hoffset, onFs, Attached.onFs, post_bind, post_zoom, post_modify]
      apply hread.mono
      · intro _ d hread
        apply hread.mono
        · rintro bytes d' ⟨hd', rfl, -⟩
          exact ⟨⟨hd', hiter.blockSize, hiter.truthful⟩,
            .inr ⟨cluster, hge, hle, trivial, trivial, rfl, rfl, hpending⟩⟩
        · rintro e d' ⟨-, hshort⟩
          exact absurd hinside (Nat.not_le.mpr (hshort trivial))
      · rintro e d ⟨-, hshort⟩
        exact absurd hinside (Nat.not_le.mpr (hshort trivial))
  · rintro e iter ⟨hiter, hpending, hnil⟩
    exact ⟨iter, rfl, hiter, hpending, hnil⟩

/-- The buffered chain does what the list of its entries does. -/
theorem simulates_readEntryBytes :
    Simulates (HoldsEntries exfat image D table) (readEntryBytes exfat fs) readFlat := by
  -- an entry that is in the buffer is the first one of the list
  have htake : ∀ s entries n, s.bufferValid = s.bufferOffset + (n + 1) * dirEntrySize →
      HoldsEntries exfat image D table s entries →
      Post takeEntry s
        (fun a s' => ∃ rest, readFlat entries = .ok a rest ∧
          HoldsEntries exfat image D table s' rest)
        (fun e s' => ∃ rest, readFlat entries = .error e rest ∧
          HoldsEntries exfat image D table s' rest) := by
    intro s entries n hwhole h
    obtain ⟨entry, htake, hbuffered⟩ := exists_takeEntry hwhole h.addressable
    unfold Post
    rw [htake]
    have hentries := h.entries_eq
    rw [hbuffered] at hentries
    rw [hentries]
    refine ⟨_, rfl, h.fat, ⟨n, ?_⟩, h.addressable, rfl⟩
    show s.bufferValid = s.bufferOffset + dirEntrySize + n * dirEntrySize
    rw [hwhole, Nat.add_one_mul]
    omega
  apply of_post
  intro s entries h
  rw [readEntryBytes, post_bind, post_get, post_ite]
  obtain ⟨n, hn⟩ := h.whole
  refine ⟨fun hempty => ?_, fun hmore => ?_⟩
  · have hzero : n = 0 := by
      simp only [dirEntrySize] at hn
      omega
    have hbuffered : buffered s = [] := by
      rw [buffered, hn, hzero, Nat.zero_mul, Nat.add_zero, Nat.sub_self]
      rfl
    have hentries := h.entries_eq
    rw [hbuffered, List.map_nil] at hentries
    rw [post_bind]
    apply (post_loadNextCluster hfs hcomplete htable h.fat).mono
    · rintro _ t ⟨ht, ⟨hvalid, hoffset, hstart, hnil, hnil'⟩ | hloaded⟩
      · rw [post_bind, post_get, if_pos hvalid, post_pure]
        rw [hentries, hnil]
        refine ⟨[], rfl, ht, ⟨0, by rw [hvalid, hoffset, Nat.zero_mul]⟩, ?_, ?_⟩
        · have haddressable := h.addressable
          omega
        · rw [buffered, hvalid, Nat.zero_sub, hnil']
          rfl
      · obtain ⟨cluster, hge, hle, hoffset, hvalid, hbuffer, hstart, hpending⟩ := hloaded
        obtain ⟨count, hcount, hsize⟩ := exists_clusterSize exfat
        obtain ⟨m, rfl⟩ : ∃ m, count = m + 1 := ⟨count - 1, by omega⟩
        have hwhole : t.bufferValid = t.bufferOffset + (m + 1) * dirEntrySize := by
          rw [hvalid, hoffset, hsize, Nat.zero_add]
        have hne : ¬ t.bufferValid = 0 := by
          simp only [dirEntrySize] at hwhole
          omega
        rw [post_bind, post_get, if_neg hne]
        apply htake t entries m hwhole
        refine ⟨ht, ⟨m + 1, hwhole⟩, ?_, ?_⟩
        · rw [hstart, hvalid]
          exact (cluster_inside hcomplete hge hle).2
        · rw [hentries, hpending, buffered_eq_clusterEntries hoffset hvalid hbuffer hstart]
          rfl
    · rintro e t ⟨iter, rfl, hiter, hpending, hnil⟩
      rw [hentries, hpending]
      refine ⟨[], rfl, hiter, h.whole, h.addressable, ?_⟩
      show [] = (buffered s).map _ ++ _
      rw [hbuffered, hnil]
      rfl
  · obtain ⟨m, rfl⟩ : ∃ m, n = m + 1 := by
      refine ⟨n - 1, ?_⟩
      simp only [dirEntrySize] at hn
      omega
    exact htake s entries m hn h

end

end Reads

end Fsmnt.FsExfat
