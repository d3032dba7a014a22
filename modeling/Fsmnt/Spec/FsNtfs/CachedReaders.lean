import Fsmnt.ForStd.Run
import Fsmnt.Spec.FsNtfs.ClusterBitmap
import Fsmnt.Spec.FsNtfs.Compressed
import Fsmnt.Spec.FsNtfs.Wof

/-!
# Cached readers do not depend on their history

As long as no fill fails over a unit that is buffered, each of the readers returns what one returns
that has just been made. A fill that fails there leaves the tag of the old unit on a buffer that has
been overwritten, and the next read of the old unit succeeds with the wrong bytes.
-/

namespace Fsmnt.FsNtfs

open EStateM CompressedValue ClusterBitmap WofValue UnitBuffer

/-- For every device that reads an image and may fail, and every run of calls that all are safe,
    each read that succeeds returns what a reader of the image that has just been made returns. -/
theorem cached_readers_same_as_fresh {σ : Type} (fs : FillReader NtfsError σ) (image : ByteImage)
    (pos : σ → Nat) (I H : σ → Prop) (hfs : fs.ReadsImage image pos I)
    (hserves : fs.ServesImage image pos H) (hsub : ∀ d, H d → I d) (hwrites : fs.WritesInside)
    (d : σ) (hd : I d) (codec : Codec) (codecs : NtAlgorithm → Codec) :
    (∀ map unitSize size initialized mode calls, Run.Along (after fs.toBlockReader codec)
        (CompressedValue.CallSafe codec image H) calls
        ⟨d, fromMap map unitSize size initialized mode⟩ →
      Run.Along (after fs.toBlockReader codec)
        (CompressedValue.SameAsFresh fs.toBlockReader codec image) calls
        ⟨d, fromMap map unitSize size initialized mode⟩) ∧
    (∀ map unitSize size initialized mode calls,
      Run.Along (OwnedValue.after fs.toBlockReader codec) (OwnedValue.CallSafe codec image H) calls
        ⟨d, OwnedValue.compressed map unitSize size initialized mode⟩ →
      Run.Along (OwnedValue.after fs.toBlockReader codec)
        (OwnedValue.SameAsFresh fs.toBlockReader codec image) calls
        ⟨d, OwnedValue.compressed map unitSize size initialized mode⟩) ∧
    (∀ data size algorithm mode made, new data size algorithm mode = .ok made →
      ∀ calls, Run.Along (after codecs) (WofValue.CallSafe codecs) calls made →
        Run.Along (after codecs) (WofValue.SameAsFresh codecs made) calls made) ∧
    (∀ map totalClusters clusterSize queries, Run.Along (after fs)
        (ClusterBitmap.CallSafe image H (load map totalClusters clusterSize)) queries
        ⟨d, load map totalClusters clusterSize⟩ →
      Run.Along (after fs) (ClusterBitmap.SameAsFresh fs image (load map totalClusters clusterSize))
        queries ⟨d, load map totalClusters clusterSize⟩) := by
  refine ⟨?_, ?_, ?_, ?_⟩
  · intro map unitSize size initialized mode calls
    apply Run.along_of_along (sameAsFresh_step hfs hserves hsub)
    exact ⟨hd, Nat.min_le_right _ _, truthful_new _ _ _⟩
  · intro map unitSize size initialized mode calls
    apply Run.along_of_along (OwnedValue.sameAsFresh_step hfs hserves hsub)
    exact ⟨hd, Nat.min_le_right _ _, _, rfl, truthful_new _ _ _⟩
  · intro data size algorithm mode made hmade calls
    have hnone := bufferedChunkIndex_of_new hmade
    apply Run.along_of_along (sameAsFresh_step hnone)
    refine ⟨rfl, rfl, fun k hk => ?_⟩
    rw [hnone] at hk
    cases hk
  · intro map totalClusters clusterSize queries
    apply Run.along_of_along (sameAsFresh_step hfs hserves hsub hwrites rfl)
    exact inv_load hd map totalClusters clusterSize

/-- An image of ones: as a compressed unit it starts with a chunk header of the wrong signature. -/
def damagedImage : ByteImage := { content := fun _ => 1, length := 4096 }

/-- Two units of two clusters: the first is stored as it is, and the second one compressed. -/
def damagedRuns : List NtfsDataRun :=
  [{ position := some 512, allocatedSize := 1024 }, { position := some 2048, allocatedSize := 512 },
    { position := none, allocatedSize := 512 }]

/-- A reader of the two units. -/
def damagedValue : Attached Nat CompressedValue :=
  ⟨0, fromMap (DataRunMap.fromDataRuns damagedRuns) 1024 2048 2048 .strict⟩

/-- A byte of a first unit that can be decoded is safe to read. -/
theorem callSafe_first_unit {s : Attached Nat CompressedValue} (hpos : s.value.streamPosition = 0)
    (hsize : s.value.unit.compressionUnitSize = 1024)
    (hunit : (idealUnit lznt1Codec damagedImage 2048 s.value.unit 0).isSome) :
    CompressedValue.CallSafe lznt1Codec damagedImage (fun _ => True) s (.io (.read 1)) := by
  refine ⟨fun _ => trivial, fun q _ hq => .inl ?_⟩
  have hle : s.value.available 1 ≤ 1 := Nat.min_le_left _ _
  have hzero : q / s.value.unit.compressionUnitSize = 0 := by
    rw [hsize]
    omega
  obtain ⟨b, hb⟩ := Option.isSome_iff_exists.mp hunit
  rw [hzero]
  exact intact_of_idealUnit hb

/-- Reading in the first unit, again and again. -/
theorem cached_readers_same_as_fresh_damaged :
    Run.Along (after (damagedImage.reader .unexpectedEof) lznt1Codec)
      (CompressedValue.SameAsFresh (damagedImage.reader .unexpectedEof) lznt1Codec damagedImage)
      [.io (.read 1), .io (.seek (.start 0)), .io (.read 1)] damagedValue := by
  apply (cached_readers_same_as_fresh (damagedImage.fillReader .unexpectedEof) damagedImage id
    (fun _ => True) (fun _ => True) (damagedImage.reader_serves _).toReadsImage
    (damagedImage.reader_serves _) (fun _ h => h) (damagedImage.fillReader_writesInside _) 0 trivial
    lznt1Codec (fun _ => lznt1Codec)).1
  refine ⟨callSafe_first_unit rfl rfl ?_, trivial, callSafe_first_unit ?_ ?_ ?_, trivial⟩
  all_goals decide +kernel

/-- The first unit is read; the second one fails; the first one is read again. -/
def damagedCalls : List ValueCall :=
  [.io (.read 1), .io (.seek (.start 1024)), .io (.read 1), .io (.seek (.start 0)), .io (.read 1)]

/-- The state before the last call. -/
def damagedState : Attached Nat CompressedValue :=
  (damagedCalls.take 4).foldl (after (damagedImage.reader .unexpectedEof) lznt1Codec) damagedValue

theorem stale_unit_damaged : ¬ Run.Along (after (damagedImage.reader .unexpectedEof) lznt1Codec)
      (CompressedValue.SameAsFresh (damagedImage.reader .unexpectedEof) lznt1Codec damagedImage)
      damagedCalls damagedValue := by
  have hstale : result? (read (damagedImage.reader .unexpectedEof) lznt1Codec 1)
      damagedState = some [0] := by decide +kernel
  have hfresh : result? (read (damagedImage.reader .unexpectedEof) lznt1Codec 1)
      ⟨0, damagedState.value.fresh⟩ = some [1] := by decide +kernel
  rintro ⟨-, -, -, -, h, -⟩
  obtain ⟨t, ht⟩ := result?_eq_some_iff.mp hstale
  have hsame : result? (read (damagedImage.reader .unexpectedEof) lznt1Codec 1)
      ⟨0, damagedState.value.fresh⟩ = some [0] := result?_eq_some_iff.mpr (h [0] t ht)
  rw [hfresh] at hsame
  cases hsame

end Fsmnt.FsNtfs
