import Fsmnt.Native.FsNtfs.Owned
import Fsmnt.Spec.FsNtfs.NonResident

/-!
# Positioned reads of a non-resident value

The owned reader reads the initialized part through the map and fills up with zeros, which gives the
same bytes as the stream. The map itself knows neither the data size nor the initialized size: it
reads what the runs hold.
-/

namespace Fsmnt.FsNtfs

open Bytes DataRunMap EStateM OwnedValue NonResidentValue NtfsError

variable {σ : Type} {fs : BlockReader NtfsError σ} {image : ByteImage} {pos : σ → Nat}
  {I : σ → Prop} {runs : List NtfsDataRun} {size initialized offset n : Nat}

/-- Up to the initialized size the value is what the runs hold. -/
theorem window_valueByte_of_le (h : offset + n ≤ initialized) :
    window (valueByte image.content runs initialized) offset n =
      window (runByte image.content runs) offset n := by
  apply window_congr
  intro i hi
  rw [valueByte, if_pos (by omega)]

theorem window_valueByte_of_ge (h : initialized ≤ offset) :
    window (valueByte image.content runs initialized) offset n = zeros n := by
  rw [zeros, ← window_const 0 offset n]
  apply window_congr
  intro i _
  rw [valueByte, if_neg (by omega)]

namespace OwnedValue

theorem post_readMapAt (hfs : fs.ServesImage image pos I) (hruns : RunsInside image runs) {d : σ}
    (hd : I d) {toRead : Nat} (hle : offset + toRead ≤ totalLength runs) :
    Post (readMapAt fs (fromDataRuns runs) offset initialized toRead) d (fun bs t => I t ∧
        bs = window (valueByte image.content runs initialized) offset toRead)
      (fun _ _ => False) := by
  simp only [readMapAt, post_ite, post_pure, post_bind]
  refine ⟨fun hzero => ⟨hd, ?_⟩, fun hpos => ?_⟩
  · by_cases hz : toRead = 0
    · rw [hz]
      rfl
    · rw [window_valueByte_of_ge (by omega)]
  · refine (post_readAt hfs hruns hd (by omega)).imp ?_
    rintro ⟨p, bs⟩ t ⟨ht, rfl⟩
    refine ⟨ht, ?_⟩
    have hsplit : ∀ k ≤ toRead, window (valueByte image.content runs initialized) offset toRead =
        window (valueByte image.content runs initialized) offset k ++
          window (valueByte image.content runs initialized) (offset + k) (toRead - k) := by
      intro k hk
      rw [window_append, Nat.add_sub_cancel' hk]
    rw [hsplit _ (Nat.min_le_left toRead (initialized - offset)), window_valueByte_of_le (by omega)]
    by_cases hall : toRead ≤ initialized - offset
    · rw [Nat.min_eq_left hall, Nat.sub_self]
      rfl
    · rw [window_valueByte_of_ge (by omega)]

/-- A positioned read returns the bytes of the value. -/
theorem post_readAt_nonResident (hfs : fs.ServesImage image pos I) (hruns : RunsInside image runs)
    (htotal : size ≤ totalLength runs) (codec : Codec) (initialized : Nat) {d : σ} (hd : I d)
    (offset n : Nat) :
    Post (readAt fs codec offset n) ⟨d, nonResident (fromDataRuns runs) size initialized⟩
      (fun bs t => I t.fs ∧ t.value = nonResident (fromDataRuns runs) size initialized ∧
        bs = window (valueByte image.content runs initialized) offset (min n (size - offset)))
      (fun _ _ => False) := by
  simp only [readAt, post_bind, post_get, post_ite, post_pure, nonResident, Attached.onFs,
    post_zoom]
  refine ⟨fun h => ⟨hd, trivial, ?_⟩, fun h => ?_⟩
  · rw [show min n (size - offset) = 0 by omega]
    rfl
  · refine (post_readMapAt hfs hruns hd (by omega)).imp ?_
    rintro bs t ⟨ht, rfl⟩
    refine ⟨ht, trivial, window_congr ?_⟩
    intro i hi
    simp only [valueByte]
    congr 1
    exact propext ⟨fun _ => by omega, fun _ => by omega⟩

end OwnedValue

/-- For every run list inside an image, every data size that the runs cover and every initialized
    size: the streaming reader, called in any way, and the owned reader return the bytes of one
    stream, which is the bytes of the runs with zeros from the initialized size on, up to the data
    size; and the map returns the bytes of the runs, which are those of the stream inside both
    sizes. -/
theorem value_streams_agree (fs : BlockReader NtfsError σ) (image : ByteImage) (pos : σ → Nat)
    (I : σ → Prop) (hfs : fs.ServesImage image pos I) (codec : Codec) (runs : List NtfsDataRun)
    (hruns : RunsInside image runs) (size initialized : Nat) (htotal : size ≤ totalLength runs)
    (d : σ) (hd : I d) :
    (∀ calls : List ReaderCall, (∀ call ∈ calls, NonResidentValue.FitsSlice call) →
      Run.Along (reader fs).after
        (NonResidentValue.CallRight fs image.content runs size initialized) calls
        (new d runs size initialized)) ∧
    (∀ offset n, ∃ t, readAt fs codec offset n
        ⟨d, nonResident (fromDataRuns runs) size initialized⟩ =
      .ok (window (valueByte image.content runs initialized) offset (min n (size - offset))) t) ∧
    (∀ offset n, offset + n ≤ totalLength runs → ∃ p t, DataRunMap.readAt fs (fromDataRuns runs)
        offset n d = .ok (p, window (runByte image.content runs) offset n) t) ∧
    (∀ offset n, offset + n ≤ min size initialized → window (runByte image.content runs) offset n =
        window (valueByte image.content runs initialized) offset n) := by
  refine ⟨fun calls hcalls => ?_, ?_, ?_, ?_⟩
  · exact Run.along_of_mem (fun call hmem _ hs =>
      callRight hfs hs (hcalls call hmem) (asksHeld_of_runsInside hruns htotal)) (inv_new hd)
  · intro offset n
    obtain ⟨bs, t, hrun, -, -, rfl⟩ :=
      (post_readAt_nonResident hfs hruns htotal codec initialized hd offset n).exists_ok
    exact ⟨t, hrun⟩
  · intro offset n hle
    obtain ⟨⟨p, bs⟩, t, hrun, -, hbs⟩ := (post_readAt hfs hruns hd hle).exists_ok
    simp only at hbs
    exact ⟨p, t, by rw [hrun, hbs]⟩
  · intro offset n hle
    exact (window_valueByte_of_le (by omega)).symm

/-- An image of ones. -/
def onesImage : ByteImage := { content := fun _ => 1, length := 4096 }

/-- One cluster of it, and a hole behind it. -/
def onesRuns : List NtfsDataRun :=
  [{ position := some 512, allocatedSize := 512 }, { position := none, allocatedSize := 512 }]

theorem runsInside_onesRuns : RunsInside onesImage onesRuns where
  length_le := by decide
  totalLength_lt := by decide
  pos := by decide
  inside := by
    intro run hrun p hp
    simp only [onesRuns, List.mem_cons, List.not_mem_nil, or_false] at hrun
    obtain rfl | rfl := hrun
    · cases hp
      decide
    · cases hp

theorem value_streams_agree_ones : ∃ t, readAt (onesImage.reader unexpectedEof)
    lznt1Codec 1 600 ⟨0, nonResident (fromDataRuns onesRuns) 700 500⟩ =
      .ok (window (valueByte onesImage.content onesRuns 500) 1 600) t :=
  (value_streams_agree (onesImage.reader unexpectedEof) onesImage id (fun _ => True)
    (onesImage.reader_serves _) lznt1Codec onesRuns runsInside_onesRuns 700 500 (by decide) 0
    trivial).2.1 1 600

/-- Behind the initialized size the map returns what is on the disk, where the stream has zeros. -/
theorem readAt_past_initialized_ones :
    (∃ t, DataRunMap.readAt (onesImage.reader unexpectedEof) (fromDataRuns onesRuns) 500 2 0 =
      .ok (some 1012, [1, 1]) t) ∧
    window (valueByte onesImage.content onesRuns 500) 500 2 = [0, 0] :=
  ⟨⟨_, rfl⟩, rfl⟩

end Fsmnt.FsNtfs
