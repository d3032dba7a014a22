import Fsmnt.Native.Device.PartitionReader
import Fsmnt.Spec.Device.Assembly
import Fsmnt.Spec.Device.SectorReader

/-!
# Partition reads after a failed read

A partition reader remembers where its last successful read left the inner reader and does not
seek when it reads on from there. A read that fails behind its seek leaves the inner reader
elsewhere and the memory as it was. Reads are right as long as none is made at a remembered
position that the inner reader has left.
-/

namespace Fsmnt.Device

namespace PartitionReader

open EStateM

variable {σ : Type} {disk : ReadSeek IoError σ} {content : Nat → UInt8} {pos : σ → Nat}
  {I : σ → Prop} {s : PartitionReader σ}

/-- A successful read returns the bytes of the disk from the absolute position on. -/
def ReadRight (disk : ReadSeek IoError σ) (content : Nat → UInt8) (s : PartitionReader σ) :
    ReaderCall → Prop
  | .read n => ∀ bs t, (reader disk).read n s = .ok bs t →
      bs = Bytes.window content (s.baseOffset + s.position) bs.length
  | .seek _ => True

/-- When a read is made at the remembered position, the inner reader is there. -/
def MemoFresh (pos : σ → Nat) (s : PartitionReader σ) : ReaderCall → Prop
  | .read _ => s.innerPosition = some (s.baseOffset + s.position) →
      pos s.inner = s.baseOffset + s.position
  | .seek _ => True

instance (call : ReaderCall) : Decidable (MemoFresh pos s call) :=
  match call with
  | .read _ => inferInstanceAs (Decidable (_ → _))
  | .seek _ => .isTrue trivial

/-- What the positions are after `advance`. -/
theorem post_advance (absPos n : Nat) : Post (advance absPos n) s
      (fun _ t => t.inner = s.inner ∧ t.innerPosition = some (absPos + n))
      (fun _ t => t.inner = s.inner) := by
  simp only [advance, post_bind, post_get, post_ite, post_throw, post_modify]
  exact ⟨fun _ => trivial, fun _ => ⟨fun _ => trivial, fun _ => ⟨trivial, trivial⟩⟩⟩

theorem post_seek (position : SeekFrom) : Post (seek position) s
      (fun _ t => t.inner = s.inner ∧ t.innerPosition = s.innerPosition) (fun _ t => t = s) := by
  rw [seek, post_bind, post_get]
  cases s.seekTarget position with
  | error e => rfl
  | ok target =>
    simp only [post_ite, post_throw, post_bind, post_modify, post_pure]
    exact ⟨fun _ => trivial, fun _ => ⟨trivial, trivial⟩⟩

section

variable (hdisk : disk.Reads content pos I)

include hdisk

theorem post_seekInner (hs : I s.inner) (absPos : Nat) : Post (seekInner disk absPos) s
      (fun _ t => I t.inner ∧
        ((s.innerPosition = some absPos → pos s.inner = absPos) → pos t.inner = absPos))
      (fun _ t => I t.inner) := by
  simp only [seekInner, post_bind, post_get, post_ite, post_pure, onInner, post_zoom]
  refine ⟨fun hmemo => ⟨hs, fun hfresh => hfresh hmemo⟩, fun _ => ?_⟩
  exact (hdisk.seek_start absPos s.inner hs).imp (fun _ _ h => ⟨h.1, fun _ => h.2⟩)

/-- A read at a position that is not misremembered returns the bytes of the disk there, and
    remembers where the inner reader is then. -/
theorem post_read (hs : I s.inner) (n : Nat) : Post (read disk n) s
      (fun bs t => I t.inner ∧ (MemoFresh pos s (.read n) →
        bs = Bytes.window content (s.baseOffset + s.position) bs.length ∧
          (t = s ∨ t.innerPosition = some (pos t.inner))))
      (fun _ t => I t.inner) := by
  simp only [read, post_bind, post_get, post_ite, post_pure, post_throw]
  refine ⟨fun _ => ⟨hs, fun _ => ⟨rfl, .inl trivial⟩⟩, fun _ => ⟨fun _ => hs, fun _ => ?_⟩⟩
  refine (post_seekInner hdisk hs _).imp ?_
  rintro _ t ⟨ht, hpos⟩
  simp only [onInner, post_zoom]
  refine (hdisk.read _ t.inner ht).imp ?_
  rintro bs inner ⟨hinner, hbs, -, hpos'⟩
  refine (post_advance _ _).mono ?_ ?_
  · rintro _ u ⟨huinner, humemo⟩
    rw [huinner, humemo]
    refine ⟨hinner, fun hfresh => ?_⟩
    rw [hpos hfresh] at hbs hpos'
    exact ⟨hbs, .inr (by rw [hpos'])⟩
  · intro _ u huinner
    rw [huinner]
    exact hinner

/-- The inner reader stays in its states, whatever is remembered. -/
theorem inner_after (hs : I s.inner) (call : ReaderCall) :
    I ((reader disk).after s call).inner := by
  cases call with
  | read n =>
    have hpost : Post (read disk n) s (fun _ t => I t.inner) (fun _ t => I t.inner) :=
      (post_read hdisk hs n).imp (fun _ _ h => h.1)
    exact hpost.state
  | seek position =>
    have hpost : Post (seek position) s (fun _ t => I t.inner) (fun _ t => I t.inner) :=
      (post_seek position).mono (fun _ _ h => by rw [h.1]; exact hs) fun _ _ h => by
        rw [h]; exact hs
    exact hpost.state

theorem readRight_of_memoFresh (hs : I s.inner) (call : ReaderCall)
    (hfresh : MemoFresh pos s call) :
    ReadRight disk content s call := by
  cases call with
  | read n =>
    intro bs t hread
    exact (((post_read hdisk hs n).of_ok hread).2 hfresh).1
  | seek position => trivial

/-- Over a reader of `content`: a run that never reads at a misremembered position reads right. -/
theorem along_readRight (hs : I s.inner) {calls : List ReaderCall}
    (hfresh : Run.Along (reader disk).after (MemoFresh pos) calls s) :
    Run.Along (reader disk).after (ReadRight disk content) calls s :=
  Run.along_of_along (I := fun s => I s.inner)
    (fun _ call hs hcall => ⟨readRight_of_memoFresh hdisk hs call hcall, inner_after hdisk hs call⟩)
    hs hfresh

end

end PartitionReader

/-! ### A device that fails some of its reads -/

/-- A disk whose reads fail now and then. -/
structure FlakyDisk where
  content : Nat → UInt8
  length : Nat
  /-- The reads that fail, by their number. -/
  fails : Nat → Bool

structure FlakyState where
  position : Nat
  /-- How many reads there were. -/
  attempts : Nat

namespace FlakyDisk

/-- The disk as a device. -/
def device (disk : FlakyDisk) : BlockReader IoError FlakyState where
  read := fun n s =>
    let count := min n (disk.length - s.position)
    if disk.fails s.attempts then .error (.other "medium error")
      { s with attempts := s.attempts + 1 }
    else .ok (Bytes.window disk.content s.position count)
      { position := s.position + count, attempts := s.attempts + 1 }
  seek := fun position s =>
    match position.target disk.length s.position with
    | some target => .ok target { s with position := target }
    | none => .error (.invalidInput "seek before start") s
  readExact := fun n s =>
    if disk.fails s.attempts then .error (.other "medium error")
      { s with attempts := s.attempts + 1 }
    else if disk.length < s.position + n then
      .error (.unexpectedEof "failed to fill whole buffer")
        { position := disk.length, attempts := s.attempts + 1 }
    else .ok (Bytes.window disk.content s.position n)
      { position := s.position + n, attempts := s.attempts + 1 }

theorem reads (disk : FlakyDisk) :
    disk.device.Reads disk.content FlakyState.position (fun _ => True) where
  read := by
    intro n s _
    simp only [device, EStateM.Post]
    split
    · rename_i h
      split at h
      · cases h
      · cases h
        rw [Bytes.length_window]
        exact ⟨trivial, rfl, Nat.min_le_left _ _, rfl⟩
    · trivial
  seek_start := fun _ _ _ => ⟨trivial, rfl⟩
  readExact := by
    intro n s _
    simp only [device, EStateM.Post]
    split
    · rename_i h
      split at h
      · cases h
      split at h
      · cases h
      · cases h
        simp
    · trivial

/-- Where the second read of 32 bytes fails. -/
def second : FlakyDisk where
  content := UInt8.ofNat
  length := 32
  fails := fun attempt => attempt = 1

end FlakyDisk

namespace PartitionReader

/-- For every disk content, every partition over a sector reader or an assembled volume, and every
    sequence of calls: as long as no read is made at a remembered position that the inner reader has
    left, every read that succeeds returns the bytes of the disk at its absolute position. -/
theorem reads_disk_along (base size : Nat) (calls : List ReaderCall) :
    (∀ (σ : Type) (device : BlockReader IoError σ) (content : Nat → UInt8) (pos : σ → Nat)
        (I : σ → Prop), device.Reads content pos I →
      ∀ (inner : σ) (length sectorSize : Nat) (disk : SectorReader σ), I inner →
        SectorReader.new inner length sectorSize = .ok disk →
        Run.Along (reader (SectorReader.reader device)).after (MemoFresh SectorReader.position)
          calls (new disk base size) →
        Run.Along (reader (SectorReader.reader device)).after
          (ReadRight (SectorReader.reader device) content) calls (new disk base size)) ∧
    (∀ (σ : Type) (member : ReadSeek IoError σ) (contents : Nat → Nat → UInt8) (pos : σ → Nat)
        (I : Nat → σ → Prop), (∀ i, member.Reads (contents i) pos (I i)) →
      ∀ (devices : DeviceSet σ) (layout : RawVolumeLayout) (volume : AssembledVolume σ),
        (∀ i m, devices.intoMembers[i]? = some m → I i m.reader) →
        assembleRawVolume devices layout = .ok volume →
        AssembledVolume.ReplicasAgree contents volume.kind volume.length →
        Run.Along (reader (AssembledVolume.reader member)).after
          (MemoFresh AssembledVolume.position) calls (new volume base size) →
        Run.Along (reader (AssembledVolume.reader member)).after
          (ReadRight (AssembledVolume.reader member)
            (AssembledVolume.content contents volume.kind volume.lengths)) calls
          (new volume base size)) := by
  constructor
  · intro σ device content pos I hdev inner length sectorSize disk hinner hnew hfresh
    exact along_readRight (SectorReader.reads hdev) (SectorReader.inv_new hnew hinner) hfresh
  · intro σ member contents pos I hdev devices layout volume hmembers hnew hagree hfresh
    exact along_readRight (AssembledVolume.reads hdev hagree)
      (AssembledVolume.inv_assemble hnew hmembers) hfresh

/-- A sector reader with sectors of four bytes. -/
def sectorsOfFour : SectorReader FlakyState :=
  { inner := ⟨0, 0⟩, length := 32, position := 0, sectorSize := 4, sector := Bytes.zeros 4,
    cachedSector := none }

/-- Two flaky disks, one behind the other. -/
def twoDisks : DeviceSet FlakyState where
  primary := { reader := ⟨0, 0⟩, length := 32, sectorSize := 4 }
  additional := [{ reader := ⟨0, 0⟩, length := 32, sectorSize := 4 }]

/-- The volume that the two disks make. -/
def joinedDisks : AssembledVolume FlakyState :=
  { kind := .linear, members := twoDisks.intoMembers, position := 0, length := 64, sectorSize := 4 }

theorem reads_disk_along_flaky :
    Run.Along (reader (SectorReader.reader FlakyDisk.second.device)).after
        (ReadRight (SectorReader.reader FlakyDisk.second.device) FlakyDisk.second.content)
        [.read 3, .read 2, .seek (.start 16), .read 7] (new sectorsOfFour 4 24) ∧
    Run.Along (reader (AssembledVolume.reader FlakyDisk.second.device.toReadSeek)).after
        (ReadRight (AssembledVolume.reader FlakyDisk.second.device.toReadSeek)
          (AssembledVolume.content (fun _ => FlakyDisk.second.content) .linear [32, 32]))
        [.read 3, .read 2, .seek (.start 22), .read 7, .read 1] (new joinedDisks 4 24) :=
  ⟨(reads_disk_along 4 24 _).1 _ _ _ _ _ FlakyDisk.second.reads _ 32 4 sectorsOfFour trivial
      rfl (by decide +kernel),
    (reads_disk_along 4 24 _).2 _ _ (fun _ => FlakyDisk.second.content) _ (fun _ _ => True)
      (fun _ => FlakyDisk.second.reads.toReads) twoDisks .linear joinedDisks (fun _ _ _ => trivial)
      rfl (fun h => by cases h) (by decide +kernel)⟩

/-- A read at 16 fails behind its seek; the read at 4, where the first read had left the inner
    reader, then returns the bytes at 16. -/
theorem misplaced_read_flaky : SectorReader.new ⟨0, 0⟩ 32 4 = .ok sectorsOfFour ∧
    ¬ Run.Along (reader (SectorReader.reader FlakyDisk.second.device)).after
        (ReadRight (SectorReader.reader FlakyDisk.second.device) FlakyDisk.second.content)
        [.read 4, .seek (.start 16), .read 4, .seek (.start 4), .read 4]
        (new sectorsOfFour 0 32) := by
  refine ⟨rfl, ?_⟩
  rintro ⟨-, -, -, -, hread, -⟩
  have hbytes := hread [16, 17, 18, 19] _ rfl
  exact absurd hbytes (by decide)

end PartitionReader

end Fsmnt.Device
