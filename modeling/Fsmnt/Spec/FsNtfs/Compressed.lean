import Fsmnt.Native.FsNtfs.Owned
import Fsmnt.Spec.FsNtfs.UnitCache

/-!
# Compressed values and their history

The streaming reader and the owned reader of a compressed value, each against a reader that has just
been made. In best effort mode an I/O error is turned into a unit of zeros, which is kept, so there
the device must not fail; and a unit that was decoded in one mode is still served in the other.
-/

namespace Fsmnt.FsNtfs

open EStateM UnitBuffer

variable {σ : Type} {fs : BlockReader NtfsError σ} {codec : Codec} {image : ByteImage}
  {pos : σ → Nat} {I H D : σ → Prop} {total : Prop}

variable {n offset initialized : Nat} {unit : UnitBuffer}

/-- A read of `n` bytes at `position` touches no unit on which the decoder fails, apart from the
    first one if nothing is buffered. -/
def UnitBuffer.FillSafe (codec : Codec) (image : ByteImage) (unit : UnitBuffer)
    (position n : Nat) : Prop :=
  ∀ q, position ≤ q → q < position + n →
    UnitBuffer.Intact codec image unit (q / unit.compressionUnitSize) ∨
      q / unit.compressionUnitSize = position / unit.compressionUnitSize ∧ unit.bufferedUnit = none

/-- The bytes of the units at a position. -/
def UnitBuffer.idealBytes (codec : Codec) (image : ByteImage) (initialized : Nat)
    (unit : UnitBuffer) (position n : Nat) : Option Bytes :=
  idealRead (idealUnit codec image initialized unit) (fun _ buffer => buffer.length)
    unit.compressionUnitSize n position n

namespace CompressedValue

/-- A reader that has just been made for the same value, at the same position. -/
def fresh (value : CompressedValue) : CompressedValue :=
  { fromMap value.unit.map value.unit.compressionUnitSize value.decompressedSize
      value.initializedSize value.unit.recoveryMode with streamPosition := value.streamPosition }

/-- How many bytes a read returns. -/
def available (value : CompressedValue) (n : Nat) : Nat :=
  min n (value.decompressedSize - value.streamPosition)

/-- What holds along a run. -/
structure Inv (codec : Codec) (image : ByteImage) (D : σ → Prop) (s : Attached σ CompressedValue) :
    Prop where
  fs : D s.fs
  initialized_le : s.value.initializedSize ≤ s.value.decompressedSize
  truthful : UnitBuffer.Truthful codec image s.value.initializedSize s.value.unit

/-- What a read leaves alone. -/
structure Loop (codec : Codec) (image : ByteImage) (D : σ → Prop) (value : CompressedValue)
    (t : Attached σ CompressedValue) : Prop where
  unit : UnitBuffer.Inv codec image value.initializedSize D value.unit ⟨t.fs, t.value.unit⟩
  initializedSize : t.value.initializedSize = value.initializedSize
  decompressedSize : t.value.decompressedSize = value.decompressedSize

variable {s : Attached σ CompressedValue}

theorem Inv.loop (h : Inv codec image D s) :
    Loop codec image D s.value s :=
  ⟨⟨h.fs, rfl, h.truthful⟩, rfl, rfl⟩

theorem Loop.inv {s t : Attached σ CompressedValue} (h : Inv codec image D s)
    (ht : Loop codec image D s.value t) : Inv codec image D t where
  fs := ht.unit.fs
  initialized_le := by
    rw [ht.initializedSize, ht.decompressedSize]
    exact h.initialized_le
  truthful := by
    rw [ht.initializedSize]
    exact ht.unit.truthful

/-- A read of a reader with a history. -/
theorem post_read (hfs : fs.Provides image pos D total)
    (hmode : s.value.unit.recoveryMode = .bestEffort → total) (h : Inv codec image D s)
    (hsafe : s.value.unit.FillSafe codec image s.value.streamPosition (s.value.available n) ∨
      s.value.unit.idealBytes codec image s.value.initializedSize s.value.streamPosition
        (s.value.available n) ≠ none) : Post (read fs codec n) s
      (fun bs t => Loop codec image D s.value t ∧ s.value.unit.idealBytes codec image
        s.value.initializedSize s.value.streamPosition (s.value.available n) = some bs)
      (fun _ t => Loop codec image D s.value t ∧ (total → s.value.unit.idealBytes codec image
        s.value.initializedSize s.value.streamPosition (s.value.available n) = none)) := by
  refine post_readUnits (I := Loop codec image D s.value) (·.value.unit.bufferedUnit) ?_ ?_ ?_
    intact_of_idealUnit _ h.loop hsafe
  · intro q t ht hq
    simp only [onUnit, post_zoom]
    refine (post_ensureUnitBuffered hfs hmode ht.unit hq).mono ?_ ?_
    · rintro _ u ⟨hu, hideal⟩
      exact ⟨⟨hu, ht.initializedSize, ht.decompressedSize⟩, hideal⟩
    · rintro _ u ⟨hu, hnone⟩
      exact ⟨⟨hu, ht.initializedSize, ht.decompressedSize⟩, hnone⟩
  · intro q t _
    rfl
  · intro k t ht
    exact { ht with }

/-- What a call needs: a read is safe to fill, in best effort mode from a device that does not fail;
    and a change of mode does not change the unit that is buffered. -/
def CallSafe (codec : Codec) (image : ByteImage) (H : σ → Prop) (s : Attached σ CompressedValue) :
    ValueCall → Prop
  | .io (.read n) =>
    (s.value.unit.recoveryMode = .bestEffort → H s.fs) ∧
      s.value.unit.FillSafe codec image s.value.streamPosition (s.value.available n)
  | .io (.seek _) => True
  | .setRecoveryMode mode => ∀ k, s.value.unit.bufferedUnit = some k →
    idealUnit codec image s.value.initializedSize { s.value.unit with recoveryMode := mode } k =
      idealUnit codec image s.value.initializedSize s.value.unit k

/-- A read that succeeds returns what a reader of the image that has just been made returns. -/
def SameAsFresh (fs : BlockReader NtfsError σ) (codec : Codec) (image : ByteImage)
    (s : Attached σ CompressedValue) : ValueCall → Prop
  | .io (.read n) => ∀ bs t, read fs codec n s = .ok bs t →
    ∃ u, read (image.reader .unexpectedEof) codec n ⟨0, s.value.fresh⟩ = .ok bs u
  | _ => True

theorem read_fresh (h : Inv codec image D s) {bs : Bytes}
    (hbs : s.value.unit.idealBytes codec image s.value.initializedSize s.value.streamPosition
      (s.value.available n) = some bs) :
    ∃ u, read (image.reader .unexpectedEof) codec n ⟨0, s.value.fresh⟩ = .ok bs u := by
  have hinit : s.value.fresh.initializedSize = s.value.initializedSize :=
    Nat.min_eq_left h.initialized_le
  have hideal : s.value.fresh.unit.idealBytes codec image s.value.fresh.initializedSize
      s.value.fresh.streamPosition (s.value.fresh.available n) = some bs := by
    rw [hinit]
    exact hbs
  have hfresh : Inv codec image (fun _ => True) ⟨0, s.value.fresh⟩ :=
    ⟨trivial, Nat.min_le_right _ _, truthful_new _ _ _⟩
  have hserves := image.reader_serves NtfsError.unexpectedEof
  have hpost := post_read (n := n) hserves.provides
    (fun _ => trivial) hfresh (.inr (by simp [hideal]))
  obtain ⟨_, u, hu, -, hbs'⟩ := (hpost.mono (fun _ _ h => h) fun _ _ h => by
    cases (h.2 trivial).symm.trans hideal).exists_ok
  cases hbs'.symm.trans hideal
  exact ⟨u, hu⟩

theorem inv_seek (h : Inv codec image D s) (position : SeekFrom) :
    Inv codec image D (seek position s).state := by
  apply Post.state
  simp only [seek, post_bind, post_get]
  cases seekContiguous s.value.streamPosition s.value.decompressedSize position with
  | error e => exact h
  | ok q => exact { h with }

/-- One call. -/
theorem sameAsFresh_step (hfs : fs.ReadsImage image pos I) (hserves : fs.ServesImage image pos H)
    (hsub : ∀ d, H d → I d) (s : Attached σ CompressedValue) (call : ValueCall)
    (h : Inv codec image I s) (hcall : CallSafe codec image H s call) :
    SameAsFresh fs codec image s call ∧ Inv codec image I (after fs codec s call) := by
  match call with
  | .io (.read n) =>
    obtain ⟨hmode, hsafe⟩ := hcall
    obtain ⟨D, hfsD, hsubD, hd⟩ := hfs.exists_provides hserves hsub h.fs
    have hD : Inv codec image D s := ⟨hd, h.initialized_le, h.truthful⟩
    have hpost := post_read hfsD hmode hD (.inl hsafe)
    have hinv : ∀ t, Loop codec image D s.value t → Inv codec image I t :=
      fun t ht => ⟨hsubD _ ht.unit.fs, (ht.inv hD).initialized_le, (ht.inv hD).truthful⟩
    constructor
    · intro bs t hrun
      exact read_fresh h (hpost.of_ok hrun).2
    · exact (hpost.mono (fun _ t ht => hinv t ht.1) fun _ t ht => hinv t ht.1).state
  | .io (.seek position) => exact ⟨trivial, inv_seek h position⟩
  | .setRecoveryMode mode =>
    refine ⟨trivial, h.fs, h.initialized_le, fun k hk => ?_⟩
    exact (hcall k hk).trans (h.truthful k hk)

end CompressedValue

namespace OwnedValue

/-- What a positioned read of a compressed value needs. -/
def CallSafe (codec : Codec) (image : ByteImage) (H : σ → Prop) (s : Attached σ OwnedValue)
    (call : Nat × Nat) : Prop :=
  ∀ unit, s.value.data = .compressed unit → (unit.recoveryMode = .bestEffort → H s.fs) ∧
      unit.FillSafe codec image call.1 (min call.2 (s.value.dataSize - call.1))

/-- The state after a positioned read. -/
def after (fs : BlockReader NtfsError σ) (codec : Codec) (s : Attached σ OwnedValue)
    (call : Nat × Nat) : Attached σ OwnedValue :=
  (readAt fs codec call.1 call.2 s).state

/-- A positioned read that succeeds returns what a value that has just been made returns. -/
def SameAsFresh (fs : BlockReader NtfsError σ) (codec : Codec) (image : ByteImage)
    (s : Attached σ OwnedValue) (call : Nat × Nat) : Prop :=
  ∀ unit, s.value.data = .compressed unit → ∀ bs t, readAt fs codec call.1 call.2 s = .ok bs t →
    ∃ u, readAt (image.reader .unexpectedEof) codec call.1 call.2
      ⟨0, compressed unit.map unit.compressionUnitSize s.value.dataSize s.value.initializedSize
        unit.recoveryMode⟩ = .ok bs u

/-- What holds along a run. -/
structure Inv (codec : Codec) (image : ByteImage) (D : σ → Prop) (s : Attached σ OwnedValue) :
    Prop where
  fs : D s.fs
  initialized_le : s.value.initializedSize ≤ s.value.dataSize
  truthful : ∃ unit, s.value.data = .compressed unit ∧
    UnitBuffer.Truthful codec image s.value.initializedSize unit

/-- The copy loop of a value with a history. -/
theorem post_readUnitsAt (hfs : fs.Provides image pos D total) {d : σ}
    (hmode : unit.recoveryMode = .bestEffort → total) (hd : D d)
    (htruthful : UnitBuffer.Truthful codec image initialized unit)
    (hsafe : unit.FillSafe codec image offset n ∨
      unit.idealBytes codec image initialized offset n ≠ none) :
    Post (readUnitsAt fs codec offset initialized n unit.compressionUnitSize) ⟨d, unit⟩
      (fun bs t => UnitBuffer.Inv codec image initialized D unit t ∧
        unit.idealBytes codec image initialized offset n = some bs)
      (fun _ t => UnitBuffer.Inv codec image initialized D unit t ∧
        (total → unit.idealBytes codec image initialized offset n = none)) :=
  post_readUnits (I := UnitBuffer.Inv codec image initialized D unit) (·.value.bufferedUnit)
    (fun _ _ ht hq => post_ensureUnitBuffered hfs hmode ht hq) (fun _ _ _ => rfl)
    (fun _ _ ht => ht) intact_of_idealUnit _ ⟨hd, rfl, htruthful⟩ hsafe

/-- A positioned read is the copy loop on the unit, up to the end of the value. -/
theorem post_readAt_compressed {s : Attached σ OwnedValue} (hunit : s.value.data = .compressed unit)
    {Q : Bytes → Attached σ UnitBuffer → Prop} {E : NtfsError → Attached σ UnitBuffer → Prop}
    (hloop : Post (readUnitsAt fs codec offset s.value.initializedSize (min n (s.value.dataSize -
      offset)) unit.compressionUnitSize) ⟨s.fs, unit⟩ Q E)
    (hnil : min n (s.value.dataSize - offset) = 0 → Q [] ⟨s.fs, unit⟩) :
    Post (readAt fs codec offset n) s (fun bs t => ∃ u : Attached σ UnitBuffer, Q bs u ∧
        t = ⟨u.fs, { s.value with data := .compressed u.value }⟩)
      (fun e t => ∃ u : Attached σ UnitBuffer, E e u ∧
        t = ⟨u.fs, { s.value with data := .compressed u.value }⟩) := by
  simp only [readAt, post_bind, post_get, post_ite, post_pure, hunit, onUnit, post_zoom]
  refine ⟨fun hzero => ⟨⟨s.fs, unit⟩, hnil (by omega), ?_⟩, fun _ => ?_⟩
  · rw [← hunit]
  · exact hloop.mono (fun _ u hu => ⟨u, hu, rfl⟩) fun _ u hu => ⟨u, hu, rfl⟩

/-- A value that has just been made returns the bytes of the units. -/
theorem readAt_fresh {size : Nat} (hle : initialized ≤ size) {bs : Bytes}
    (hbs : unit.idealBytes codec image initialized offset (min n (size - offset)) = some bs) :
    ∃ u, readAt (image.reader .unexpectedEof) codec offset n
      ⟨0, compressed unit.map unit.compressionUnitSize size initialized unit.recoveryMode⟩ =
        .ok bs u := by
  let made : Attached Nat OwnedValue :=
    ⟨0, compressed unit.map unit.compressionUnitSize size initialized unit.recoveryMode⟩
  have hinit : made.value.initializedSize = initialized := Nat.min_eq_left hle
  have hideal : unit.emptied.idealBytes codec image made.value.initializedSize offset
      (min n (made.value.dataSize - offset)) = some bs := by
    rw [hinit]
    exact hbs
  have hserves := image.reader_serves NtfsError.unexpectedEof
  have hpost := post_readAt_compressed (s := made) rfl
    (post_readUnitsAt hserves.provides (fun _ => trivial) trivial
      (truthful_new _ _ _) (.inr fun hnone => Option.some_ne_none bs (hideal.symm.trans hnone)))
    fun hzero => by
      rw [hzero]
      exact ⟨⟨trivial, rfl, truthful_new _ _ _⟩, rfl⟩
  obtain ⟨_, u, hu, _, ⟨-, hbs'⟩, -⟩ := (hpost.mono (fun _ _ h => h) fun _ _ ⟨_, h, _⟩ => by
    cases (h.2 trivial).symm.trans hideal).exists_ok
  cases hbs'.symm.trans hideal
  exact ⟨u, hu⟩

/-- One positioned read. -/
theorem sameAsFresh_step (hfs : fs.ReadsImage image pos I) (hserves : fs.ServesImage image pos H)
    (hsub : ∀ d, H d → I d) (s : Attached σ OwnedValue) (call : Nat × Nat)
    (h : Inv codec image I s) (hcall : CallSafe codec image H s call) :
    SameAsFresh fs codec image s call ∧ Inv codec image I (after fs codec s call) := by
  obtain ⟨unit, hunit, htruthful⟩ := h.truthful
  obtain ⟨hmode, hsafe⟩ := hcall unit hunit
  obtain ⟨D, hfsD, hsubD, hd⟩ := hfs.exists_provides hserves hsub h.fs
  have hpost := post_readAt_compressed hunit
    (post_readUnitsAt hfsD hmode hd htruthful (.inl hsafe)) fun hzero => by
      rw [hzero]
      exact ⟨⟨hd, rfl, htruthful⟩, rfl⟩
  have hinv : ∀ u : Attached σ UnitBuffer,
      UnitBuffer.Inv codec image s.value.initializedSize D unit u →
      Inv codec image I ⟨u.fs, { s.value with data := .compressed u.value }⟩ :=
    fun u hu => ⟨hsubD _ hu.fs, h.initialized_le, u.value, rfl, hu.truthful⟩
  constructor
  · intro unit' hunit' bs t hrun
    obtain rfl : unit = unit' := by
      rw [hunit] at hunit'
      exact OwnedValueData.compressed.inj hunit'
    obtain ⟨u, ⟨-, hbs⟩, -⟩ := hpost.of_ok hrun
    exact readAt_fresh h.initialized_le hbs
  · apply Post.state
    apply hpost.mono
    · rintro _ t ⟨u, ⟨hu, -⟩, rfl⟩
      exact hinv u hu
    · rintro _ t ⟨u, ⟨hu, -⟩, rfl⟩
      exact hinv u hu

end OwnedValue

end Fsmnt.FsNtfs
