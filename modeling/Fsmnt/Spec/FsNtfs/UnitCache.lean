import Fsmnt.ForStd.Mirrors
import Fsmnt.Native.FsNtfs.Compressed

/-!
# Readers that keep one unit

A reader keeps one unit in a buffer, with a tag that names it. It depends on nothing but its
position as long as the tag tells the truth: the buffer holds what the image makes of that unit. A
fill overwrites the buffer before it is known whether it succeeds, so the tag stays true only if the
fill succeeds or there was no tag.
-/

namespace Fsmnt.FsNtfs

open EStateM Option

/-! ### The copy loop -/

/-- What the copy loop returns when each unit is what `ideal` says. -/
def idealRead (ideal : Nat → Option Bytes) (unitLength : Nat → Bytes → Nat) (unitSize : Nat) :
    Nat → Nat → Nat → Option Bytes
  | 0, _, _ => some []
  | passes + 1, position, remaining =>
    if remaining = 0 then some []
    else
      (ideal (position / unitSize)).bind fun buffer =>
        let offsetInUnit := position % unitSize
        let toCopy := min (unitLength position buffer - offsetInUnit) remaining
        if buffer.length < offsetInUnit + toCopy then none
        else
          (idealRead ideal unitLength unitSize passes (position + toCopy) (remaining - toCopy)).map
            fun rest => buffer.slice offsetInUnit toCopy ++ rest

section CopyLoop

variable {τ : Type} {ensure : Nat → EStateM NtfsError τ Unit} {buffer : τ → Bytes}
  {len : Nat → τ → Nat} {unitLength : Nat → Bytes → Nat} {unitSize : Nat} {advance : Nat → τ → τ}
  {ideal : Nat → Option Bytes} {I : τ → Prop}

/-- A reader with a history: as long as every unit that is touched can be filled, apart from the
    first one if nothing is buffered, the invariant stays and the bytes are those of `ideal`. With
    `T` it fails only where the ideal read does. -/
theorem post_readUnits {T : Prop} (tag : τ → Option Nat) {Intact : Nat → Prop}
    (hensure : ∀ q t, I t → (Intact (q / unitSize) ∨ tag t = none) → Post (ensure q) t
      (fun _ u => I u ∧ ideal (q / unitSize) = some (buffer u))
      (fun _ u => I u ∧ (T → ideal (q / unitSize) = none)))
    (hlen : ∀ q t, I t → len q t = unitLength q (buffer t))
    (hadvance : ∀ k t, I t → I (advance k t)) (hintact : ∀ {k b}, ideal k = some b → Intact k)
    (passes : Nat) {position remaining : Nat} {s : τ} (hs : I s)
    (hsafe : (∀ q, position ≤ q → q < position + remaining →
        Intact (q / unitSize) ∨ q / unitSize = position / unitSize ∧ tag s = none) ∨
      idealRead ideal unitLength unitSize passes position remaining ≠ none) :
    Post (readUnits ensure buffer len unitSize advance passes position remaining) s
      (fun bs t => I t ∧ idealRead ideal unitLength unitSize passes position remaining = some bs)
      (fun _ t => I t ∧
        (T → idealRead ideal unitLength unitSize passes position remaining = none)) := by
  induction passes generalizing position remaining s with
  | zero =>
    exact ⟨hs, rfl⟩
  | succ passes ih =>
    simp only [readUnits, idealRead, post_ite, post_bind, post_get, post_pure, post_throw,
      post_modify] at hsafe ⊢
    refine ⟨fun hzero => ⟨hs, if_pos hzero⟩, fun hzero => ?_⟩
    rw [if_neg hzero] at hsafe ⊢
    have hfirst : Intact (position / unitSize) ∨ tag s = none := by
      obtain hsafe | hsome := hsafe
      · exact (hsafe position (Nat.le_refl _) (by omega)).imp_right And.right
      · cases hideal : ideal (position / unitSize) with
        | none => exact absurd (by rw [hideal]; rfl) hsome
        | some b => exact .inl (hintact hideal)
    refine (hensure position s hs hfirst).mono ?_ ?_
    · rintro _ t ⟨ht, hideal⟩
      rw [hideal] at hsafe ⊢
      simp only [bind_some, hlen position t ht] at hsafe ⊢
      refine ⟨fun hshort => ⟨ht, fun _ => if_pos hshort⟩, fun hfit => ?_⟩
      rw [if_neg hfit] at hsafe ⊢
      refine (ih (hadvance _ t ht) (hsafe.imp ?_ ?_)).mono ?_ ?_
      · -- the unit that was buffered by this pass is intact, so its exemption is not needed again
        intro hsafe q hq hq'
        obtain h | ⟨h, -⟩ := hsafe q (by omega) (by omega)
        · exact .inl h
        · rw [h]
          exact .inl (hintact hideal)
      · intro hsome hnone
        exact hsome (by rw [hnone]; rfl)
      · rintro bs u ⟨hu, hrest⟩
        exact ⟨hu, by rw [hrest]; rfl⟩
      · rintro _ u ⟨hu, hnone⟩
        exact ⟨hu, fun hT => by rw [hnone hT]; rfl⟩
    · rintro _ u ⟨hu, hnone⟩
      exact ⟨hu, fun hT => by rw [hnone hT]; rfl⟩

end CopyLoop

/-! ### The allocated prefix of a unit -/

namespace DataRunMap

variable {σ : Type} {fs : BlockReader NtfsError σ} {image : ByteImage} {pos : σ → Nat}
  {D : σ → Prop} {total : Prop}

/-- The allocated prefix in the image; none if it cannot be read there. -/
def imagePrefix (map : DataRunMap) (image : ByteImage) (offset capacity : Nat) : Option Bytes :=
  result? (map.readAllocatedPrefixAt (image.reader .unexpectedEof) offset capacity) 0

/-- The segments are read as from the image itself. -/
theorem mirrors_readAllocatedSegments (hfs : fs.Provides image pos D total)
    (segments : List DataRunSegment) (offset capacity) :
    Mirrors D total (readAllocatedSegments fs segments offset capacity)
      (readAllocatedSegments (image.reader .unexpectedEof) segments offset capacity) := by
  induction segments generalizing offset capacity with
  | nil =>
    exact .pure []
  | cons segment segments ih =>
    simp only [readAllocatedSegments]
    split
    · exact .pure []
    split
    · exact .throw _
    split
    · exact .throw _
    split
    · exact .pure []
    split
    · exact .throw _
    · exact (hfs.mirrors _ _ _).bind fun _ => (ih _ _).bind fun _ => .pure _

theorem post_readAllocatedPrefixAt_image (hfs : fs.Provides image pos D total) (map : DataRunMap)
    (offset capacity : Nat) {d : σ} (hd : D d) :
    Post (map.readAllocatedPrefixAt fs offset capacity) d
      (fun bs t => D t ∧ map.imagePrefix image offset capacity = some bs)
      (fun _ t => D t ∧ (total → map.imagePrefix image offset capacity = none)) := by
  have h : Mirrors D total (map.readAllocatedPrefixAt fs offset capacity)
      (map.readAllocatedPrefixAt (image.reader .unexpectedEof) offset capacity) := by
    unfold readAllocatedPrefixAt
    split
    · exact .pure []
    split
    · exact .throw _
    · exact mirrors_readAllocatedSegments hfs _ _ _
  exact h.post hd 0

end DataRunMap

/-! ### The buffered unit -/

namespace UnitBuffer

variable {σ : Type} {fs : BlockReader NtfsError σ} {codec : Codec} {image : ByteImage}
  {pos : σ → Nat} {D : σ → Prop} {initialized k : Nat} {t : Attached σ UnitBuffer} {b : Bytes}

/-- The unit as the image has it; none if a reader that starts with it fails. -/
def idealUnit (codec : Codec) (image : ByteImage) (initialized : Nat) (unit : UnitBuffer)
    (unitIndex : Nat) : Option Bytes :=
  let unitSize := unit.compressionUnitSize
  let unitStart := unitIndex * unitSize
  match unit.map.imagePrefix image unitStart unitSize with
  | none =>
    match unit.recoveryMode with
    | .strict => none
    | .bestEffort => some (enforceInitializedSize initialized unitStart (Bytes.zeros unitSize))
  | some allocated =>
    match decodeUnit codec unit.recoveryMode unitSize allocated with
    | (some _, _) => none
    | (none, buffer) => some (enforceInitializedSize initialized unitStart buffer)

/-- The decoder does not fail on the unit. -/
def Intact (codec : Codec) (image : ByteImage) (unit : UnitBuffer) (unitIndex : Nat) : Prop :=
  ∀ allocated, unit.map.imagePrefix image (unitIndex * unit.compressionUnitSize)
    unit.compressionUnitSize = some allocated →
    (decodeUnit codec unit.recoveryMode unit.compressionUnitSize allocated).1 = none

/-- The parameters of the unit, without what is buffered. -/
def emptied (unit : UnitBuffer) : UnitBuffer :=
  new unit.map unit.compressionUnitSize unit.recoveryMode

/-- The buffer holds the unit that the tag names. -/
def Truthful (codec : Codec) (image : ByteImage) (initialized : Nat) (unit : UnitBuffer) : Prop :=
  ∀ k, unit.bufferedUnit = some k →
    idealUnit codec image initialized unit k = some unit.decompressedBuffer

/-- A new buffer holds nothing. -/
theorem truthful_new (map : DataRunMap) (unitSize : Nat) (mode : CompressionRecoveryMode) :
    Truthful codec image initialized (new map unitSize mode) := by
  rintro k ⟨⟩

theorem intact_emptied (unit : UnitBuffer) (k : Nat) :
    Intact codec image unit.emptied k ↔ Intact codec image unit k := Iff.rfl

/-- A unit with content decodes. -/
theorem intact_of_idealUnit {unit : UnitBuffer}
    (h : idealUnit codec image initialized unit k = some b) : Intact codec image unit k := by
  intro allocated hallocated
  simp only [idealUnit, hallocated] at h
  split at h
  · cases h
  · rename_i heq
    rw [heq]

/-- The parameters are those of `unit`, and the tag is true. -/
structure Inv (codec : Codec) (image : ByteImage) (initialized : Nat) (D : σ → Prop)
    (unit : UnitBuffer) (t : Attached σ UnitBuffer) : Prop where
  fs : D t.fs
  params : t.value.emptied = unit.emptied
  truthful : Truthful codec image initialized t.value

variable {unit : UnitBuffer}

section

variable (h : Inv codec image initialized D unit t)

include h

theorem Inv.idealUnit_eq (k : Nat) :
    idealUnit codec image initialized t.value k = idealUnit codec image initialized unit k := by
  have hsame := congrArg (idealUnit codec image initialized · k) h.params
  exact hsame

theorem Inv.unitSize_eq : t.value.compressionUnitSize = unit.compressionUnitSize := by
  have hsize := congrArg UnitBuffer.compressionUnitSize h.params
  exact hsize

theorem Inv.recoveryMode_eq : t.value.recoveryMode = unit.recoveryMode := by
  have hmode := congrArg UnitBuffer.recoveryMode h.params
  exact hmode

end

/-- A fill that succeeds makes the tag true, whatever it was. -/
theorem Inv.setUnit {d : σ} (hd : D d) (hparams : t.value.emptied = unit.emptied)
    (hb : idealUnit codec image initialized t.value k = some b) :
    Inv codec image initialized D unit (setUnit k b { t with fs := d }) where
  fs := hd
  params := hparams
  truthful := by
    rintro _ ⟨⟩
    exact hb

/-- One fill. When it fails, the tag is still true if the unit is intact or there is no tag; with
    `total` it fails only where the image has no such unit. -/
theorem post_ensureUnitBuffered {total : Prop} (hfs : fs.Provides image pos D total)
    (hmode : unit.recoveryMode = .bestEffort → total)
    (h : Inv codec image initialized D unit t) {position : Nat}
    (hsafe : Intact codec image unit (position / unit.compressionUnitSize) ∨
      t.value.bufferedUnit = none) : Post (ensureUnitBuffered fs codec initialized position) t
      (fun _ u => Inv codec image initialized D unit u ∧
        idealUnit codec image initialized unit (position / unit.compressionUnitSize) =
          some u.value.decompressedBuffer)
      (fun _ u => Inv codec image initialized D unit u ∧
        (total → idealUnit codec image initialized unit (position / unit.compressionUnitSize) =
          none)) := by
  rw [← h.idealUnit_eq, ← h.unitSize_eq]
  rw [← intact_emptied, ← h.params, intact_emptied, ← h.unitSize_eq] at hsafe
  rw [← h.recoveryMode_eq] at hmode
  simp only [ensureUnitBuffered, post_bind, post_get, post_ite, post_pure, post_attempt,
    Attached.onFs, post_zoom]
  refine ⟨fun hhit => ⟨h, h.truthful _ hhit⟩, fun _ => ?_⟩
  refine (DataRunMap.post_readAllocatedPrefixAt_image hfs _ _ _ h.fs).mono ?_ ?_
  · rintro allocated d ⟨hd, hprefix⟩
    cases hdecode : decodeUnit codec t.value.recoveryMode t.value.compressionUnitSize allocated with
    | mk error buffer =>
      cases error with
      | none =>
        have hideal : idealUnit codec image initialized t.value
            (position / t.value.compressionUnitSize) = some (enforceInitializedSize initialized
              (position / t.value.compressionUnitSize * t.value.compressionUnitSize) buffer) := by
          simp only [idealUnit, hprefix, hdecode]
        exact ⟨Inv.setUnit hd h.params hideal, hideal⟩
      | some e =>
        -- the unit is not intact, so there was no tag, and there still is none
        have htag : t.value.bufferedUnit = none := by
          obtain hintact | htag := hsafe
          · have := hintact allocated hprefix
            rw [hdecode] at this
            cases this
          · exact htag
        refine ⟨⟨hd, h.params, fun k hk => ?_⟩, fun _ => ?_⟩
        · simp only [spoilUnit, htag] at hk
          cases hk
        · simp only [idealUnit, hprefix, hdecode]
  · rintro e d ⟨hd, hprefix⟩
    cases hm : t.value.recoveryMode with
    | strict =>
      refine ⟨⟨hd, h.params, h.truthful⟩, fun htotal => ?_⟩
      simp only [idealUnit, hprefix htotal, hm]
    | bestEffort =>
      have hideal : idealUnit codec image initialized t.value
          (position / t.value.compressionUnitSize) = some (enforceInitializedSize initialized
            (position / t.value.compressionUnitSize * t.value.compressionUnitSize)
            (Bytes.zeros t.value.compressionUnitSize)) := by
        simp only [idealUnit, hprefix (hmode hm), hm]
      exact ⟨Inv.setUnit hd h.params hideal, hideal⟩

end UnitBuffer

end Fsmnt.FsNtfs
