import Fsmnt.Native.FsNtfs.Wof
import Fsmnt.Spec.FsNtfs.UnitCache

/-!
# Values of the overlay filter and their history

The chunks are in memory, so that only a decoder that fails can make the tag of the buffered chunk
wrong, or a change of the recovery mode.
-/

namespace Fsmnt.FsNtfs.WofValue

open EStateM

variable {codec : NtAlgorithm → Codec} {made s t : WofValue} {n : Nat}

/-- The value without its position and without what is buffered. -/
def emptied (value : WofValue) : WofValue :=
  { value with streamPosition := 0, decompressedBuffer := [], bufferedChunkIndex := none }

/-- The decoder does not fail on the chunk. -/
def Intact (codec : NtAlgorithm → Codec) (value : WofValue) (chunkIndex : Nat) : Prop :=
  (value.decodeChunk codec chunkIndex).1 = none

/-- The chunk, if the decoder does not fail on it. -/
def idealChunk (codec : NtAlgorithm → Codec) (value : WofValue) (chunkIndex : Nat) : Option Bytes :=
  match value.decodeChunk codec chunkIndex with
  | (some _, _) => none
  | (none, buffer) => some buffer

/-- A chunk with content decodes. -/
theorem intact_of_idealChunk {value : WofValue} {k : Nat} {b : Bytes}
    (h : idealChunk codec value k = some b) : Intact codec value k := by
  unfold idealChunk at h
  split at h
  · cases h
  · rename_i heq
    rw [Intact, heq]

/-- The parameters are those of `value`, and the buffer holds the chunk that the tag names. -/
structure Inv (codec : NtAlgorithm → Codec) (value t : WofValue) : Prop where
  params : t.emptied = value.emptied
  truthful : ∀ k, t.bufferedChunkIndex = some k →
    idealChunk codec value k = some t.decompressedBuffer

section

variable (h : t.emptied = s.emptied) (k : Nat)

include h

theorem decodeChunk_eq : t.decodeChunk codec k = s.decodeChunk codec k := by
  have hdecode : t.emptied.decodeChunk codec k = s.emptied.decodeChunk codec k := by rw [h]
  exact hdecode

theorem chunkSize_eq : t.chunkSize = s.chunkSize := by
  have hsize := congrArg WofValue.chunkSize h
  exact hsize

theorem idealChunk_eq : idealChunk codec t k = idealChunk codec s k := by
  rw [idealChunk, idealChunk, decodeChunk_eq h]

theorem decompressedChunkSize_eq :
    t.decompressedChunkSize k = s.decompressedChunkSize k := by
  have hsize : t.emptied.decompressedChunkSize k = s.emptied.decompressedChunkSize k := by rw [h]
  exact hsize

end

/-- One fill. -/
theorem post_ensureChunkBuffered (h : Inv codec s t) {position : Nat}
    (hsafe : Intact codec s (position / s.chunkSize) ∨ t.bufferedChunkIndex = none) :
    Post (ensureChunkBuffered codec position) t
      (fun _ u => Inv codec s u ∧ idealChunk codec s (position / s.chunkSize) =
        some u.decompressedBuffer)
      (fun _ u => Inv codec s u ∧ idealChunk codec s (position / s.chunkSize) = none) := by
  have htruthful := h.truthful (position / s.chunkSize)
  rw [Intact, ← decodeChunk_eq h.params, ← chunkSize_eq h.params] at hsafe
  rw [← idealChunk_eq h.params, ← chunkSize_eq h.params] at htruthful ⊢
  simp only [ensureChunkBuffered, post_bind, post_get, post_ite, post_pure]
  refine ⟨fun hhit => ⟨h, htruthful hhit⟩, fun _ => ?_⟩
  cases hdecode : t.decodeChunk codec (position / t.chunkSize) with
  | mk error buffer =>
    cases error with
    | none =>
      have hideal : idealChunk codec t (position / t.chunkSize) = some buffer := by
        rw [idealChunk, hdecode]
      simp only [post_set]
      refine ⟨⟨h.params, ?_⟩, hideal⟩
      rintro _ ⟨⟩
      rw [← idealChunk_eq h.params]
      exact hideal
    | some e =>
      -- the chunk is not intact, so there was no tag, and there still is none
      have htag : t.bufferedChunkIndex = none := by
        obtain hintact | htag := hsafe
        · rw [hdecode] at hintact
          cases hintact
        · exact htag
      refine ⟨⟨h.params, fun k hk => ?_⟩, by rw [idealChunk, hdecode]⟩
      simp only [htag] at hk
      cases hk

/-- How many bytes a read returns. -/
def available (value : WofValue) (n : Nat) : Nat :=
  min n (value.uncompressedSize - value.streamPosition)

/-- A read touches no chunk on which the decoder fails, apart from the first one if nothing is
    buffered. -/
def FillSafe (codec : NtAlgorithm → Codec) (value : WofValue) (n : Nat) : Prop :=
  ∀ q, value.streamPosition ≤ q → q < value.streamPosition + n →
    Intact codec value (q / value.chunkSize) ∨
      q / value.chunkSize = value.streamPosition / value.chunkSize ∧ value.bufferedChunkIndex = none

/-- The bytes of the chunks at the position. -/
def idealBytes (codec : NtAlgorithm → Codec) (value : WofValue) (n : Nat) : Option Bytes :=
  idealRead (idealChunk codec value)
    (fun q _ => value.decompressedChunkSize (q / value.chunkSize)) value.chunkSize n
    value.streamPosition n

/-- A read gives the ideal bytes, or fails where there are none. -/
theorem post_read (h : Inv codec s s)
    (hsafe : FillSafe codec s (s.available n) ∨ idealBytes codec s (s.available n) ≠ none) :
    Post (read codec n) s (fun bs t => Inv codec s t ∧ idealBytes codec s (s.available n) = some bs)
      (fun _ t => Inv codec s t ∧ (True → idealBytes codec s (s.available n) = none)) := by
  refine post_readUnits (I := Inv codec s) bufferedChunkIndex ?_ ?_ ?_ intact_of_idealChunk _ h
    hsafe
  · intro q t ht hq
    exact (post_ensureChunkBuffered ht hq).mono (fun _ _ hu => hu) fun _ _ hu =>
      ⟨hu.1, fun _ => hu.2⟩
  · intro q t ht
    rw [chunkSize_eq ht.params, decompressedChunkSize_eq ht.params]
  · intro k t ht
    exact ⟨ht.params, ht.truthful⟩

/-- What a call needs: a read is safe to fill, and a change of mode does not change the chunk that
    is buffered. -/
def CallSafe (codec : NtAlgorithm → Codec) (s : WofValue) : ValueCall → Prop
  | .io (.read n) => FillSafe codec s (s.available n)
  | .io (.seek _) => True
  | .setRecoveryMode mode => ∀ k, s.bufferedChunkIndex = some k →
    idealChunk codec (setRecoveryMode mode s) k = idealChunk codec s k

/-- The value that was made, at the position and in the mode of `s`. -/
def freshAt (made s : WofValue) : WofValue :=
  { made with streamPosition := s.streamPosition, recoveryMode := s.recoveryMode }

/-- A read that succeeds returns what the value returned when it had just been made. -/
def SameAsFresh (codec : NtAlgorithm → Codec) (made s : WofValue) : ValueCall → Prop
  | .io (.read n) => ∀ bs t, read codec n s = .ok bs t →
    ∃ u, read codec n (freshAt made s) = .ok bs u
  | _ => True

/-- A value that has just been made has nothing buffered. -/
theorem bufferedChunkIndex_of_new {data : Bytes} {size : Nat} {algorithm : WofAlgorithm}
    {mode : CompressionRecoveryMode} (h : new data size algorithm mode = .ok made) :
    made.bufferedChunkIndex = none := by
  simp only [new] at h
  generalize (if size + (algorithm.chunkSize - 1) < 2 ^ 64 then
    (size + (algorithm.chunkSize - 1)) / algorithm.chunkSize else 0) = numChunks at h
  generalize (if size < 0x100000000 then 4 else 8) = entrySize at h
  split at h
  · cases h
    rfl
  split at h
  · cases h
  split at h
  · cases h
  split at h
  · cases h
  split at h
  · cases h
  · cases h
    rfl

/-- What holds along a run from `made`. -/
structure RunInv (codec : NtAlgorithm → Codec) (made s : WofValue) : Prop where
  params : s.emptied = (freshAt made s).emptied
  self : Inv codec s s

/-- Reading from the position on does not look at what is buffered. -/
theorem read_fresh (hmade : made.bufferedChunkIndex = none) (h : RunInv codec made s) {bs : Bytes}
    (hbs : idealBytes codec s (s.available n) = some bs) :
    ∃ u, read codec n (freshAt made s) = .ok bs u := by
  have hinv : Inv codec (freshAt made s) (freshAt made s) := by
    refine ⟨rfl, fun k hk => ?_⟩
    rw [show (freshAt made s).bufferedChunkIndex = none from hmade] at hk
    cases hk
  -- the ideal bytes depend on the parameters and the position only
  have heq : { s.emptied with streamPosition := s.streamPosition } =
      { (freshAt made s).emptied with streamPosition := s.streamPosition } := by rw [h.params]
  have hideal : idealBytes codec { s.emptied with streamPosition := s.streamPosition }
      (available { s.emptied with streamPosition := s.streamPosition } n) = some bs := hbs
  rw [heq] at hideal
  have hpost := post_read (s := freshAt made s) (n := n) hinv
    (.inr fun hnone => Option.some_ne_none bs (hideal.symm.trans hnone))
  obtain ⟨_, u, hu, -, hbs'⟩ := (hpost.mono (fun _ _ h => h) fun _ _ h => by
    cases (h.2 trivial).symm.trans hideal).exists_ok
  cases hbs'.symm.trans hideal
  exact ⟨u, hu⟩

theorem Inv.self (h : Inv codec s t) : Inv codec t t := by
  refine ⟨rfl, fun k hk => ?_⟩
  rw [idealChunk_eq h.params, h.truthful k hk]

theorem Inv.runInv (h : Inv codec s t) (hs : RunInv codec made s) : RunInv codec made t where
  params := by
    have hmode : t.recoveryMode = s.recoveryMode := by
      have hmode := congrArg WofValue.recoveryMode h.params
      exact hmode
    rw [h.params, hs.params]
    simp only [emptied, freshAt, hmode]
  self := h.self

/-- One call. -/
theorem sameAsFresh_step (hmade : made.bufferedChunkIndex = none) (s : WofValue) (call : ValueCall)
    (h : RunInv codec made s) (hcall : CallSafe codec s call) :
    SameAsFresh codec made s call ∧ RunInv codec made (after codec s call) := by
  match call with
  | .io (.read n) =>
    have hpost := post_read h.self (.inl hcall)
    constructor
    · intro bs t hrun
      exact read_fresh hmade h (hpost.of_ok hrun).2
    · exact (hpost.mono (fun _ _ ht => ht.1.runInv h) fun _ _ ht => ht.1.runInv h).state
  | .io (.seek position) =>
    refine ⟨trivial, ?_⟩
    show RunInv codec made (seek position s).state
    apply Post.state
    simp only [seek, post_bind, post_get]
    cases seekContiguous s.streamPosition s.uncompressedSize position with
    | error e => exact h
    | ok q => exact ⟨h.params, rfl, h.self.truthful⟩
  | .setRecoveryMode mode =>
    refine ⟨trivial, ?_, rfl, fun k hk => ?_⟩
    · have hparams : setRecoveryMode mode s.emptied =
          setRecoveryMode mode (freshAt made s).emptied := by rw [h.params]
      exact hparams
    · exact (hcall k hk).trans (h.self.truthful k hk)

end Fsmnt.FsNtfs.WofValue
