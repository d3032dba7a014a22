import Fsmnt.ForStd.ReadContent
import Fsmnt.ForStd.Run
import Fsmnt.Native.ParserCore.BlockCache

/-!
# The block cache returns the bytes of the image

The block that is said to be cached is the one of the image, after every call and also after one
that failed, because the cache is invalidated before it is filled.
-/

namespace Fsmnt.ParserCore.BlockCache

open Bytes EStateM

variable {ε σ : Type} {fs : BlockReader ε σ} {image : ByteImage} {pos : σ → Nat} {D : σ → Prop}
  {total : Prop} {invalidInput : ε} {blockSize : Nat} {s : Attached σ BlockCache}

/-- The cache holds the block of the image that it names. -/
structure Inv (image : ByteImage) (D : σ → Prop) (size : Nat) (s : Attached σ BlockCache) :
    Prop where
  fs : D s.fs
  blockSize : s.value.blockSize = size
  truthful : ∀ start, s.value.start = some start →
    s.value.bytes = Bytes.window image.content start size

theorem inv_new {d : σ} (hd : D d) : Inv image D blockSize ⟨d, new blockSize⟩ where
  fs := hd
  blockSize := rfl
  truthful := by rintro start ⟨⟩

section

variable (hfs : fs.Provides image pos D total)

include hfs

/-- One block. With a device that serves the image it fails only behind the end. -/
theorem post_readBlock (h : Inv image D blockSize s) (start : Nat) : Post (readBlock fs start) s
      (fun bs t => Inv image D blockSize t ∧ bs = window image.content start blockSize)
      (fun _ t => Inv image D blockSize t ∧ (total → image.length < start + blockSize)) := by
  simp only [readBlock, post_bind, post_get, post_ite, post_pure, post_modify, Attached.onFs,
    post_zoom]
  refine ⟨fun hhit => ⟨h, h.truthful start hhit⟩, fun _ => ?_⟩
  -- from here on nothing is said to be cached, until the block has been read
  have hempty : ∀ d, D d → Inv image D blockSize ⟨d, { s.value with start := none }⟩ :=
    fun d hd => ⟨hd, h.blockSize, by rintro start ⟨⟩⟩
  apply (hfs.post_seek h.fs start).mono
  · rintro _ d ⟨hd, rfl⟩
    rw [h.blockSize]
    apply (hfs.post_readExact hd blockSize).mono
    · rintro bs d' ⟨hd', rfl, -⟩
      refine ⟨⟨hd', h.blockSize, ?_⟩, rfl⟩
      rintro _ ⟨⟩
      rfl
    · rintro _ d' ⟨hd', hlt⟩
      exact ⟨hempty d' hd', hlt⟩
  · rintro _ d ⟨hd, hnot⟩
    exact ⟨hempty d hd, fun htotal => absurd htotal hnot⟩

/-- The blocks of a range are in the image. -/
def BlocksInside (image : ByteImage) (blockSize offset n : Nat) : Prop :=
  ∀ q, offset ≤ q → q < offset + n → q < 2 ^ 64 ∧
    q / blockSize * blockSize + blockSize ≤ image.length

theorem post_readBlocks (hsize : 0 < blockSize) (passes : Nat) {position remaining : Nat}
    {s : Attached σ BlockCache} (hle : remaining ≤ passes) (hs : Inv image D blockSize s) :
    Post (readBlocks fs invalidInput blockSize passes position remaining) s
      (fun bs t => Inv image D blockSize t ∧ bs = window image.content position remaining)
      (fun _ t => Inv image D blockSize t ∧
        (total → ¬ BlocksInside image blockSize position remaining)) := by
  induction passes generalizing position remaining s with
  | zero =>
    rw [Nat.le_zero.mp hle]
    exact ⟨hs, rfl⟩
  | succ passes ih =>
    simp only [readBlocks, post_ite, post_bind, post_pure, post_throw]
    refine ⟨fun hzero => ⟨hs, by rw [hzero]; rfl⟩, fun hzero => ⟨fun hbig => ⟨hs, ?_⟩, fun _ => ?_⟩⟩
    · intro _ hinside
      have hlt := (hinside position (Nat.le_refl _) (by omega)).1
      omega
    have hmod : position / blockSize * blockSize + position % blockSize = position := by
      rw [Nat.mul_comm]
      exact Nat.div_add_mod position blockSize
    have hlt := Nat.mod_lt position hsize
    apply (post_readBlock hfs hs _).mono
    · rintro block t ⟨ht, rfl⟩
      -- the offset in the block, named so that the arithmetic below is linear
      generalize position / blockSize * blockSize = start at hmod ⊢
      apply (ih (by omega) ht).mono
      · rintro rest u ⟨hu, rfl⟩
        refine ⟨hu, ?_⟩
        rw [slice_window (by omega), show start + (position - start) = position by omega,
          window_append]
        congr 1
        omega
      · rintro e u ⟨hu, hnot⟩
        refine ⟨hu, fun htotal hinside => hnot htotal fun q hq hq' => hinside q ?_ ?_⟩
        · omega
        · omega
    · rintro e t ⟨ht, hlen⟩
      refine ⟨ht, fun htotal hinside => ?_⟩
      have hblock := (hinside position (Nat.le_refl _) (by omega)).2
      have hshort := hlen htotal
      omega

/-- `read_exact_at` returns the bytes of the image, whatever was cached. -/
theorem post_readExactAt (hsize : 0 < blockSize) (h : Inv image D blockSize s) (offset n : Nat) :
    Post (readExactAt fs invalidInput offset n) s
      (fun bs t => Inv image D blockSize t ∧ bs = window image.content offset n)
      (fun _ t => Inv image D blockSize t ∧ (total → ¬ BlocksInside image blockSize offset n)) := by
  simp only [readExactAt, post_bind, post_get, h.blockSize]
  exact post_readBlocks hfs hsize n (Nat.le_refl n) h

end

/-- The state after a `read_exact_at` of `call.2` bytes at `call.1`. -/
def after (fs : BlockReader ε σ) (invalidInput : ε) (s : Attached σ BlockCache) (call : Nat × Nat) :
    Attached σ BlockCache :=
  (readExactAt fs invalidInput call.1 call.2 s).state

/-- A call that succeeds returns the bytes of the image, and over a device that serves the image one
    fails only when a block it needs is not there. -/
def CallRight (fs : BlockReader ε σ) (invalidInput : ε) (image : ByteImage) (total : Prop)
    (blockSize : Nat) (s : Attached σ BlockCache) (call : Nat × Nat) : Prop :=
  Post (readExactAt fs invalidInput call.1 call.2) s
    (fun bs _ => bs = window image.content call.1 call.2)
    (fun _ _ => total → ¬ BlocksInside image blockSize call.1 call.2)

/-- Every call of a run is right, whatever was cached before it and whatever failed. -/
theorem cached_reads_right_along (hfs : fs.ReadsImage image pos D)
    (hserves : total → fs.ServesImage image pos D) (hsize : 0 < blockSize) {d : σ} (hd : D d)
    (calls : List (Nat × Nat)) :
    Run.Along (after fs invalidInput) (CallRight fs invalidInput image total blockSize) calls
      ⟨d, new blockSize⟩ := by
  refine Run.along_of_mem (I := Inv image D blockSize) (fun call _ s hs => ?_) (inv_new hd)
  have hpost : Post (readExactAt fs invalidInput call.1 call.2) s _ _ :=
    post_readExactAt ⟨hfs, hserves⟩ hsize hs call.1 call.2
  exact ⟨hpost.mono (fun _ _ h => h.2) fun _ _ h => h.2,
    (hpost.mono (fun _ _ h => h.1) fun _ _ h => h.1).state⟩

/-- A read over two blocks, one that fails behind the end, and one from the start. -/
theorem cached_reads_right_along_counting :
    Run.Along (after (ByteImage.reader ⟨UInt8.ofNat, 24⟩ ()) ())
      (CallRight (ByteImage.reader ⟨UInt8.ofNat, 24⟩ ()) () ⟨UInt8.ofNat, 24⟩ True 8)
      [(3, 9), (20, 9), (0, 4)] ⟨0, new 8⟩ :=
  have hserves := ByteImage.reader_serves ⟨UInt8.ofNat, 24⟩ ()
  cached_reads_right_along hserves.toReadsImage (fun _ => hserves) (by decide) trivial _

end Fsmnt.ParserCore.BlockCache
