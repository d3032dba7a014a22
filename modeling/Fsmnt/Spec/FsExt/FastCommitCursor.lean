import Fsmnt.Native.FsExt.FastCommitParse

/-!
# The cursor as an offset

All blocks of a fast-commit region have the same size, so a cursor is an offset into the
concatenated blocks. Reading takes a slice and moves the offset on, and skipping a block
rounds it up.
-/

namespace Fsmnt.FsExt

open Bytes FcRegion List RegionCursor

/-- The bytes of the region. -/
def FcRegion.bytes (region : FcRegion) : Bytes := region.blocks.flatten

/-- The number of bytes of the region. -/
def FcRegion.size (region : FcRegion) : Nat := region.blocks.length * region.blockSize

/-- The offset of the first block after the one that holds offset `p`. -/
def FcRegion.nextBlock (region : FcRegion) (p : Nat) : Nat :=
  if p < region.size then (p / region.blockSize + 1) * region.blockSize else region.size

/-- The cursor stands at offset `p`: inside a block, at the end of one, or past the last. -/
structure RegionCursor.At (region : FcRegion) (c : RegionCursor) (p : Nat) : Prop where
  blocks : c.blocks = region.blocks
  offset : c.relBlock * region.blockSize + c.blockOffset = p
  bound : (c.relBlock < region.blocks.length ∧ c.blockOffset ≤ region.blockSize) ∨
    (c.relBlock = region.blocks.length ∧ c.blockOffset = 0)

variable {region : FcRegion} {c : RegionCursor} {p : Nat}

/-! ### Concatenated blocks -/

/-- A slice inside one block is a slice of the concatenation. -/
private theorem slice_flatten (blocks : List Bytes) (size : Nat)
    (hsize : ∀ b ∈ blocks, b.length = size) (i off len : Nat) (hi : i < blocks.length)
    (hlen : off + len ≤ size) :
    (blocks.getD i []).slice off len = slice blocks.flatten (i * size + off) len := by
  induction blocks generalizing i with
  | nil => simp at hi
  | cons b rest ih =>
    have hb : b.length = size := hsize b (by simp)
    cases i with
    | zero =>
      simp only [getD_cons_zero, flatten_cons, Nat.zero_mul, Nat.zero_add, slice]
      rw [drop_append_of_le_length (by omega),
        take_append_of_le_length (by rw [length_drop]; omega)]
    | succ i =>
      have hrest := ih (fun b hb => hsize b (by simp [hb])) i (by simpa using hi)
      simp only [getD_cons_succ, flatten_cons]
      rw [hrest, Nat.succ_mul]
      simp only [slice]
      rw [show i * size + size + off = b.length + (i * size + off) by omega, drop_length_add_append]

/-- The length of a block of the region. -/
private theorem blockLen_eq (region : FcRegion) (i : Nat) (hi : i < region.blocks.length) :
    blockLen region.blocks i = region.blockSize := by
  simp only [blockLen, getD_eq_getElem?_getD, getElem?_eq_getElem hi]
  exact region.length_block _ (getElem_mem hi)

theorem FcRegion.length_bytes (region : FcRegion) : region.bytes.length = region.size := by
  rw [bytes, length_flatten, map_congr_left region.length_block, map_const', sum_replicate_nat,
    size]

/-- A block lies inside the region. -/
theorem FcRegion.block_le_size {i : Nat} (hi : i < region.blocks.length) :
    i * region.blockSize + region.blockSize ≤ region.size := by
  rw [← Nat.succ_mul]
  exact Nat.mul_le_mul_right _ hi

/-! ### Normalising -/

/-- One step of normalisation is enough, since every block has bytes. -/
private theorem normalizedPosition_eq (h : c.At region p) : c.normalizedPosition =
      if c.relBlock + 1 < region.blocks.length ∧ c.blockOffset ≥ region.blockSize then
        (c.relBlock + 1, 0) else (c.relBlock, c.blockOffset) := by
  have hge := region.blockSize_ge
  have hstop : ∀ fuel i, i < region.blocks.length →
      normalizeFrom region.blocks fuel i 0 = (i, 0) := by
    intro fuel i hi
    cases fuel with
    | zero => rfl
    | succ fuel =>
      have hlen := blockLen_eq region i hi
      simp only [normalizeFrom]
      rw [if_neg (by rw [hlen]; omega)]
  simp only [normalizedPosition, h.blocks]
  cases hn : region.blocks.length with
  | zero => simp [normalizeFrom]
  | succ n =>
    simp only [normalizeFrom]
    by_cases hrel : c.relBlock + 1 < region.blocks.length
    · have hlen := blockLen_eq region c.relBlock (by omega)
      rw [hlen, hn, hstop n (c.relBlock + 1) hrel]
    · rw [if_neg (fun hc => hrel hc.1), if_neg (fun hc => hrel (by omega))]

/-- An offset inside a block, split into block and rest. -/
private theorem div_mod_of_lt (size rel off : Nat) (hoff : off < size) :
    (rel * size + off) / size = rel ∧ (rel * size + off) % size = off := by
  have hpos : 0 < size := by omega
  constructor
  · rw [Nat.mul_comm, Nat.mul_add_div hpos, Nat.div_eq_of_lt hoff, Nat.add_zero]
  · rw [Nat.mul_comm, Nat.mul_add_mod, Nat.mod_eq_of_lt hoff]

section

variable (h : c.At region p) (len : Nat)

include h

/-- Normalising keeps the offset; it leaves the end of a block only for a next one. -/
theorem RegionCursor.At.normalize : c.normalize.At region p ∧
      (p < region.size ↔ c.normalize.relBlock < region.blocks.length ∧
        c.normalize.blockOffset < region.blockSize) := by
  have hge := region.blockSize_ge
  have hoff := h.offset
  have hbound := h.bound
  simp only [RegionCursor.normalize, normalizedPosition_eq h]
  split
  · rename_i hstep
    have hmul := Nat.add_one_mul c.relBlock region.blockSize
    have hle := block_le_size hstep.1
    refine ⟨⟨h.blocks, ?_, .inl ⟨hstep.1, Nat.zero_le _⟩⟩, ?_⟩
    · dsimp only
      omega
    · constructor
      · exact fun _ => ⟨hstep.1, by omega⟩
      · intro _
        omega
  refine ⟨⟨h.blocks, hoff, hbound⟩, fun hp => ?_, fun hin => ?_⟩
  · rcases hbound with ⟨hrel, hle⟩ | ⟨hrel, hzero⟩
    · refine ⟨hrel, ?_⟩
      by_contra hnot
      -- the end of the last block is the end of the region
      have hsize : region.size = c.relBlock * region.blockSize + region.blockSize := by
        rw [size, show region.blocks.length = c.relBlock + 1 by omega, Nat.succ_mul]
      omega
    · rw [size, ← hrel] at hp
      omega
  · have hle := block_le_size (show c.relBlock < _ from hin.1)
    omega

/-- The position before the end of the region. -/
theorem RegionCursor.At.position (hp : p < region.size) :
    c.position = (p / region.blockSize, p % region.blockSize) := by
  obtain ⟨hat, hin⟩ := h.normalize
  obtain ⟨hrel, hoff⟩ := hin.mp hp
  obtain ⟨hdiv, hmod⟩ := div_mod_of_lt _ c.normalize.relBlock _ hoff
  rw [hat.offset] at hdiv hmod
  have hrel' : c.normalizedPosition.1 < c.blocks.length := by rw [h.blocks]; exact hrel
  simp only [RegionCursor.position, if_pos hrel']
  rw [hdiv, hmod]
  rfl

/-- The cursor is at the end exactly when its offset is. -/
theorem RegionCursor.At.atEnd : c.atEnd = true ↔ region.size ≤ p := by
  rw [← Nat.not_lt, h.normalize.2]
  show (decide (c.blocks.length ≤ c.normalize.relBlock) ||
    decide (blockLen c.blocks c.normalize.relBlock ≤ c.normalize.blockOffset)) = true ↔ _
  rw [h.blocks, Bool.or_eq_true, decide_eq_true_eq, decide_eq_true_eq]
  by_cases hrel : c.normalize.relBlock < region.blocks.length
  · rw [blockLen_eq region _ hrel]
    omega
  · omega

/-! ### Reading and skipping -/

/-- The offset of a cursor is at most the size of the region. -/
theorem RegionCursor.At.le : p ≤ region.size := by
  have hoff := h.offset
  rcases h.bound with ⟨hrel, hle⟩ | ⟨hrel, hzero⟩
  · have hblock := block_le_size hrel
    omega
  · rw [size, ← hrel]
    omega

omit h in
/-- The loop of `read_exact_vec`: it completes `out` with the next bytes of the region, if
    there are enough of them. -/
private theorem readLoop_eq (fuel need : Nat) (out : Bytes) (h : c.At region p)
    (hfuel : need ≤ fuel) :
    (p + need ≤ region.size → ∃ c', readLoop (out.length + need) fuel c out =
        some (out ++ region.bytes.slice p need, c') ∧ c'.At region (p + need)) ∧
    (region.size < p + need → readLoop (out.length + need) fuel c out = none) := by
  have hple := h.le
  induction fuel generalizing c p out need with
  | zero =>
    obtain rfl : need = 0 := by omega
    exact ⟨fun _ => ⟨c.normalize, by simp [readLoop, slice], h.normalize.1⟩, fun hlt => by omega⟩
  | succ fuel ih =>
    obtain ⟨hat, hin⟩ := h.normalize
    rcases Nat.eq_zero_or_pos need with rfl | hneed
    · exact ⟨fun _ => ⟨c.normalize, by simp [readLoop, slice], hat⟩, fun hlt => by omega⟩
    have hblocks : c.normalize.blocks = region.blocks := hat.blocks
    simp only [readLoop, if_pos (show out.length < out.length + need by omega),
      Nat.add_sub_cancel_left, hblocks]
    by_cases hend : region.size ≤ p
    · -- at the end of the region there is nothing to take
      refine ⟨fun hfit => by omega, fun _ => ?_⟩
      split
      · rfl
      rename_i hrel
      have hlen : (region.blocks.getD c.normalize.relBlock []).length = region.blockSize :=
        blockLen_eq region _ (by omega)
      rw [if_pos (by omega)]
    -- inside a block the loop takes what it has
    obtain ⟨hrel, hoff⟩ := hin.mp (by omega)
    have hlen : (region.blocks.getD c.normalize.relBlock []).length = region.blockSize :=
      blockLen_eq region _ hrel
    have hinside := block_le_size hrel
    have hoffset := hat.offset
    rw [if_neg (by omega), hlen, if_neg (by omega)]
    generalize htake : min (region.blockSize - c.normalize.blockOffset) need = take
    rw [slice_flatten region.blocks region.blockSize region.length_block _ _ _ hrel (by omega),
      hoffset]
    have hat' : (mk region.blocks c.normalize.relBlock
        (c.normalize.blockOffset + take)).At region (p + take) :=
      ⟨rfl, by dsimp only; omega, .inl ⟨hrel, by dsimp only; omega⟩⟩
    have hout : (out ++ region.bytes.slice p take).length = out.length + take := by
      rw [length_append, length_slice, region.length_bytes]
      omega
    have hrest := ih (need - take) (out ++ region.bytes.slice p take) hat' (by omega) hat'.le
    rw [hout, append_assoc, slice_append_slice, Nat.add_assoc, Nat.add_assoc,
      show take + (need - take) = need by omega] at hrest
    exact hrest

/-- Reading takes a slice of the region and moves the cursor behind it. -/
theorem RegionCursor.At.read (hfit : p + len ≤ region.size) :
    ∃ c', c.readExactVec len = some (region.bytes.slice p len, c') ∧ c'.At region (p + len) := by
  have hloop := (readLoop_eq len len [] h (Nat.le_refl _)).1 hfit
  simpa [readExactVec] using hloop

/-- Reading past the end of the region fails. -/
theorem RegionCursor.At.read_none (hover : region.size < p + len) :
    c.readExactVec len = none := by
  have hloop := (readLoop_eq len len [] h (Nat.le_refl _)).2 hover
  simpa [readExactVec] using hloop

/-- Skipping a block rounds the offset up to the next one. -/
theorem RegionCursor.At.advance : c.advanceToNextBlock.At region (region.nextBlock p) := by
  obtain ⟨hat, hin⟩ := h.normalize
  have hblocks : c.normalize.blocks = region.blocks := hat.blocks
  have hoffset := hat.offset
  have hple := h.le
  simp only [advanceToNextBlock, hblocks, nextBlock]
  split
  · rename_i hrel
    have hblock := block_le_size hrel
    -- the start of the next block, or the end of the region
    have hstart : (RegionCursor.mk region.blocks (c.normalize.relBlock + 1) 0).At region
        (c.normalize.relBlock * region.blockSize + region.blockSize) :=
      ⟨rfl, Nat.succ_mul _ _, by dsimp only; omega⟩
    split
    · rename_i hp
      rw [← hoffset, (div_mod_of_lt _ _ _ (hin.mp hp).2).1, Nat.succ_mul]
      exact hstart.normalize.1
    · have hbound := hat.bound
      rw [show region.size = c.normalize.relBlock * region.blockSize + region.blockSize by omega]
      exact hstart.normalize.1
  · rename_i hrel
    rw [if_neg (fun hp => hrel (hin.mp hp).1)]
    obtain ⟨hlt, -⟩ | ⟨hall, hzero⟩ := hat.bound
    · exact absurd hlt hrel
    · rw [size, ← hall, show c.normalize.relBlock * region.blockSize = p by omega]
      exact hat

end

/-- The cursor at the start of the region. -/
theorem RegionCursor.new_at (region : FcRegion) : (new region.blocks).At region 0 := by
  refine ⟨rfl, by simp [new], ?_⟩
  simp only [new, and_true]
  cases hn : region.blocks.length with
  | zero => exact .inr rfl
  | succ n => exact .inl ⟨by omega, Nat.zero_le _⟩

end Fsmnt.FsExt
