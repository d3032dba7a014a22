import Fsmnt.ForStd.EStateM
import Fsmnt.ForStd.TreeMap
import Fsmnt.ForStd.UInt8
import Fsmnt.Native.FsExt.MutatorAlloc
import Mathlib.Data.Finset.Card

/-!
# Bits of a bitmap
-/

namespace Fsmnt.FsExt

open EStateM Finset Mutator

variable {ext : Ext} {bitmap bitmap' : Bytes} {bit units unit group n : Nat} {gdp : GroupDescriptor}
  (alloc : Bool)

theorem bitSet_eq_testBit (bitmap : Bytes) (bit : Nat) :
    bitSet bitmap bit = (bitmap.getD (bit / 8) 0).toNat.testBit (bit % 8) :=
  UInt8.and_mask_bne_zero _ (Nat.mod_lt _ (by decide))

/-- Bits past the end are clear. -/
theorem bitSet_of_length_le (h : bitmap.length ≤ bit / 8) : bitSet bitmap bit = false := by
  rw [bitSet_eq_testBit, List.getD_eq_getElem?_getD, List.getElem?_eq_none h]
  exact Nat.zero_testBit _

theorem bitSet_replicate_zero (n bit : Nat) : bitSet (List.replicate n 0) bit = false := by
  rw [bitSet_eq_testBit, List.getD_eq_getElem?_getD, List.getElem?_replicate]
  split <;> exact Nat.zero_testBit _

@[simp] theorem length_writeBit (bitmap : Bytes) (bit : Nat) (alloc : Bool) :
    (writeBit bitmap bit alloc).length = bitmap.length := List.length_set

/-- Writing a bit inside of the bitmap changes that bit only. -/
theorem bitSet_writeBit (h : bit / 8 < bitmap.length) (j : Nat) :
    bitSet (writeBit bitmap bit alloc) j = if j = bit then alloc else bitSet bitmap j := by
  have hk : bit % 8 < 8 := Nat.mod_lt _ (by decide)
  have hj : j % 8 < 8 := Nat.mod_lt _ (by decide)
  rw [bitSet_eq_testBit, bitSet_eq_testBit, writeBit]
  simp only [List.getD_eq_getElem?_getD, List.getElem?_set]
  by_cases hbyte : bit / 8 = j / 8
  · rw [if_pos hbyte, if_pos h, Option.getD_some, hbyte]
    have hsame : j = bit ↔ bit % 8 = j % 8 := by omega
    cases alloc with
    | true =>
      rw [if_pos rfl, UInt8.toNat_or, UInt8.toNat_one_shiftLeft _ hk, Nat.testBit_or,
        Nat.testBit_two_pow]
      by_cases heq : bit % 8 = j % 8 <;> simp [hsame, heq]
    | false =>
      rw [if_neg (by decide), UInt8.toNat_and, Nat.testBit_and, UInt8.testBit_not_mask _ hk _ hj]
      by_cases heq : bit % 8 = j % 8 <;> simp [hsame, heq]
  · rw [if_neg hbyte, if_neg (by intro heq; rw [heq] at hbyte; exact hbyte rfl)]

/-- One round of `mark_bitmap_bits`. -/
private theorem markBitmapBits_succ_state (bit count : Nat) (bitmap : Bytes) :
    (markBitmapBits alloc bit (count + 1) bitmap).state =
      if bit / 8 ≥ bitmap.length then bitmap
      else if bitSet bitmap bit = alloc then (markBitmapBits alloc (bit + 1) count bitmap).state
      else (markBitmapBits alloc (bit + 1) count (writeBit bitmap bit alloc)).state := by
  show EStateM.Result.state ((if bit / 8 ≥ bitmap.length then _ else _ :
    EStateM MutatorError Bytes Nat) bitmap) = _
  split
  · rfl
  split
  · rfl
  show EStateM.Result.state (EStateM.bind (markBitmapBits alloc (bit + 1) count)
    (fun changed => pure (changed + 1)) (writeBit bitmap bit alloc)) = _
  unfold EStateM.bind
  cases markBitmapBits alloc (bit + 1) count (writeBit bitmap bit alloc) <;> rfl

/-- Marking a run of bits keeps the length and changes the bits of the run that the bitmap
    has, whether the run ends inside of the bitmap or not. -/
theorem bitSet_markBitmapBits (bit count : Nat) (bitmap : Bytes) :
    (markBitmapBits alloc bit count bitmap).state.length = bitmap.length ∧
    ∀ j, bitSet (markBitmapBits alloc bit count bitmap).state j =
      if bit ≤ j ∧ j < bit + count then alloc && decide (j / 8 < bitmap.length)
      else bitSet bitmap j := by
  induction count generalizing bit bitmap with
  | zero => exact ⟨rfl, fun j => by rw [if_neg (by omega)]; rfl⟩
  | succ count ih =>
    rw [markBitmapBits_succ_state]
    split
    · refine ⟨rfl, fun j => ?_⟩
      split
      · rw [bitSet_of_length_le (by omega), decide_eq_false (by omega), Bool.and_false]
      · rfl
    split
    · rename_i hsame
      obtain ⟨hlen, hbits⟩ := ih (bit + 1) bitmap
      refine ⟨hlen, fun j => ?_⟩
      rw [hbits j]
      by_cases hj : j = bit
      · rw [if_neg (by omega), if_pos (by omega), hj, hsame, decide_eq_true (by omega),
          Bool.and_true]
      · simp only [show (bit + 1 ≤ j ∧ j < bit + 1 + count) ↔ (bit ≤ j ∧ j < bit + (count + 1)) by
          omega]
    · obtain ⟨hlen, hbits⟩ := ih (bit + 1) (writeBit bitmap bit alloc)
      rw [length_writeBit] at hlen hbits
      refine ⟨hlen, fun j => ?_⟩
      rw [hbits j, bitSet_writeBit alloc (by omega) j]
      by_cases hj : j = bit
      · rw [if_neg (by omega), if_pos hj, if_pos (by omega), hj, decide_eq_true (by omega),
          Bool.and_true]
      · rw [if_neg hj]
        simp only [show (bit + 1 ≤ j ∧ j < bit + 1 + count) ↔ (bit ≤ j ∧ j < bit + (count + 1)) by
          omega]

/-- A unit that is found free is inside of the bitmap, and its bit is clear. -/
theorem findFreeUnit_eq_some {realUnits : Nat} (h : findFreeUnit bitmap realUnits = some unit) :
    unit < realUnits ∧ unit / 8 < bitmap.length ∧ bitSet bitmap unit = false := by
  have hmem := List.mem_of_find?_eq_some h
  have hfree := List.find?_some h
  simp only [Bool.and_eq_true, decide_eq_true_eq, Bool.not_eq_true'] at hfree
  exact ⟨List.mem_range.mp hmem, hfree⟩

/-! ### Clear bits -/

/-- The clear bits among the first `units` of a bitmap. -/
def clearUnits (bitmap : Bytes) (units : Nat) : Finset Nat :=
  (Finset.range units).filter fun unit => bitSet bitmap unit = false

theorem mem_clearUnits :
    unit ∈ clearUnits bitmap units ↔ unit < units ∧ bitSet bitmap unit = false := by
  rw [clearUnits, mem_filter, mem_range]

theorem card_clearUnits_le (bitmap : Bytes) (units : Nat) :
    (clearUnits bitmap units).card ≤ units :=
  (card_filter_le _ _).trans (card_range units).le

/-- Allocating a free unit. -/
theorem card_clearUnits_alloc (hbyte : bit / 8 < bitmap.length) (hbit : bit < units)
    (hclear : bitSet bitmap bit = false) :
    (clearUnits (writeBit bitmap bit true) units).card + 1 = (clearUnits bitmap units).card := by
  have herase : clearUnits (writeBit bitmap bit true) units =
    (clearUnits bitmap units).erase bit := by
    ext unit
    rw [mem_erase, mem_clearUnits, mem_clearUnits, bitSet_writeBit true hbyte]
    by_cases heq : unit = bit
    · simp [heq]
    · simp [heq]
  rw [herase, card_erase_add_one (mem_clearUnits.mpr ⟨hbit, hclear⟩)]

/-- Freeing a unit that is allocated. -/
theorem card_clearUnits_free (hbyte : bit / 8 < bitmap.length) (hbit : bit < units)
    (hset : bitSet bitmap bit = true) :
    (clearUnits (writeBit bitmap bit false) units).card = (clearUnits bitmap units).card + 1 := by
  have hinsert : clearUnits (writeBit bitmap bit false) units =
    insert bit (clearUnits bitmap units) := by
    ext unit
    rw [mem_insert, mem_clearUnits, mem_clearUnits, bitSet_writeBit false hbyte]
    by_cases heq : unit = bit
    · simp [heq, hbit]
    · simp [heq]
  rw [hinsert, card_insert_of_notMem]
  rw [mem_clearUnits, hset]
  simp

/-- The units that `mark_bitmap_bits` counts are those that change hands. -/
theorem card_clearUnits_markBitmapBits {alloc : Bool} {count : Nat} {changed : Nat}
    (hrange : bit + count ≤ units)
    (h : markBitmapBits alloc bit count bitmap = .ok changed bitmap') :
    if alloc then (clearUnits bitmap' units).card + changed = (clearUnits bitmap units).card
    else (clearUnits bitmap' units).card = (clearUnits bitmap units).card + changed := by
  induction count generalizing bit bitmap changed with
  | zero =>
    cases h
    split <;> rfl
  | succ count ih =>
    rw [markBitmapBits, get_bind_run] at h
    split at h
    · cases h
    split at h
    · exact ih (by omega) h
    rename_i hbit
    obtain ⟨_, t, hset, h⟩ := bind_eq_ok_iff.mp h
    cases hset
    obtain ⟨rest, t, hrest, h⟩ := bind_eq_ok_iff.mp h
    cases h
    have hnext := ih (by omega) hrest
    have hin : bit / 8 < bitmap.length := by omega
    have hlt : bit < units := by omega
    cases alloc with
    | true =>
      have hone := card_clearUnits_alloc hin hlt (by simpa using hbit)
      simp only [if_true] at hnext ⊢
      omega
    | false =>
      have hone := card_clearUnits_free hin hlt (by simpa using hbit)
      simp only [Bool.false_eq_true, if_false] at hnext ⊢
      omega

/-! ### Lazily initialised groups -/

/-- Reserving units sets their bits. -/
theorem bitSet_reserveUnits {units : List Nat} (h : reserveUnits units bitmap = .ok n bitmap')
    (j : Nat) :
    bitSet bitmap' j = (decide (j ∈ units) || bitSet bitmap j) := by
  induction units generalizing bitmap with
  | nil =>
    cases h
    simp
  | cons unit rest ih =>
    obtain ⟨_, t, hmark, hrest⟩ := bind_eq_ok_iff.mp h
    obtain ⟨-, hbits⟩ := bitSet_markBitmapBits true unit 1 bitmap
    have hin : unit / 8 < bitmap.length := by
      by_contra hout
      rw [markBitmapBits, get_bind_run, if_pos (by omega)] at hmark
      cases hmark
    rw [ih hrest, show t = (markBitmapBits true unit 1 bitmap).state by rw [hmark]; rfl, hbits j]
    by_cases heq : j = unit
    · rw [heq, decide_eq_true hin]
      simp
    · rw [if_neg (by omega)]
      simp [heq]

theorem div_lt_divCeil {a b ratio : Nat} (h : a < b) (hratio : 0 < ratio) :
    a / ratio < divCeil b ratio := by
  rw [divCeil, Nat.div_lt_iff_lt_mul hratio]
  have hdiv := Nat.div_add_mod (b + ratio - 1) ratio
  have hmod := Nat.mod_lt (b + ratio - 1) hratio
  rw [Nat.mul_comm] at hdiv
  omega

/-- A block range of a group covers units of the group only. -/
theorem blockRangeUnits_lt {start len : Nat} (h : unit ∈ blockRangeUnits ext group start len) :
    unit < allocationUnitsInGroup ext group := by
  have hratio : 0 < max ext.blocksPerCluster 1 := by omega
  have hloop : ∀ fuel block, groupFirstBlock ext group ≤ block →
      ∀ last ≤ groupFirstBlock ext group +
        min (ext.blocksCount - groupFirstBlock ext group) ext.blocksPerGroup,
      ∀ u ∈ reserveLoop (max ext.blocksPerCluster 1) (groupFirstBlock ext group) fuel block last,
        u < allocationUnitsInGroup ext group := by
    intro fuel
    induction fuel with
    | zero => exact fun _ _ _ _ u hu => nomatch hu
    | succ fuel ih =>
      intro block hblock last hlast u hu
      rw [reserveLoop] at hu
      split at hu
      · rename_i hlt
        rcases List.mem_cons.mp hu with rfl | hu
        · unfold allocationUnitsInGroup
          rw [if_neg (by omega)]
          exact div_lt_divCeil (by omega) hratio
        · exact ih _ (by omega) last hlast u hu
      · cases hu
  exact hloop _ _ (by omega) _ (by omega) unit h

theorem reservedMetadataUnits_lt (h : unit ∈ (reservedMetadataUnits ext group gdp).toList) :
    unit < allocationUnitsInGroup ext group := by
  rw [Std.TreeSet.mem_toList, reservedMetadataUnits, Std.TreeSet.mem_ofList] at h
  simp only [List.contains_eq_mem, List.mem_append, List.mem_flatMap, decide_eq_true_eq] at h
  rcases h with (((h | ⟨block, _, h⟩) | h) | h) | h
  · split at h
    · exact blockRangeUnits_lt h
    · cases h
  all_goals exact blockRangeUnits_lt h

/-- The free units of a group that was lazily initialised. -/
theorem card_clearUnits_initialBitmap (h : initialBitmap ext group gdp bitmap = .ok n bitmap') :
    (clearUnits bitmap' (allocationUnitsInGroup ext group)).card =
      freeClustersAfterInit ext group gdp := by
  unfold initialBitmap at h
  rw [modify_bind_run] at h
  obtain ⟨_, t, hreserve, h⟩ := bind_eq_ok_iff.mp h
  rw [get_bind_run] at h
  have hclear : clearUnits bitmap' (allocationUnitsInGroup ext group) =
      range (allocationUnitsInGroup ext group) \
        (reservedMetadataUnits ext group gdp).toList.toFinset := by
    ext unit
    rw [mem_clearUnits, mem_sdiff, mem_range]
    refine and_congr_right fun hunit => ?_
    have hbits := (bitSet_markBitmapBits true (allocationUnitsInGroup ext group)
      (t.length * 8 - allocationUnitsInGroup ext group) t).2 unit
    rw [h, if_neg (by omega)] at hbits
    rw [show bitSet bitmap' unit = _ from hbits, bitSet_reserveUnits hreserve,
      bitSet_replicate_zero]
    simp
  have hsub : (reservedMetadataUnits ext group gdp).toList.toFinset ⊆
      range (allocationUnitsInGroup ext group) := fun unit hunit =>
    mem_range.mpr (reservedMetadataUnits_lt (List.mem_toFinset.mp hunit))
  rw [hclear, card_sdiff_of_subset hsub, card_range, freeClustersAfterInit,
    List.toFinset_card_of_nodup (Std.TreeSet.nodup_toList _),
    Std.TreeSet.length_toList]

end Fsmnt.FsExt
