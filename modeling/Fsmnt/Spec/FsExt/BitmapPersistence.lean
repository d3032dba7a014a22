import Fsmnt.Spec.FsExt.FastCommitHistory

/-!
# Bitmap updates across transactions

A bit of a block bitmap that is set in the composed overlay stays set, whatever transactions
follow, until one frees the unit: if the group is not lazily initialised. A group whose
descriptor had `BLOCK_UNINIT` when the filesystem was opened is initialised again by every
mutator that touches it.
-/

namespace Fsmnt.FsExt

open Bytes List

section Persist

variable {ext : Ext} {fs : FsReader} {group unit : Nat} {gdp : GroupDescriptor}

/-- The event frees a unit of a group. -/
def MutatorEvent.Frees (group unit : Nat) : MutatorEvent → Prop
  | .mark g bitStart count alloc =>
    alloc = false ∧ g = group ∧ bitStart ≤ unit ∧ unit < bitStart + count
  | _ => False

instance (e : MutatorEvent) : Decidable (e.Frees group unit) :=
  match e with
  | .mark _ _ _ _ => inferInstanceAs (Decidable (_ ∧ _ ∧ _ ∧ _))
  | .write _ | .init _ | .free _ _ | .handOut _ | .map _ _ => inferInstanceAs (Decidable False)

/-- A set bit stays set over an event that neither frees nor initialises it. -/
theorem effect_true {e : MutatorEvent} (hunit : unit / 8 < ext.blockSize)
    (hinit : .init group ≠ e) (hfreed : ¬ e.Frees group unit) :
    e.effect ext group gdp unit true = true := by
  cases e with
  | init g => exact if_neg fun hg => hinit (by rw [hg])
  | mark g bitStart count alloc =>
    by_cases hin : g = group ∧ bitStart ≤ unit ∧ unit < bitStart + count
    · refine (if_pos hin).trans ?_
      cases alloc with
      | false => exact absurd ⟨rfl, hin⟩ hfreed
      | true => simpa using hunit
    · exact if_neg hin
  | _ => rfl

/-- A bit that is neither freed nor initialised stays set. -/
theorem replayBit_persists {log : List MutatorEvent} (hunit : unit / 8 < ext.blockSize)
    (hinit : .init group ∉ log) (hfreed : ∀ e ∈ log, ¬ e.Frees group unit) :
    replayBit ext group gdp unit log true = true := by
  induction log with
  | nil => rfl
  | cons e log ih =>
    have hrest : replayBit ext group gdp unit log true = true :=
      ih (fun h => hinit (mem_cons_of_mem _ h)) fun e' he' => hfreed e' (mem_cons_of_mem _ he')
    have hkeep : e.effect ext group gdp unit true = true :=
      effect_true hunit (ne_of_not_mem_cons hinit) (hfreed e mem_cons_self)
    show replayBit ext group gdp unit log (e.effect ext group gdp unit true) = true
    rw [hkeep, hrest]

/-- A set bit lies inside of the bitmap's block. -/
theorem overlayBit_inside {overlay : BlockOverlay}
    (h : overlayBit ext fs overlay gdp unit = true) : unit / 8 < ext.blockSize := by
  unfold overlayBit viewBit at h
  split at h
  · rename_i bitmap hread
    rw [← readBlock_length ext _ hread]
    by_contra hout
    rw [bitSet_of_length_le (by omega)] at h
    cases h
  · cases h

variable [Crc]

/-- In every history that does not write the bitmap's block as something else, and in which
    the group is not lazily initialised or is not touched: a bit that is set before is set
    afterwards, unless its unit was freed. -/
theorem bitmap_bits_persist (ext : Ext) (fs : FsReader) (blockSize fcFirst : Nat)
    (overlay overlay' : BlockOverlay) (log : List MutatorEvent)
    (h : FcHistory ext fs blockSize fcFirst overlay log overlay') (group unit : Nat)
    (gdp : GroupDescriptor) (hplaced : BitmapPlaced ext overlay group gdp)
    (hwrite : .write gdp.blockBitmap ∉ log)
    (hlazy : gdp.flags &&& Mutator.EXT4_BG_BLOCK_UNINIT = 0 ∨ ∀ e ∈ log, ¬ e.OfGroup group)
    (hset : overlayBit ext fs overlay gdp unit = true)
    (hfreed : ∀ e ∈ log, ¬ e.Frees group unit) :
    overlayBit ext fs overlay' gdp unit = true := by
  obtain ⟨_, hbits⟩ := h.bitLog hplaced hwrite
  have hinit : .init group ∉ log := by
    intro hmem
    rcases hlazy with hflag | huntouched
    · exact h.admitted _ hmem gdp hplaced.desc hflag
    · exact huntouched _ hmem rfl
  rw [hbits.bits, hset]
  exact replayBit_persists (overlayBit_inside hset) hinit hfreed

end Persist

/-! ### Files that grow -/

/-- An `ADD_RANGE` record of one block. -/
def addRangeRecord (inum lblk pblk : Nat) : PassRecord where
  relativeBlock := 0
  recordOffset := 0
  tag := FC_TAG_ADD_RANGE
  valueLen := 16
  payload := toLE 4 inum ++ extentRecord lblk 1 pblk

def growTwo : FcTx := ⟨⟨0, 7⟩, [addRangeRecord 65 8 35, addRangeRecord 66 8 36]⟩

def growOne : FcTx := ⟨⟨0, 8⟩, [addRangeRecord 67 8 37]⟩

theorem bitmapPlaced_twoGroups (flags group : Nat) (gdp : GroupDescriptor)
    (hdesc : (twoGroups flags).groupDescs[group]? = some gdp) :
    BitmapPlaced (twoGroups flags) noOverlay group gdp := by
  have hbitmap : ∀ g d, (twoGroups flags).groupDescs[g]? = some d →
      (g = 0 ∧ d.blockBitmap = 3) ∨ (g = 1 ∧ d.blockBitmap = 13) := by
    intro g d hd
    rcases g with _ | _ | g
    · injection hd with hd
      exact .inl ⟨rfl, by rw [← hd]⟩
    · injection hd with hd
      exact .inr ⟨rfl, by rw [← hd]; rfl⟩
    · cases hd
  have hgdp := hbitmap group gdp hdesc
  refine ⟨⟨hdesc, fun g d hd hb => ?_⟩, ?_, ?_, rfl⟩
  · have := hbitmap g d hd
    omega
  · show gdp.blockBitmap * 1024 < 2 ^ 64
    omega
  · show gdp.blockBitmap ≠ 1
    omega

section

attribute [local instance] Crc.standard

/-- Without `BLOCK_UNINIT` two transactions that allocate blocks keep the other bits. -/
theorem bitmap_bits_persist_growThree :
    ∃ log overlay, FcHistory (twoGroups 0) twoGroupsDevice 1024 10 noOverlay log overlay ∧
      .mark 1 2 1 true ∈ log ∧ .mark 1 4 1 true ∈ log ∧
      overlayBit (twoGroups 0) twoGroupsDevice noOverlay (secondGroup 0) 1 = true ∧
      overlayBit (twoGroups 0) twoGroupsDevice overlay (secondGroup 0) 1 = true := by
  have hrun : ((growTwo.commit (twoGroups 0) twoGroupsDevice 1024 10 noOverlay).bind fun first =>
      (growOne.commit (twoGroups 0) twoGroupsDevice 1024 10 first.2).map fun second =>
        let log := first.1 ++ second.1
        (decide (.mark 1 2 1 true ∈ log), decide (.mark 1 4 1 true ∈ log),
          decide (.write 13 ∉ log), decide (∀ e ∈ log, ¬ e.Frees 1 1))) =
      some (true, true, true, true) := by
    decide +kernel
  obtain ⟨⟨log₁, mid⟩, hfirst, hrun⟩ := Option.bind_eq_some_iff.mp hrun
  obtain ⟨⟨log₂, final⟩, hsecond, hrun⟩ := Option.map_eq_some_iff.mp hrun
  simp only [Prod.mk.injEq, decide_eq_true_eq] at hrun
  obtain ⟨hmark, hmark', hwrite, hfreed⟩ := hrun
  have hset : overlayBit (twoGroups 0) twoGroupsDevice noOverlay (secondGroup 0) 1 = true := by
    decide +kernel
  have hhist : FcHistory (twoGroups 0) twoGroupsDevice 1024 10 noOverlay (log₁ ++ log₂) final :=
    .snoc (.snoc .nil (FcTx.commit_step hfirst)) (FcTx.commit_step hsecond)
  exact ⟨_, final, hhist, hmark, hmark', hset, bitmap_bits_persist _ _ _ _ _ _ _ hhist 1 1 _
    (bitmapPlaced_twoGroups 0 1 _ rfl) hwrite (.inl rfl) hset hfreed⟩

/-- With `BLOCK_UNINIT` the second transaction loses a block that the first one allocated,
    although it frees nothing. -/
theorem lazy_group_loses_bit : ∃ log₁ mid log₂ final,
      CommitStep (twoGroups 2) twoGroupsDevice 1024 10 noOverlay log₁ mid ∧
      CommitStep (twoGroups 2) twoGroupsDevice 1024 10 mid log₂ final ∧
      .handOut 8196 ∈ log₁ ∧ (∀ e ∈ log₂, ¬ e.Frees 1 3) ∧ .write 13 ∉ log₂ ∧
      overlayBit (twoGroups 2) twoGroupsDevice mid (secondGroup 2) 3 = true ∧
      overlayBit (twoGroups 2) twoGroupsDevice final (secondGroup 2) 3 = false := by
  have hrun : ((growTwo.commit (twoGroups 2) twoGroupsDevice 1024 10 noOverlay).bind fun first =>
      (growOne.commit (twoGroups 2) twoGroupsDevice 1024 10 first.2).map fun second =>
        (decide (.handOut 8196 ∈ first.1), decide (∀ e ∈ second.1, ¬ e.Frees 1 3),
          decide (.write 13 ∉ second.1),
          overlayBit (twoGroups 2) twoGroupsDevice first.2 (secondGroup 2) 3,
          overlayBit (twoGroups 2) twoGroupsDevice second.2 (secondGroup 2) 3)) =
      some (true, true, true, true, false) := by
    decide +kernel
  obtain ⟨⟨log₁, mid⟩, hfirst, hrun⟩ := Option.bind_eq_some_iff.mp hrun
  obtain ⟨⟨log₂, final⟩, hsecond, hrun⟩ := Option.map_eq_some_iff.mp hrun
  simp only [Prod.mk.injEq, decide_eq_true_eq] at hrun
  exact ⟨log₁, mid, log₂, final, FcTx.commit_step hfirst, FcTx.commit_step hsecond, hrun⟩

end

end Fsmnt.FsExt
