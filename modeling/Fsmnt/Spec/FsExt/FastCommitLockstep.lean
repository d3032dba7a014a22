import Fsmnt.Spec.FsExt.FastCommitScan
import Fsmnt.Spec.FsExt.FastCommitSteps

/-!
# Scan and apply in step

The apply pass reads the region again, with nothing from the scan but the number of valid
records. It follows the scan as long as no padding is the last four bytes of a block: the scan
skips a padded block from the offset of the zero header, the apply pass from the offset behind
it, which is then in the next block already.
-/

namespace Fsmnt.FsExt

open Bytes FcRegion List Ext Except

/-! ### Offsets -/

/-- The offset of a record in a region with blocks of `bs` bytes. -/
def PassRecord.offset (bs : Nat) (r : PassRecord) : Nat := r.relativeBlock * bs + r.recordOffset

/-- The offset behind a record. -/
def PassRecord.endOffset (bs : Nat) (r : PassRecord) : Nat := r.offset bs + FC_TL_SIZE + r.valueLen

namespace FcRegion

variable {region : FcRegion} {p : Nat}

@[simp] theorem offset_recordAt (region : FcRegion) (p : Nat) :
    (region.recordAt p).offset region.blockSize = p := by
  show p / region.blockSize * region.blockSize + p % region.blockSize = p
  rw [Nat.mul_comm]
  exact Nat.div_add_mod p region.blockSize

@[simp] theorem endOffset_recordAt (region : FcRegion) (p : Nat) :
    (region.recordAt p).endOffset region.blockSize = region.recordEnd p := by
  rw [PassRecord.endOffset, offset_recordAt]
  rfl

/-- The next block, counted from an offset inside of the region. -/
theorem nextBlock_of_lt (hp : p < region.size) :
    region.nextBlock p = p + (region.blockSize - p % region.blockSize) ∧
      region.nextBlock p ≤ region.size ∧ region.nextBlock p % region.blockSize = 0 := by
  have hge := region.blockSize_ge
  have hdm := Nat.div_add_mod p region.blockSize
  have hmod := Nat.mod_lt p (show region.blockSize > 0 by omega)
  have hblock : p / region.blockSize < region.blocks.length :=
    (Nat.div_lt_iff_lt_mul (by omega)).mpr hp
  rw [nextBlock, if_pos hp]
  refine ⟨?_, Nat.mul_le_mul_right _ hblock, Nat.mul_mod_left _ _⟩
  rw [Nat.succ_mul, Nat.mul_comm]
  omega

/-- The two passes skip a padded block to the same offset, or the zero header reaches the
    block behind it, and the apply pass skips that one too. -/
theorem nextBlock_header (hfit : p + FC_TL_SIZE ≤ region.size) :
    region.nextBlock (p + FC_TL_SIZE) = region.nextBlock p ∨
    (region.nextBlock p < region.size ∧ p < region.nextBlock p ∧
      region.nextBlock p ≤ p + FC_TL_SIZE ∧
      region.nextBlock (p + FC_TL_SIZE) = region.nextBlock (region.nextBlock p)) := by
  have hge := region.blockSize_ge
  unfold FC_TL_SIZE at *
  have hmod := Nat.mod_lt p (show region.blockSize > 0 by omega)
  obtain ⟨hnext, hle, hzero⟩ := nextBlock_of_lt (show p < region.size by omega)
  have hsum : (p + 4) % region.blockSize = (p % region.blockSize + 4) % region.blockSize := by
    rw [Nat.add_mod, Nat.mod_eq_of_lt (show 4 < region.blockSize by omega)]
  rcases Nat.lt_or_ge (p % region.blockSize + 4) region.blockSize with hinside | hover
  · left
    obtain ⟨hnext', -⟩ := nextBlock_of_lt (show p + 4 < region.size by omega)
    rw [Nat.mod_eq_of_lt hinside] at hsum
    omega
  rw [Nat.mod_eq_sub_mod hover, Nat.mod_eq_of_lt (b := region.blockSize) (a := _ - _) (by omega)]
    at hsum
  rcases Nat.lt_or_ge (region.nextBlock p) region.size with hin | hend
  · right
    obtain ⟨hnextq, hleq, -⟩ := nextBlock_of_lt hin
    obtain ⟨hnext', -⟩ := nextBlock_of_lt (show p + 4 < region.size by omega)
    omega
  · left
    rw [show region.nextBlock (p + 4) = region.size from if_neg (by omega)]
    omega

/-- The bytes of a zero header. -/
theorem PadAt.byte (h : region.PadAt p) (i : Nat) (hi : i < FC_TL_SIZE) :
    region.bytes[p + i]? = some 0 := by
  have hheader : region.headerAt p = zeros 4 := by
    rw [← header_recordAt h.fit]
    show toLE 2 (region.tagAt p) ++ toLE 2 (region.lenAt p) = _
    rw [h.tag, h.len]
    rfl
  have hget : (region.headerAt p)[i]? = some 0 := by
    rw [hheader, zeros, getElem?_replicate]
    exact if_pos hi
  rw [headerAt, slice, getElem?_take_of_lt hi, getElem?_drop] at hget
  exact hget

/-- No HEAD starts inside of a zero header. -/
theorem PadAt.not_head (h : region.PadAt p) (i : Nat) (hi : i < FC_TL_SIZE) :
    region.tagAt (p + i) ≠ FC_TAG_HEAD := by
  have hbyte := h.byte i hi
  obtain ⟨rest, hrest⟩ : ∃ rest, region.bytes.drop (p + i) = 0 :: rest := by
    rw [drop_eq_getElem?_toList_append, hbyte]
    exact ⟨_, rfl⟩
  have htag : region.tagAt (p + i) = 256 * ofLE (rest.take 1) := by
    rw [tagAt, headerAt, le16, slice, slice, hrest]
    simp [FC_TL_SIZE, ofLE, take_take]
  unfold FC_TAG_HEAD
  omega

/-- Every record of a walk starts at or behind its start. -/
theorem Walk.le_offset {q : Nat} {a b : Bool} {rs : List PassRecord}
    (h : region.Walk p a rs q b) : ∀ r ∈ rs, p ≤ r.offset region.blockSize := by
  induction h with
  | done => simp
  | @pad p _ _ _ hpad _ ih =>
    intro r hr
    have hfit := hpad.fit
    have hlt : p < region.size := by unfold FC_TL_SIZE at hfit; omega
    have hnext := (nextBlock_of_lt hlt).1
    have hrest := ih r hr
    omega
  | @record p _ _ _ _ hvalid _ ih =>
    intro r hr
    rcases mem_cons.mp hr with rfl | hr
    · exact Nat.le_of_eq (offset_recordAt region p).symm
    · have hrest := ih r hr
      unfold recordEnd at hrest
      omega

end FcRegion

/-! ### One round of the apply pass -/

section Round

variable [Crc] (ext : Ext) (fs : FsReader) (fcFirst : Nat) {region : FcRegion}
  {c : RegionCursor} {p : Nat}

/-- A round that skips a padded block. -/
theorem applyLoop_pad (fuel remaining : Nat) (run : ApplyRun) (h : c.At region p)
    (hpad : region.PadAt p) (htx : run.context.txState.isNone = true) :
    ∃ c', c'.At region (region.nextBlock (p + FC_TL_SIZE)) ∧
      applyLoop ext fs region.blockSize fcFirst (fuel + 1) (remaining + 1) c run =
        applyLoop ext fs region.blockSize fcFirst fuel (remaining + 1) c' run := by
  obtain ⟨c₁, hread, hc₁⟩ := h.readHeader hpad.fit
  refine ⟨c₁.advanceToNextBlock, hc₁.advance, ?_⟩
  rw [applyLoop]
  simp only [hread]
  rw [if_pos ⟨hpad.tag, hpad.len, htx⟩]

/-- A round that dispatches a record. -/
theorem applyLoop_record (fuel remaining : Nat) (run : ApplyRun) (h : c.At region p)
    (hfit : region.recordEnd p ≤ region.size)
    (hrecord : ¬ (region.PadAt p ∧ run.context.txState.isNone = true)) :
    ∃ c', c'.At region (region.recordEnd p) ∧
      applyLoop ext fs region.blockSize fcFirst (fuel + 1) (remaining + 1) c run =
        match applyRecord ext fs region.blockSize fcFirst run.context (region.recordAt p) with
        | .error e =>
          { run with dispatched := run.dispatched ++ [region.recordAt p], ending := .failed e }
        | .ok (true, context) =>
          { context, dispatched := run.dispatched ++ [region.recordAt p], ending := .stopped }
        | .ok (false, context) =>
          applyLoop ext fs region.blockSize fcFirst fuel remaining c'
            { context, dispatched := run.dispatched ++ [region.recordAt p],
              ending := run.ending } := by
  have hheader : p + FC_TL_SIZE ≤ region.size := by
    unfold recordEnd at hfit
    omega
  have hpos := h.position (by unfold FC_TL_SIZE at hheader; omega)
  obtain ⟨c₁, hread, hc₁⟩ := h.readHeader hheader
  obtain ⟨c₂, hpayload, hc₂⟩ := hc₁.read (region.lenAt p) hfit
  have hval : (region.headerAt p).le16 2 = region.lenAt p := rfl
  refine ⟨c₂, hc₂, ?_⟩
  rw [applyLoop]
  simp only [hread, hval, hpos, hpayload]
  rw [if_neg (fun hzero => hrecord ⟨⟨hheader, hzero.1, hzero.2.1⟩, hzero.2.2⟩)]
  rfl

/-- A round at the end of the region. -/
theorem applyLoop_truncated (fuel remaining : Nat) (run : ApplyRun) (h : c.At region p)
    (hfit : ¬ region.recordEnd p ≤ region.size)
    (hrecord : ¬ (region.PadAt p ∧ run.context.txState.isNone = true)) :
    applyLoop ext fs region.blockSize fcFirst (fuel + 1) (remaining + 1) c run =
      { run with ending := .truncated } := by
  rw [applyLoop]
  by_cases hheader : p + FC_TL_SIZE ≤ region.size
  · obtain ⟨c₁, hread, hc₁⟩ := h.readHeader hheader
    have hval : (region.headerAt p).le16 2 = region.lenAt p := rfl
    simp only [hread, hval, hc₁.readPayload_none hfit]
    rw [if_neg (fun hzero => hrecord ⟨⟨hheader, hzero.1, hzero.2.1⟩, hzero.2.2⟩)]
  · simp only [h.readHeader_none hheader]

/-- Whatever is dispatched from an offset on starts there or behind it. If nothing is, then
    nothing was asked for or the region was too short. -/
theorem applyLoop_dispatched (fuel remaining : Nat) (run : ApplyRun) (h : c.At region p) :
    ∃ rest, (applyLoop ext fs region.blockSize fcFirst fuel remaining c run).dispatched =
        run.dispatched ++ rest ∧
      (∀ r ∈ rest, p ≤ r.offset region.blockSize) ∧
      (rest = [] → remaining = 0 ∨
        (applyLoop ext fs region.blockSize fcFirst fuel remaining c run).ending = .truncated) := by
  induction fuel generalizing remaining c p run with
  | zero =>
    cases remaining with
    | zero => exact ⟨[], by simp [applyLoop], by simp, fun _ => .inl rfl⟩
    | succ remaining => exact ⟨[], by simp [applyLoop], by simp, fun _ => .inr rfl⟩
  | succ fuel ih =>
    cases remaining with
    | zero => exact ⟨[], by simp [applyLoop], by simp, fun _ => .inl rfl⟩
    | succ remaining =>
      by_cases hpad : region.PadAt p ∧ run.context.txState.isNone = true
      · -- a pad is not dispatched and not counted
        obtain ⟨c', hc', heq⟩ := applyLoop_pad ext fs fcFirst fuel remaining run h hpad.1 hpad.2
        obtain ⟨rest, hrest, hoff, hnil⟩ := ih (remaining + 1) run hc'
        rw [heq]
        refine ⟨rest, hrest, fun r hr => ?_, hnil⟩
        have hle := hoff r hr
        have hge : p + FC_TL_SIZE ≤ region.nextBlock (p + FC_TL_SIZE) := by
          rcases Nat.lt_or_ge (p + FC_TL_SIZE) region.size with hin | hout
          · have := (nextBlock_of_lt hin).1
            omega
          · rw [nextBlock, if_neg (Nat.not_lt.mpr hout)]
            exact hpad.1.fit
        omega
      · by_cases hfit : region.recordEnd p ≤ region.size
        · obtain ⟨c', hc', heq⟩ := applyLoop_record ext fs fcFirst fuel remaining run h hfit hpad
          have hat := offset_recordAt region p
          rw [heq]
          split
          · exact ⟨[region.recordAt p], rfl, by simp, by simp⟩
          · exact ⟨[region.recordAt p], rfl, by simp, by simp⟩
          rename_i context _
          obtain ⟨rest, hrest, hoff, _⟩ := ih remaining
            { context, dispatched := run.dispatched ++ [region.recordAt p],
              ending := run.ending } hc'
          refine ⟨region.recordAt p :: rest, by rw [hrest]; simp, fun r hr => ?_, by simp⟩
          rcases mem_cons.mp hr with rfl | hr
          · omega
          · have hle := hoff r hr
            unfold recordEnd at hle
            omega
        · rw [applyLoop_truncated ext fs fcFirst fuel remaining run h hfit hpad]
          exact ⟨[], by simp, by simp, fun _ => .inr rfl⟩

/-- Without a stop, a handler leaves the transaction open or closed as the scan has it. -/
theorem applyRecord_txState {blockSize : Nat} {ctx ctx' : ApplyContext} {r : PassRecord}
    (h : applyRecord ext fs blockSize fcFirst ctx r = .ok (false, ctx')) :
    ctx'.txState.isSome = opensTx r.tag ctx.txState.isSome := by
  unfold opensTx
  cases applyRecord_cases h with
  | head head htag _ => rw [if_pos htag]; rfl
  | tail _ htag hcommit =>
    have hne : r.tag ≠ FC_TAG_HEAD := by rw [htag]; decide
    rw [if_neg hne, if_pos htag]
    rcases commitTransaction_cases hcommit with ⟨hnone, rfl⟩ | ⟨_, _, _, _, rfl⟩
    · rw [hnone]
      rfl
    · rfl
  | next tx tx' hhead htail htx _ => rw [if_neg hhead, if_neg htail, htx]; rfl
  | ignored hhead htail _ => rw [if_neg hhead, if_neg htail]

end Round

/-! ### The loop -/

/-- The loop was cut short by a handler. -/
def ApplyEnding.cutShort : ApplyEnding → Bool
  | .stopped | .failed _ => true
  | .counted | .truncated => false

/-- The record `r` stands at the start of a block, and between it and the offset `p` lie the
    last four bytes of the block before. -/
def Hidden (bs p : Nat) (r : PassRecord) : Prop := r.offset bs = p + FC_TL_SIZE ∧ r.recordOffset = 0

/-- No record of `rs` is hidden behind the one before it, and the first not behind `p`. -/
def InReach (bs : Nat) : Nat → List PassRecord → Prop
  | _, [] => True
  | p, r :: rs => ¬ Hidden bs p r ∧ InReach bs (r.endOffset bs) rs

section Loop

variable [Crc] (ext : Ext) (fs : FsReader) (fcFirst : Nat) {region : FcRegion}
  {c : RegionCursor} {p q : Nat} {inTx inTx' : Bool} {r : PassRecord} {rs : List PassRecord}

omit [Crc] in
/-- Nothing is hidden behind the start of a block. -/
theorem not_hidden_of_block (hblock : p % region.blockSize = 0) :
    ¬ Hidden region.blockSize p r := by
  rintro ⟨hoff, hzero⟩
  have hge := region.blockSize_ge
  have hmod : (p + FC_TL_SIZE) % region.blockSize = 0 := by
    rw [← hoff, PassRecord.offset, hzero, Nat.add_zero, Nat.mul_mod_left]
  unfold FC_TL_SIZE at hmod
  rw [Nat.add_mod, hblock, Nat.zero_add, Nat.mod_mod, Nat.mod_eq_of_lt (by omega)] at hmod
  omega

/-- The next record of a walk is reached by skipping blocks, unless it is hidden: then the
    pass goes on behind it. -/
theorem applyLoop_reach (fuel n : Nat) (run : ApplyRun) (h : c.At region p)
    (hwalk : region.Walk p inTx (r :: rs) q inTx') (htx : run.context.txState.isSome = inTx)
    (hfuel : region.size < p + fuel) :
    (¬ Hidden region.blockSize p r ∧ ∃ p' c' fuel', c'.At region p' ∧ r = region.recordAt p' ∧
      region.ValidAt p' inTx ∧
      region.Walk (region.recordEnd p') (opensTx (region.tagAt p') inTx) rs q inTx' ∧
      region.size < p' + (fuel' + 1) ∧
      applyLoop ext fs region.blockSize fcFirst fuel (n + 1) c run =
        applyLoop ext fs region.blockSize fcFirst (fuel' + 1) (n + 1) c' run) ∨
    (Hidden region.blockSize p r ∧ ∃ p' c' fuel', c'.At region p' ∧ r.offset region.blockSize < p' ∧
      applyLoop ext fs region.blockSize fcFirst fuel (n + 1) c run =
        applyLoop ext fs region.blockSize fcFirst fuel' (n + 1) c' run) := by
  have hge := region.blockSize_ge
  induction fuel generalizing c p with
  | zero =>
    have := h.le
    omega
  | succ fuel ih =>
    cases hwalk with
    | record hvalid rest =>
      refine .inl ⟨fun hhid => ?_, p, c, fuel, h, rfl, hvalid, rest, hfuel, rfl⟩
      have hoff := hhid.1
      rw [offset_recordAt] at hoff
      unfold FC_TL_SIZE at hoff
      omega
    | pad hpad rest =>
      have hnone : run.context.txState.isNone = true := by
        rw [← Option.not_isSome, htx]
        rfl
      obtain ⟨c₁, hc₁, heq⟩ := applyLoop_pad ext fs fcFirst fuel n run h hpad hnone
      have hfit := hpad.fit
      have hlt : p < region.size := by unfold FC_TL_SIZE at hfit; omega
      have hpmod := Nat.mod_lt p (show region.blockSize > 0 by omega)
      obtain ⟨hnext, hnextle, hnextmod⟩ := nextBlock_of_lt hlt
      rw [heq]
      rcases nextBlock_header hfit with hsame | ⟨hin, hgt, hover, hfar⟩
      · -- both passes go on at the next block
        rw [hsame] at hc₁
        rcases ih hc₁ rest (by omega) with ⟨_, p', c', fuel', hc', hr, hvalid, hrest, hfuel',
          hrun⟩ | ⟨hhid, _⟩
        · refine .inl ⟨fun hhid => ?_, p', c', fuel', hc', hr, hvalid, hrest, hfuel', hrun⟩
          -- the apply pass would have skipped the block that `p + 4` begins
          have hoff := hhid.1
          have hfit' := hvalid.fit
          have hle := rest.le_offset r (by simp)
          rw [hr, offset_recordAt] at hoff hle
          unfold recordEnd FC_TL_SIZE at *
          have hnext' := (nextBlock_of_lt (show p + 4 < region.size by omega)).1
          have hmod4 := Nat.mod_lt (p + 4) (show region.blockSize > 0 by omega)
          omega
        · exact absurd hhid (not_hidden_of_block hnextmod)
      · rw [hfar] at hc₁
        obtain ⟨hnext', _, hnextmod'⟩ := nextBlock_of_lt hin
        cases rest with
        | pad hpad' rest' =>
          -- the scan skips the next block too
          have hle := rest'.le_offset r (by simp)
          rcases ih hc₁ rest' (by omega) with ⟨_, hfound⟩ | ⟨hhid, _⟩
          · refine .inl ⟨fun hhid => ?_, hfound⟩
            have hoff := hhid.1
            unfold FC_TL_SIZE at hoff hover
            omega
          · exact absurd hhid (not_hidden_of_block hnextmod')
        | record hvalid rest' =>
          -- the record at the start of the next block is a HEAD, so the padding ends before it
          have hhead : region.tagAt (region.nextBlock p) = FC_TAG_HEAD :=
            hvalid.opened.resolve_left (by simp)
          have hexact : region.nextBlock p = p + FC_TL_SIZE := by
            by_contra hne
            have hnot := hpad.not_head (region.nextBlock p - p) (by omega)
            rw [Nat.add_sub_cancel' (by omega)] at hnot
            exact hnot hhead
          refine .inr ⟨⟨?_, hnextmod⟩, _, c₁, fuel, hc₁, ?_, rfl⟩
          · rw [offset_recordAt, hexact]
          · rw [offset_recordAt]
            omega

/-- The dispatched records `rest` against the accepted ones `rs`: the same, up to the one at
    which a handler cuts the pass short. -/
def Follows (rs rest : List PassRecord) (ending : ApplyEnding) : Prop :=
  rest <+: rs ∧ (ending.cutShort = false → rest = rs)

omit [Crc] in
theorem Follows.cons {rest : List PassRecord} {ending : ApplyEnding} (r : PassRecord) :
    Follows (r :: rs) (r :: rest) ending ↔ Follows rs rest ending := by
  simp [Follows, cons_prefix_cons]

omit [Crc] in
theorem FcRegion.ValidAt.not_pad (h : region.ValidAt p inTx) : ¬ region.PadAt p := by
  intro hpad
  have hsupported := h.supported
  rw [hpad.tag] at hsupported
  exact absurd hsupported (by decide)

/-- Where no record is hidden, the apply pass dispatches the records of a walk. -/
theorem applyLoop_follows (fuel : Nat) (run : ApplyRun) (h : c.At region p)
    (hwalk : region.Walk p inTx rs q inTx') (htx : run.context.txState.isSome = inTx)
    (hfuel : region.size < p + fuel) (hreach : InReach region.blockSize p rs) :
    ∃ rest, (applyLoop ext fs region.blockSize fcFirst fuel rs.length c run).dispatched =
        run.dispatched ++ rest ∧
      Follows rs rest (applyLoop ext fs region.blockSize fcFirst fuel rs.length c run).ending := by
  induction rs generalizing p c inTx fuel run with
  | nil =>
    exact ⟨[], by cases fuel <;> simp [applyLoop], nil_prefix, fun _ => rfl⟩
  | cons r rs ih =>
    rcases applyLoop_reach ext fs fcFirst fuel rs.length run h hwalk htx hfuel with
      ⟨_, p', c', fuel', hc', rfl, hvalid, hrest, hfuel', heq⟩ | ⟨hhid, _⟩
    · obtain ⟨c₁, hc₁, hrecord⟩ := applyLoop_record ext fs fcFirst fuel' rs.length run hc'
        hvalid.fit (fun hpad => hvalid.not_pad hpad.1)
      rw [length_cons, heq, hrecord]
      split
      · exact ⟨[_], rfl, prefix_append [_] rs, Bool.noConfusion⟩
      · exact ⟨[_], rfl, prefix_append [_] rs, Bool.noConfusion⟩
      rename_i context hok
      have hopens := applyRecord_txState ext fs fcFirst hok
      rw [htx] at hopens
      have hnext := hreach.2
      rw [endOffset_recordAt] at hnext
      obtain ⟨rest, hdispatched, hfollows⟩ := ih fuel'
        { context, dispatched := run.dispatched ++ [region.recordAt p'], ending := run.ending }
        hc₁ hrest hopens (by unfold recordEnd FC_TL_SIZE; omega) hnext
      exact ⟨region.recordAt p' :: rest, by rw [hdispatched]; simp, (Follows.cons _).mpr hfollows⟩
    · exact absurd hhid hreach.1

end Loop

/-! ### A filesystem on which nothing stops the pass -/

/-- A filesystem without inodes and with room for the longest INODE record: every record of
    it is skipped with a warning. -/
def Ext.empty : Ext :=
  { plain 0 0 [] with
    blockSize := 65536
    inodeSize := 65536
    gdtLayout := { (plain 0 0 []).gdtLayout with
      blockSize := 65536
      descSize_dvd := by decide
      blockSize_pos := by decide }
    blockSize_ge := by decide
    inodeSize_ge := by decide
    inodeSize_dvd := by decide
    gdtLayout_blockSize := rfl }

/-- The open transaction has changed nothing. -/
def ApplyContext.Calm (ctx : ApplyContext) : Prop :=
  ∀ tx, ctx.txState = some tx → ∃ host, tx.mutator = Mutator.new host

section Empty

variable [Crc] (fs : FsReader) (fcFirst : Nat) {region : FcRegion} {c : RegionCursor}
  {p q : Nat} {inTx inTx' : Bool} {r : PassRecord} {rs : List PassRecord}

omit [Crc] in
/-- A record of the scan has a payload of a length that its tag allows. -/
theorem FcRegion.ValidAt.lengths (h : region.ValidAt p inTx) :
    (region.recordAt p).payload.length = (region.recordAt p).valueLen ∧
      (region.recordAt p).valueLen < 65536 ∧
      fcValueLenIsvalid (region.recordAt p).tag (region.recordAt p).valueLen = true := by
  refine ⟨?_, ?_, h.len⟩
  · have hfit := h.fit
    show (region.bytes.slice _ _).length = region.lenAt p
    rw [length_slice, region.length_bytes]
    unfold recordEnd at hfit
    omega
  · exact le16_lt _ _

/-- A record of the scan changes nothing but counters and warnings. -/
theorem applyTxRecord_empty (position : FastCommitPosition) (tx : TxState)
    (hlen : r.payload.length = r.valueLen) (hmax : r.valueLen < 65536)
    (hval : fcValueLenIsvalid r.tag r.valueLen = true) :
    ∃ f, applyTxRecord empty fs position tx r = .ok (.next (tx.mapBuffer f)) := by
  have hout : ∀ n : Nat, n = 0 ∨ empty.inodesCount < n := Nat.eq_zero_or_pos
  unfold applyTxRecord
  split
  · exact ⟨_, rfl⟩
  -- every other record that has a handler names an inode, and there is none
  split
  · rename_i htag
    have hge : 4 + 128 ≤ r.valueLen := by
      simpa [htag, fcValueLenIsvalid, FC_TAG_INODE, FC_TAG_HEAD, FC_TAG_TAIL] using hval
    have hle : r.valueLen - 4 ≤ empty.inodeSize := show _ ≤ 65536 by omega
    rw [decodeInode, if_neg (by omega), ok_bind, applyInodeRecord, if_neg, if_pos (hout _)]
    · exact ⟨_, rfl⟩
    · simp
      omega
  split
  · rename_i htag
    have hge : 4 + 4 + 1 ≤ r.valueLen := by
      rcases htag with htag | htag | htag <;>
        simp [htag, fcValueLenIsvalid, FC_TAG_INODE, FC_TAG_HEAD, FC_TAG_TAIL, FC_TAG_CREAT,
          FC_TAG_LINK, FC_TAG_UNLINK] at hval <;> exact hval.1
    rw [decodeDentry, if_neg (by omega), ok_bind, applyDentryRecord, if_pos (hout _)]
    exact ⟨_, rfl⟩
  split
  · rename_i htag
    have heq : r.valueLen = 16 := by
      simpa [htag, fcValueLenIsvalid, FC_TAG_INODE, FC_TAG_HEAD, FC_TAG_TAIL, FC_TAG_CREAT,
          FC_TAG_LINK, FC_TAG_UNLINK, FC_TAG_ADD_RANGE] using hval
    rw [decodeAddRange, if_neg (by omega), ok_bind, applyAddRangeRecord, if_pos (hout _)]
    exact ⟨_, rfl⟩
  split
  · rename_i htag
    have heq : r.valueLen = 12 := by
      simpa [htag, fcValueLenIsvalid, FC_TAG_INODE, FC_TAG_HEAD, FC_TAG_TAIL, FC_TAG_CREAT,
          FC_TAG_LINK, FC_TAG_UNLINK, FC_TAG_ADD_RANGE, FC_TAG_DEL_RANGE] using hval
    rw [decodeDelRange, if_neg (by omega), ok_bind, applyDelRangeRecord, if_pos (hout _)]
    exact ⟨_, rfl⟩
  · exact ⟨id, rfl⟩

/-- A record of the scan neither stops nor fails the pass. -/
theorem applyRecord_empty {blockSize : Nat} {ctx : ApplyContext}
    (hvalid : region.ValidAt p inTx) (htx : ctx.txState.isSome = inTx) (hcalm : ctx.Calm) :
    ∃ ctx', applyRecord empty fs blockSize fcFirst ctx (region.recordAt p) =
      .ok (false, ctx') ∧ ctx'.Calm := by
  obtain ⟨hlen, hmax, hval⟩ := hvalid.lengths
  unfold applyRecord
  by_cases hhead : (region.recordAt p).tag = FC_TAG_HEAD
  · have heq : (region.recordAt p).valueLen = 8 := by
      rw [hhead] at hval
      simpa [fcValueLenIsvalid] using hval
    have hdec : decodeHead (region.recordAt p).payload = .ok ⟨_, _⟩ := if_neg (by omega)
    rw [if_pos hhead, hdec]
    refine ⟨_, rfl, fun tx htx => ⟨ctx.composedOverlay.sbHostBlockContent, ?_⟩⟩
    injection htx with htx
    rw [← htx]
  rw [if_neg hhead]
  have hopen : inTx = true := hvalid.opened.resolve_right hhead
  rw [hopen, Option.isSome_iff_exists] at htx
  obtain ⟨tx, htx⟩ := htx
  obtain ⟨host, hhost⟩ := hcalm tx htx
  by_cases htail : (region.recordAt p).tag = FC_TAG_TAIL
  · have hge : 8 ≤ (region.recordAt p).valueLen := by
      rw [htail] at hval
      simpa [fcValueLenIsvalid, FC_TAG_TAIL, FC_TAG_HEAD] using hval
    have hdec : decodeTail (region.recordAt p).payload = .ok ⟨_, _⟩ := if_neg (by omega)
    -- an untouched mutator has an empty delta
    obtain ⟨delta, hfinal⟩ : ∃ delta, tx.finalize empty fs ctx.composedOverlay = .ok delta := by
      rw [TxState.finalize, hhost]
      exact ⟨_, rfl⟩
    rw [if_pos htail, hdec]
    simp only [ApplyContext.commitTransaction, htx, hfinal]
    exact ⟨_, rfl, fun tx htx => nomatch htx⟩
  · rw [if_neg htail]
    simp only [htx]
    obtain ⟨f, hstep⟩ := applyTxRecord_empty (composeReader fs ctx.composedOverlay)
      (positionAt (region.recordAt p).relativeBlock (region.recordAt p).recordOffset blockSize
        fcFirst) tx hlen hmax hval
    rw [hstep]
    refine ⟨_, rfl, fun tx' htx' => ⟨host, ?_⟩⟩
    injection htx' with htx'
    rw [← htx', ← hhost]
    rfl

/-- Where a record is hidden, the apply pass does not dispatch the records of the walk. -/
theorem applyLoop_strays (fuel : Nat) (run : ApplyRun) (h : c.At region p)
    (hwalk : region.Walk p inTx rs q inTx') (htx : run.context.txState.isSome = inTx)
    (hcalm : run.context.Calm) (hfuel : region.size < p + fuel)
    (hreach : ¬ InReach region.blockSize p rs) :
    ∃ rest, (applyLoop empty fs region.blockSize fcFirst fuel rs.length c run).dispatched =
        run.dispatched ++ rest ∧
      ¬ Follows rs rest
        (applyLoop empty fs region.blockSize fcFirst fuel rs.length c run).ending := by
  induction rs generalizing p c inTx fuel run with
  | nil => exact absurd trivial hreach
  | cons r rs ih =>
    rcases applyLoop_reach empty fs fcFirst fuel rs.length run h hwalk htx hfuel with
      ⟨hseen, p', c', fuel', hc', rfl, hvalid, hrest, hfuel', heq⟩ |
      ⟨_, p', c', fuel', hc', hbehind, heq⟩
    · obtain ⟨c₁, hc₁, hrecord⟩ := applyLoop_record empty fs fcFirst fuel' rs.length run hc'
        hvalid.fit (fun hpad => hvalid.not_pad hpad.1)
      obtain ⟨context, hok, hcalm'⟩ := applyRecord_empty fs fcFirst
        (show region.ValidAt p' inTx from hvalid) htx hcalm
      have hopens := applyRecord_txState empty fs fcFirst hok
      have hnext : ¬ InReach region.blockSize (region.recordEnd p') rs := by
        rw [← endOffset_recordAt]
        exact fun hin => hreach ⟨hseen, hin⟩
      rw [htx] at hopens
      obtain ⟨rest, hdispatched, hfollows⟩ := ih fuel'
        { context, dispatched := run.dispatched ++ [region.recordAt p'], ending := run.ending }
        hc₁ hrest hopens hcalm' (by unfold recordEnd FC_TL_SIZE; omega) hnext
      rw [length_cons, heq, hrecord, hok]
      exact ⟨region.recordAt p' :: rest, by rw [hdispatched]; simp,
        fun hno => hfollows ((Follows.cons _).mp hno)⟩
    · -- what is dispatched next lies behind the record that was accepted
      obtain ⟨rest, hdispatched, hoff, hnil⟩ := applyLoop_dispatched empty fs fcFirst fuel'
        (rs.length + 1) run hc'
      rw [length_cons, heq]
      refine ⟨rest, hdispatched, fun hfollows => ?_⟩
      cases rest with
      | nil =>
        have hend := (hnil rfl).resolve_left (Nat.succ_ne_zero _)
        rw [hend] at hfollows
        exact absurd (hfollows.2 rfl) (by simp)
      | cons x rest =>
        have hx := (cons_prefix_cons.mp hfollows.1).1
        have hle := hoff x (by simp)
        rw [hx] at hle
        omega

end Empty

/-! ### The two passes -/

section Passes

variable [Crc] (region : FcRegion) (fcFirst tid : Nat)

/-- The records that the apply pass is told to dispatch. -/
def countedRecords : List PassRecord :=
  (scanFcState region fcFirst tid).accepted.take (scanFcRegion region fcFirst tid).validTagCount

/-- The two passes see the same records: what a run dispatches is the counted records, up to
    the one at which a handler cuts it short, and each lies in a bracket with the expected id
    and a matching checksum. -/
structure InStep (run : ApplyRun) : Prop where
  follows : Follows (countedRecords region fcFirst tid) run.dispatched run.ending
  bracket : ∀ r ∈ run.dispatched, ∃ tx, ValidTx tid tx ∧ r ∈ tx ∧
    tx <:+: (scanFcState region fcFirst tid).accepted

variable {region fcFirst tid}

/-- A counted record lies in a valid bracket. -/
theorem exists_bracket_of_mem {r : PassRecord} (hr : r ∈ countedRecords region fcFirst tid) :
    ∃ tx, ValidTx tid tx ∧ r ∈ tx ∧ tx <:+: (scanFcState region fcFirst tid).accepted := by
  obtain ⟨txs, htxs, hvalid⟩ := (scanFcState_accepted region fcFirst tid).brackets
  have hmem := mem_of_mem_take hr
  rw [htxs] at hmem ⊢
  obtain ⟨tx, htx, hin⟩ := mem_flatten.mp hmem
  obtain ⟨before, after, hsplit⟩ := append_of_mem htx
  exact ⟨tx, hvalid tx htx, hin, before.flatten, after.flatten, by rw [hsplit]; simp⟩

/-- The apply pass as a run of its loop on the counted records. -/
theorem applyPassRun_eq (ext : Ext) (fs : FsReader) (overlay : BlockOverlay) :
    applyPassRun ext fs overlay region fcFirst (scanFcRegion region fcFirst tid) =
      applyLoop ext fs region.blockSize fcFirst (region.size + 1)
        (countedRecords region fcFirst tid).length (RegionCursor.new region.blocks)
        ⟨⟨overlay, none, {}, ∅⟩, [], .counted⟩ := by
  have hcount := (scanFcState_accepted region fcFirst tid).count
  have hlen : (countedRecords region fcFirst tid).length =
      (scanFcRegion region fcFirst tid).validTagCount := by
    rw [countedRecords, length_take, hcount]
    exact Nat.min_eq_left (Nat.mod_le _ _)
  rw [hlen]
  rfl

/-- The two passes see the same records on every filesystem exactly when no counted record
    stands at the start of a block behind padding of exactly the last four bytes of the block
    before. -/
theorem passes_in_step_iff (region : FcRegion) (fcFirst tid : Nat) :
    (∀ (ext : Ext) (fs : FsReader) (overlay : BlockOverlay), InStep region fcFirst tid
      (applyPassRun ext fs overlay region fcFirst (scanFcRegion region fcFirst tid))) ↔
    InReach region.blockSize 0 (countedRecords region fcFirst tid) := by
  obtain ⟨q, inTx', hwalk⟩ := (scanFcState_accepted region fcFirst tid).walk
  obtain ⟨q, inTx', hwalk⟩ := hwalk.take (scanFcRegion region fcFirst tid).validTagCount
  change region.Walk 0 false (countedRecords region fcFirst tid) q inTx' at hwalk
  have hnew := RegionCursor.new_at region
  constructor
  · intro hstep
    by_contra hreach
    let overlay : BlockOverlay := ⟨1024, ∅, 0, []⟩
    obtain ⟨rest, hdispatched, hstrays⟩ := applyLoop_strays zeroDevice fcFirst (region.size + 1)
      ⟨⟨overlay, none, {}, ∅⟩, [], .counted⟩ hnew hwalk rfl (fun tx htx => nomatch htx)
      (by omega) hreach
    rw [← applyPassRun_eq, List.nil_append] at hdispatched
    rw [← applyPassRun_eq, ← hdispatched] at hstrays
    exact hstrays (hstep empty zeroDevice overlay).follows
  · intro hreach ext fs overlay
    obtain ⟨rest, hdispatched, hfollows⟩ := applyLoop_follows ext fs fcFirst (region.size + 1)
      ⟨⟨overlay, none, {}, ∅⟩, [], .counted⟩ hnew hwalk rfl (by omega) hreach
    rw [← applyPassRun_eq, List.nil_append] at hdispatched
    rw [← applyPassRun_eq, ← hdispatched] at hfollows
    exact ⟨hfollows, fun r hr => exists_bracket_of_mem (hfollows.1.subset hr)⟩

end Passes

/-! ### A hidden transaction -/

section

attribute [local instance] Crc.standard

/-- An empty transaction whose TAIL has `len` bytes of payload. -/
def emptyTx (tid len : Nat) : Bytes :=
  let head := toLE 2 FC_TAG_HEAD ++ toLE 2 8
  let tail := toLE 2 FC_TAG_TAIL ++ toLE 2 len
  let payload := toLE 4 0 ++ toLE 4 tid
  let crc := crcTail (crcTlv 0 head payload) tail tid
  head ++ payload ++ tail ++ toLE 4 tid ++ toLE 4 crc.toNat ++ zeros (len - 8)

/-- The first block is a transaction and four zero bytes, the second a transaction, and the
    third one with another id. -/
def hiddenRegion : FcRegion where
  blocks := [emptyTx 7 1004 ++ zeros 4, emptyTx 7 8 ++ zeros 1000, emptyTx 9 8 ++ zeros 1000]
  blockSize := 1024
  blockSize_ge := blockSize_1024_ge
  blocks_lt := by decide
  length_block := by decide +kernel

/-- The scan accepts the transactions of the first two blocks. The apply pass skips the second
    block and replays the third one, which the scan has rejected. -/
theorem apply_dispatches_rejected :
    (scanFcState hiddenRegion 10 7).accepted.map (·.relativeBlock) = [0, 0, 1, 1] ∧
    (scanFcRegion hiddenRegion 10 7).validTagCount = 4 ∧
    (applyPassRun (plain 64 0 []) zeroDevice ⟨1024, ∅, 1, []⟩ hiddenRegion 10
      (scanFcRegion hiddenRegion 10 7)).dispatched.map (·.relativeBlock) = [0, 0, 2, 2] := by
  decide +kernel

end

end Fsmnt.FsExt
