import Fsmnt.Spec.FsExt.FastCommitCursor

/-!
# What the scan accepts

The records of a fast-commit region as offsets into its bytes, and the scan in these terms:
it walks from record to record and over padded blocks, and what it accepts is a sequence of
HEAD..TAIL brackets with the expected transaction id and matching checksums.
-/

namespace Fsmnt.FsExt

open Bytes List ScanState

/-! ### Records at an offset -/

namespace FcRegion

variable (region : FcRegion) (p : Nat)

def headerAt : Bytes := region.bytes.slice p FC_TL_SIZE
def tagAt : Nat := (region.headerAt p).le16 0
def lenAt : Nat := (region.headerAt p).le16 2

/-- The offset behind the record at `p`. -/
def recordEnd : Nat := p + FC_TL_SIZE + region.lenAt p

/-- The record at offset `p`. -/
def recordAt : PassRecord where
  relativeBlock := p / region.blockSize
  recordOffset := p % region.blockSize
  tag := region.tagAt p
  valueLen := region.lenAt p
  payload := region.bytes.slice (p + FC_TL_SIZE) (region.lenAt p)

/-- A zero header, which pads the rest of a block. -/
structure PadAt : Prop where
  fit : p + FC_TL_SIZE ≤ region.size
  tag : region.tagAt p = 0
  len : region.lenAt p = 0

/-- A record that the scan takes, inside or outside of a transaction. -/
structure ValidAt (inTx : Bool) : Prop where
  fit : region.recordEnd p ≤ region.size
  opened : inTx = true ∨ region.tagAt p = FC_TAG_HEAD
  supported : isSupportedRecordTag (region.tagAt p) = true
  len : fcValueLenIsvalid (region.tagAt p) (region.lenAt p) = true

end FcRegion

/-- Whether a transaction is open after a record. -/
def opensTx (tag : Nat) (inTx : Bool) : Bool :=
  if tag = FC_TAG_HEAD then true else if tag = FC_TAG_TAIL then false else inTx

/-- The records `rs` lie one after the other between two offsets, with padded blocks between
    transactions. -/
inductive FcRegion.Walk (region : FcRegion) :
    Nat → Bool → List PassRecord → Nat → Bool → Prop
  | done (p : Nat) (inTx : Bool) : Walk region p inTx [] p inTx
  | pad {p q : Nat} {inTx' : Bool} {rs : List PassRecord} (hpad : region.PadAt p)
      (rest : Walk region (region.nextBlock p) false rs q inTx') : Walk region p false rs q inTx'
  | record {p q : Nat} {inTx inTx' : Bool} {rs : List PassRecord}
      (hvalid : region.ValidAt p inTx)
      (rest : Walk region (region.recordEnd p) (opensTx (region.tagAt p) inTx) rs q inTx') :
      Walk region p inTx (region.recordAt p :: rs) q inTx'

namespace FcRegion.Walk

variable {region : FcRegion} {p q t : Nat} {a b c : Bool} {rs rs' : List PassRecord}

theorem append (h : region.Walk p a rs q b) (h' : region.Walk q b rs' t c) :
    region.Walk p a (rs ++ rs') t c := by
  induction h with
  | done => exact h'
  | pad hpad _ ih => exact .pad hpad (ih h')
  | record hvalid _ ih => exact .record hvalid (ih h')

theorem of_append (h : region.Walk p a (rs ++ rs') t c) : ∃ q b, region.Walk p a rs q b := by
  generalize hall : rs ++ rs' = all at h
  induction h generalizing rs with
  | done p a =>
    rw [(append_eq_nil_iff.mp hall).1]
    exact ⟨p, a, .done p a⟩
  | pad hpad _ ih =>
    obtain ⟨q, b, hrest⟩ := ih hall
    exact ⟨q, b, .pad hpad hrest⟩
  | record hvalid _ ih =>
    cases rs with
    | nil => exact ⟨_, _, .done _ _⟩
    | cons r rs =>
      obtain ⟨hr, hrs⟩ := cons.inj hall
      obtain ⟨q, b, hrest⟩ := ih hrs
      exact ⟨q, b, hr ▸ .record hvalid hrest⟩

theorem take (h : region.Walk p a rs q b) (n : Nat) : ∃ q b, region.Walk p a (rs.take n) q b := by
  rw [← take_append_drop n rs] at h
  exact h.of_append

end FcRegion.Walk

/-! ### Transactions -/

/-- The checksum chain over the records of a transaction before its TAIL. -/
def chainCrc [Crc] (rs : List PassRecord) : UInt32 :=
  rs.foldl (fun crc r => crcTlv crc r.header r.payload) 0

/-- A HEAD with the expected id and no unknown feature, and records that are neither HEAD nor
    TAIL. -/
def OpenTx (tid : Nat) (rs : List PassRecord) : Prop :=
  ∃ head body, rs = head :: body ∧ head.tag = FC_TAG_HEAD ∧
    decodeHead head.payload = .ok { features := 0, tid } ∧
    ∀ r ∈ body, r.tag ≠ FC_TAG_HEAD ∧ r.tag ≠ FC_TAG_TAIL

/-- A HEAD..TAIL bracket with the expected id, whose TAIL holds the checksum of the chain. -/
def ValidTx [Crc] (tid : Nat) (rs : List PassRecord) : Prop :=
  ∃ records tail, rs = records ++ [tail] ∧ OpenTx tid records ∧ tail.tag = FC_TAG_TAIL ∧
    decodeTail tail.payload = .ok { tid, crc := (crcTail (chainCrc records) tail.header tid).toNat }

/-! ### One round -/

section Round

variable {region : FcRegion} {c : RegionCursor} {p : Nat}

/-- The header that the checksum covers is the one in the region. -/
theorem FcRegion.header_recordAt (hfit : p + FC_TL_SIZE ≤ region.size) :
    (region.recordAt p).header = region.headerAt p := by
  have hlen : (region.headerAt p).length = 4 := by
    rw [FcRegion.headerAt, length_slice, region.length_bytes]
    simp only [FC_TL_SIZE] at hfit ⊢
    omega
  have hlo : ((region.headerAt p).slice 0 2).length = 2 := by rw [length_slice]; omega
  have hhi : ((region.headerAt p).slice 2 2).length = 2 := by rw [length_slice]; omega
  have hall : (region.headerAt p).slice 0 4 = region.headerAt p := by
    rw [slice, drop_zero, take_of_length_le (by omega)]
  have htag : toLE 2 (region.tagAt p) = (region.headerAt p).slice 0 2 := by
    have := toLE_ofLE ((region.headerAt p).slice 0 2)
    rwa [hlo] at this
  have hval : toLE 2 (region.lenAt p) = (region.headerAt p).slice 2 2 := by
    have := toLE_ofLE ((region.headerAt p).slice 2 2)
    rwa [hhi] at this
  show toLE 2 (region.tagAt p) ++ toLE 2 (region.lenAt p) = _
  rw [htag, hval, slice_append_slice, hall]

theorem FcRegion.ValidAt.header {inTx : Bool} (h : region.ValidAt p inTx) :
    (region.recordAt p).header = region.headerAt p :=
  header_recordAt (Nat.le_trans (Nat.le_add_right _ _) h.fit)

theorem RegionCursor.At.readHeader (h : c.At region p) (hfit : p + FC_TL_SIZE ≤ region.size) :
    ∃ c', c.readHeader = some (region.headerAt p, c') ∧ c'.At region (p + FC_TL_SIZE) :=
  h.read FC_TL_SIZE hfit

theorem RegionCursor.At.readHeader_none (h : c.At region p)
    (hover : ¬ p + FC_TL_SIZE ≤ region.size) : c.readHeader = none :=
  h.read_none FC_TL_SIZE (by omega)

theorem RegionCursor.At.readPayload_none (h : c.At region (p + FC_TL_SIZE))
    (hover : ¬ region.recordEnd p ≤ region.size) : c.readExactVec (region.lenAt p) = none :=
  h.read_none (region.lenAt p) (Nat.not_le.mp hover)

end Round

/-! ### The whole scan -/

section Run

variable [Crc] {region : FcRegion} {tid p : Nat} {st : ScanState} {rs : List PassRecord}
  {r : PassRecord}

/-- The state of the scan at offset `p`: everything it took was walked over, the accepted
    records are brackets, and the pending ones are the start of one. -/
structure ScanInv (region : FcRegion) (tid : Nat) (st : ScanState) (p : Nat) : Prop where
  walk : region.Walk 0 false (st.accepted ++ st.pending) p st.transactionOpen
  expected : st.expectedTid = tid
  accepted : ∃ txs : List (List PassRecord), st.accepted = txs.flatten ∧ ∀ tx ∈ txs, ValidTx tid tx
  closed : st.transactionOpen = false → st.pending = []
  opened : st.transactionOpen = true → OpenTx tid st.pending
  crc : st.runningCrc = chainCrc st.pending
  validCount : st.result.validTagCount = st.accepted.length % 2 ^ 32
  pendingCount : st.pendingTagCount = st.pending.length % 2 ^ 32

/-- What a record leads to: the invariant behind it if the scan goes on, and otherwise a stop
    where nothing more is accepted. -/
def ScanState.LeadsTo (region : FcRegion) (tid : Nat) (st : ScanState) (p : Nat) :
    Bool × ScanState → Prop
  | (true, st') => ScanInv region tid st' p
  | (false, st') => st'.accepted = st.accepted ∧
    st'.result.validTagCount = st.result.validTagCount

omit [Crc] in
/-- An open transaction goes on with a record that is neither HEAD nor TAIL. -/
theorem OpenTx.concat (h : OpenTx tid rs) (hhead : r.tag ≠ FC_TAG_HEAD)
    (htail : r.tag ≠ FC_TAG_TAIL) : OpenTx tid (rs ++ [r]) := by
  obtain ⟨head, body, rfl, htag, hdec, hbody⟩ := h
  exact ⟨head, body ++ [r], rfl, htag, hdec,
    forall_mem_append.mpr ⟨hbody, forall_mem_singleton.mpr ⟨hhead, htail⟩⟩⟩

omit [Crc] in
/-- The scan supports no feature, so that a HEAD which it takes has none. -/
theorem features_eq_zero {payload : Bytes} {head : FcHead} (hdec : decodeHead payload = .ok head)
    (h : head.features &&& (0xFFFFFFFF ^^^ FC_SUPPORTED_FEATURES) = 0) : head.features = 0 := by
  have hlt : head.features < 2 ^ 32 := by
    unfold decodeHead at hdec
    split at hdec
    · cases hdec
    · cases hdec
      exact le32_lt _ _
  have hmask : head.features &&& (2 ^ 32 - 1) = 0 := h
  rwa [Nat.and_two_pow_sub_one_of_lt_two_pow hlt] at hmask

section Record

variable (h : ScanInv region tid st p) (hvalid : region.ValidAt p st.transactionOpen)

include h hvalid

/-- The record at the cursor is walked over. -/
theorem ScanInv.walk_record : region.Walk 0 false (st.accepted ++ (st.pending ++
    [region.recordAt p])) (region.recordEnd p) (opensTx (region.tagAt p) st.transactionOpen) := by
  rw [← append_assoc]
  exact h.walk.append (.record hvalid (.done _ _))

/-- A record joins the pending ones. -/
theorem ScanInv.push (hopens : opensTx (region.tagAt p) st.transactionOpen = true)
    (hopen : OpenTx tid (st.pending ++ [region.recordAt p])) :
    ScanInv region tid ({ st with transactionOpen := true }.push (region.headerAt p)
      (region.recordAt p)) (region.recordEnd p) where
  walk := hopens ▸ h.walk_record hvalid
  expected := h.expected
  accepted := h.accepted
  closed hno := nomatch hno
  opened _ := hopen
  crc := by
    show crcTlv st.runningCrc _ _ = chainCrc (st.pending ++ [_])
    rw [h.crc, ← hvalid.header, chainCrc, chainCrc, foldl_append]
    rfl
  validCount := h.validCount
  pendingCount := by
    show (st.pendingTagCount + 1) % 2 ^ 32 = (st.pending ++ [_]).length % 2 ^ 32
    rw [h.pendingCount, length_append, length_singleton, Nat.mod_add_mod]

/-- HEAD opens a transaction. -/
theorem ScanInv.processHead (htag : region.tagAt p = FC_TAG_HEAD) :
    st.LeadsTo region tid (region.recordEnd p)
      (st.processHead (region.headerAt p) (region.recordAt p)) := by
  unfold ScanState.processHead
  split
  · exact ⟨rfl, rfl⟩
  rename_i hopen
  split
  · exact ⟨rfl, rfl⟩
  rename_i head hdec
  split
  · exact ⟨rfl, rfl⟩
  rename_i hfeat
  split
  · exact ⟨rfl, rfl⟩
  rename_i htid
  have hzero := features_eq_zero hdec (Decidable.not_not.mp hfeat)
  rw [Decidable.not_not, h.expected] at htid
  refine h.push hvalid (if_pos htag) ⟨region.recordAt p, [], ?_, htag, ?_, by simp⟩
  · rw [h.closed (by simpa using hopen)]
    rfl
  · rw [hdec, ← hzero, ← htid]

/-- TAIL closes it, and its records are accepted. -/
theorem ScanInv.processTail (htag : region.tagAt p = FC_TAG_TAIL) :
    st.LeadsTo region tid (region.recordEnd p)
      (st.processTail (region.headerAt p) (region.recordAt p)) := by
  unfold ScanState.processTail
  split
  · exact ⟨rfl, rfl⟩
  rename_i tail hdec
  dsimp only
  split
  · exact ⟨rfl, rfl⟩
  rename_i hok
  rw [not_or, Decidable.not_not, Decidable.not_not] at hok
  have hne : region.tagAt p ≠ FC_TAG_HEAD := by
    rw [htag]
    decide
  have hopen := h.opened (hvalid.opened.resolve_right hne)
  have hwalk := h.walk_record hvalid
  rw [opensTx, if_neg hne, if_pos htag, ← append_nil (st.accepted ++ _)] at hwalk
  obtain ⟨txs, htxs, hall⟩ := h.accepted
  refine ⟨hwalk, h.expected, ⟨txs ++ [st.pending ++ [region.recordAt p]], ?_, ?_⟩, fun _ => rfl,
    (fun hno => nomatch hno), rfl, ?_, rfl⟩
  · show st.accepted ++ (st.pending ++ [region.recordAt p]) = _
    rw [htxs]
    simp
  · refine forall_mem_append.mpr ⟨hall, forall_mem_singleton.mpr ?_⟩
    refine ⟨st.pending, region.recordAt p, rfl, hopen, htag, ?_⟩
    rw [hdec, hvalid.header, ← h.crc, ← h.expected, ← hok.1, ← hok.2]
  · show (st.result.validTagCount + _) % 2 ^ 32 = (st.accepted ++ (st.pending ++ [_])).length % _
    rw [h.validCount, h.pendingCount, length_append, length_append, length_singleton]
    omega

/-- A record keeps the invariant. -/
theorem ScanInv.processRecord : st.LeadsTo region tid (region.recordEnd p)
    (st.processRecord (region.headerAt p) (region.recordAt p)) := by
  unfold ScanState.processRecord
  split
  · rename_i htag
    exact h.processHead hvalid htag
  split
  · rename_i htag
    exact h.processTail hvalid htag
  -- Any other record belongs to an open transaction.
  rename_i hhead htail
  have hopen : st.transactionOpen = true := hvalid.opened.resolve_right hhead
  have hpush := h.push hvalid ((if_neg hhead).trans ((if_neg htail).trans hopen))
    ((h.opened hopen).concat hhead htail)
  rwa [← hopen] at hpush

end Record

/-- What a round leads to, with the cursor. -/
def ScanState.RoundTo (region : FcRegion) (tid : Nat) (st : ScanState) :
    Bool × ScanState × RegionCursor → Prop
  | (more, st', c') => ∃ p, st.LeadsTo region tid p (more, st') ∧ (more = true → c'.At region p)

/-- A round keeps the invariant: the scan stops, skips a padded block, or takes the record at
    the cursor. -/
theorem ScanInv.scanOneRecord {c : RegionCursor} (h : ScanInv region tid st p)
    (hc : c.At region p) (hp : p < region.size) : st.RoundTo region tid (scanOneRecord st c) := by
  have hstop : ∀ rel off reason c', st.RoundTo region tid (false, st.stop rel off reason, c') :=
    fun _ _ _ _ => ⟨p, ⟨rfl, rfl⟩, nofun⟩
  have htag : (region.headerAt p).le16 0 = region.tagAt p := rfl
  have hval : (region.headerAt p).le16 2 = region.lenAt p := rfl
  simp only [FsExt.scanOneRecord, hc.position hp]
  by_cases hfit : p + FC_TL_SIZE ≤ region.size
  · obtain ⟨c₁, hread, hc₁⟩ := hc.readHeader hfit
    simp only [hread, htag, hval]
    split
    · rename_i hzero
      split
      · exact hstop _ _ _ _
      rename_i hopen
      have hclosed : st.transactionOpen = false := by simpa using hopen
      have hwalk := h.walk
      rw [hclosed] at hwalk
      have hpadded := hwalk.append (.pad ⟨hfit, hzero.1, hzero.2⟩ (.done _ _))
      rw [append_nil] at hpadded
      exact ⟨_, { h with walk := by rw [hclosed]; exact hpadded }, fun _ => hc.advance⟩
    split
    · exact hstop _ _ _ _
    rename_i hopen
    split
    · exact hstop _ _ _ _
    rename_i hsupported
    split
    · exact hstop _ _ _ _
    rename_i hlen
    by_cases hend : region.recordEnd p ≤ region.size
    · obtain ⟨c₂, hpayload, hc₂⟩ := hc₁.read (region.lenAt p) hend
      simp only [hpayload]
      have hinv : ScanInv region tid { st with scanBoundary := c₂.position } p := { h with }
      refine ⟨region.recordEnd p, hinv.processRecord ⟨hend, ?_, by simpa using hsupported,
        by simpa using hlen⟩, fun _ => hc₂⟩
      show st.transactionOpen = true ∨ _
      by_contra hnot
      rw [not_or] at hnot
      exact hopen ⟨by simpa using hnot.1, hnot.2⟩
    · rw [hc₁.readPayload_none hend]
      exact hstop _ _ _ _
  · rw [hc.readHeader_none hfit]
    exact hstop _ _ _ _

/-- What holds of the accepted records and their count. -/
structure Accepted (region : FcRegion) (tid : Nat) (rs : List PassRecord) (count : Nat) : Prop where
  walk : ∃ q inTx, region.Walk 0 false rs q inTx
  brackets : ∃ txs : List (List PassRecord), rs = txs.flatten ∧ ∀ tx ∈ txs, ValidTx tid tx
  count : count = rs.length % 2 ^ 32

theorem ScanInv.toAccepted (h : ScanInv region tid st p) :
    Accepted region tid st.accepted st.result.validTagCount :=
  ⟨h.walk.of_append, h.accepted, h.validCount⟩

theorem scanLoop_accepted (fuel : Nat) {c : RegionCursor} (h : ScanInv region tid st p)
    (hc : c.At region p) :
    Accepted region tid (scanLoop fuel st c).accepted
      (scanLoop fuel st c).result.validTagCount := by
  induction fuel generalizing st c p with
  | zero => exact h.toAccepted
  | succ fuel ih =>
    rw [scanLoop]
    split
    · exact h.toAccepted
    rename_i hend
    have hround := h.scanOneRecord hc (Nat.not_le.mp (mt hc.atEnd.mpr hend))
    generalize scanOneRecord st c = round at hround
    obtain ⟨more, st', c'⟩ := round
    obtain ⟨q, hleads, hat⟩ := hround
    cases more with
    | true => exact ih hleads (hat rfl)
    | false =>
      show Accepted region tid st'.accepted st'.result.validTagCount
      rw [hleads.1, hleads.2]
      exact h.toAccepted

/-- What the scan accepts: records walked from the start of the region, in valid brackets. -/
theorem scanFcState_accepted (region : FcRegion) (fcFirst tid : Nat) :
    Accepted region tid (scanFcState region fcFirst tid).accepted
      (scanFcRegion region fcFirst tid).validTagCount := by
  have hnew : ScanInv region tid (new region.blockSize fcFirst tid) 0 :=
    ⟨.done _ _, rfl, ⟨[], rfl, by simp⟩, fun _ => rfl, (fun hno => nomatch hno), rfl, rfl, rfl⟩
  have hloop := scanLoop_accepted (region.blocks.length * region.blockSize) hnew
    (RegionCursor.new_at region)
  unfold scanFcRegion scanFcState
  dsimp only
  split
  · exact hnew.toAccepted
  split
  · exact hnew.toAccepted
  · split
    · exact hloop
    · exact hloop

end Run

end Fsmnt.FsExt
