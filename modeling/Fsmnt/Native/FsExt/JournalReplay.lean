import Fsmnt.Native.FsExt.JournalTags
import Fsmnt.Native.FsExt.Volume

/-!
# Journal replay engine

`journal/replay.rs`: the walk over the log and the pass that turns the committed
transactions into a block overlay. The walk is an unbounded loop in the source; here
`walkRun n` is its configuration after `n` iterations, and `walk` the value it returns
once it has left the loop.

`WalkState.requests` is not in the source: it records every journal-block index the walk
hands to its reader, in order.
-/

namespace Fsmnt.FsExt

def BT_DESCRIPTOR : Nat := 1
def BT_COMMIT : Nat := 2
def BT_REVOCATION : Nat := 5

structure PendingWrite where
  fsBlock : Nat
  content : Bytes
  escape : Bool
  deriving Repr, DecidableEq

structure PendingTx where
  writes : List PendingWrite := []
  revocations : List Nat := []
  descriptorCount : Nat := 0
  deriving Repr, DecidableEq

/-- A read source supplying journal blocks of `blockSize` bytes. -/
structure JournalBlockReader (blockSize : Nat) where
  readBlock : Nat → Except ExtError Bytes
  length_readBlock : ∀ n bs, readBlock n = .ok bs → bs.length = blockSize

/-- A journal as `open_journal_source` and `open_journal_file` hand it to the walk: the
    source was parsed from the first 1024 bytes of the journal file, whose blocks the
    reader then serves. -/
structure OpenJournal [Crc] where
  superblock : Bytes
  source : JournalSource
  parsed : parseJournalSuperblock superblock = .ok source
  reader : JournalBlockReader source.blockSize
  readBlock_zero : ∀ bs, reader.readBlock 0 = .ok bs → bs.take 1024 = superblock

/-- Timestamp encoded by a JBD2 commit block. -/
structure JbdCommitTime where
  secs : Nat
  nsecs : Nat
  deriving Repr, DecidableEq

/-- Summary of one journal transaction accepted as committed. The `u32` counters count
    blocks held in memory, so they are unbounded here. -/
structure CommittedTx where
  sequence : Nat
  commitTime : Option JbdCommitTime
  dataBlocksApplied : Nat
  dataBlocksRevoked : Nat
  dataBlocksEscaped : Nat
  revocationEntries : Nat
  descriptorBlocks : Nat
  deriving Repr, DecidableEq

/-- Fatal conditions encountered while walking the classic JBD2 log. -/
inductive StopReason where
  | badMagic
  | sequenceMismatch (expected seen : Nat)
  | descriptorBodyInvalid
  | descriptorTailChecksumInvalid
  | commitChecksumInvalid
  | revocationTailChecksumInvalid
  | dataBlockChecksumInvalid (fsBlock : Nat)
  | truncated
  deriving Repr, DecidableEq

/-- Correlated journal-block and filesystem-byte position. -/
structure JournalPosition where
  journalBlock : Nat
  fsByteOffset : Nat
  deriving Repr, DecidableEq

/-- Location and reason at which classic JBD2 replay stopped. -/
structure ReplayStop where
  lastGoodSequence : Nat
  position : JournalPosition
  reason : StopReason
  deriving Repr, DecidableEq

/-- Aggregate revocation activity observed during replay. -/
structure RevocationSummary where
  totalRecords : Nat := 0
  distinctBlocksRevoked : Nat := 0
  suppressedWrites : Nat := 0
  deriving Repr, DecidableEq

/-- Forensic record of a journal replay walk. -/
structure ReplayPlan where
  committed : List CommittedTx := []
  usedSuperblockJournalBackup : Bool := false
  stop : Option ReplayStop := none
  revocationSummary : RevocationSummary := {}
  deriving Repr, DecidableEq

/-- Per-block latest-write record: sequence, transaction index, content, escape. -/
structure LatestWrite where
  sequence : Nat
  txIndex : Nat
  content : Bytes
  escape : Bool
  deriving Repr, DecidableEq

/-- One committed write without its content. -/
structure CommittedMeta where
  fsBlock : Nat
  sequence : Nat
  txIndex : Nat
  escape : Bool
  deriving Repr, DecidableEq

structure WalkState where
  expectedSeq : Nat
  cur : Nat
  first : Nat
  maxlen : Nat
  blockSize : Nat
  is64bit : Bool
  mode : JournalChecksumMode
  seed : UInt32
  scratch : Bytes
  pending : PendingTx
  committedMeta : List CommittedMeta
  latest : Std.TreeMap Nat LatestWrite
  revocations : Std.TreeMap Nat Nat
  planCommitted : List CommittedTx
  requests : List Nat

/-- The CRC32C seed of the walk, `0` for journals without CRC32C checksums. -/
def JournalSource.seed [Crc] (source : JournalSource) : UInt32 :=
  if source.version = .v2 ∧ source.checksumMode.isCrc32c then journalCsumSeed source.uuid else 0

def WalkState.new [Crc] (source : JournalSource) : WalkState where
  expectedSeq := source.sequence
  cur := source.start
  first := source.first
  maxlen := source.maxlen
  blockSize := source.blockSize
  is64bit := source.features.is64bit
  mode := source.checksumMode
  seed := source.seed
  scratch := List.replicate source.blockSize 0
  pending := {}
  committedMeta := []
  latest := ∅
  revocations := ∅
  planCommitted := []
  requests := []

/-- Advance a journal block index by one, wrapping from `maxlen` back to `first`. -/
def WalkState.nextBlock (st : WalkState) (block : Nat) : Nat :=
  let next := (block + 1) % 2 ^ 32
  if next > st.maxlen then st.first else next

/-- Record that `block` was requested from the reader. -/
def WalkState.request (st : WalkState) (block : Nat) : WalkState :=
  { st with requests := st.requests ++ [block] }

/-- The state with `block` read into its scratch buffer. -/
def WalkState.withScratch (st : WalkState) (block : Bytes) : WalkState :=
  { st with scratch := block }

/-- `st.pending.writes.push(..)`. -/
def WalkState.pushWrite (st : WalkState) (w : PendingWrite) : WalkState :=
  { st with pending := { st.pending with writes := st.pending.writes ++ [w] } }

/-- `st.pending.descriptor_count += 1`. -/
def WalkState.countDescriptor (st : WalkState) : WalkState :=
  { st with pending := { st.pending with descriptorCount := st.pending.descriptorCount + 1 } }

/-! ### Block handlers

Each handler takes `&mut WalkState`: it returns the state it leaves behind together with
its result, `some reason` when the walk has to stop. -/

/-- The loop of `process_descriptor` over the remaining tags; `block` is the journal
    block of the next tag's data. -/
def processTags [Crc] {bs : Nat} (reader : JournalBlockReader bs) (st : WalkState) (block : Nat) :
    List (Except ExtError ParsedTag) → Except ExtError (Option StopReason) × WalkState
  | [] => (.ok none, { st with cur := block })
  | .error (.invalidJournalSuperblock _) :: _ => (.ok (some .descriptorBodyInvalid), st)
  | .error e :: _ => (.error e, st)
  | .ok tag :: rest =>
    let st := st.request block
    match reader.readBlock block with
    | .error (.unexpectedEof _ _) => (.ok (some .truncated), st)
    | .error e => (.error e, st)
    | .ok data =>
      if st.mode.isCrc32c ∧
          (tagBlockChecksum st.mode st.seed st.expectedSeq data).toNat ≠ tag.checksum then
        (.ok (some (.dataBlockChecksumInvalid tag.fsBlock)), st)
      else
        let st := st.pushWrite { fsBlock := tag.fsBlock, content := data, escape := tag.escape }
        processTags reader st (st.nextBlock block) rest

/-- The last four bytes of a descriptor or revocation block hold its checksum. -/
def tailChecksumOk [Crc] (seed : UInt32) (scratch : Bytes) : Bool :=
  let off := scratch.length - 4
  (blockTailChecksumSplit seed (scratch.take off) []).toNat == scratch.be32 off

def processDescriptor [Crc] {bs : Nat} (reader : JournalBlockReader bs) (st : WalkState) :
    Except ExtError (Option StopReason) × WalkState :=
  if st.mode.isCrc32c ∧ !tailChecksumOk st.seed st.scratch then
    (.ok (some .descriptorTailChecksumInvalid), st)
  else
    let bodyEnd := if st.mode.isCrc32c then st.scratch.length - 4 else st.scratch.length
    let st := st.countDescriptor
    let block := st.nextBlock st.cur
    let tags := parseDescriptorTags (st.scratch.slice 12 (bodyEnd - 12)) st.mode st.is64bit
    processTags reader st block tags

/-- The entries of a revocation block between `offset` and `dataEnd`. -/
def revocationEntries (scratch : Bytes) (is64bit : Bool) (dataEnd : Nat) : Nat → Nat → List Nat
  | 0, _ => []
  | fuel + 1, offset =>
    let entryWidth := if is64bit then 8 else 4
    if offset + entryWidth ≤ dataEnd then
      let block := if is64bit then scratch.be64 offset else scratch.be32 offset
      block :: revocationEntries scratch is64bit dataEnd fuel (offset + entryWidth)
    else []

def processRevocation [Crc] (st : WalkState) : Option StopReason × WalkState :=
  let rCount := st.scratch.be32 12
  if rCount < 16 ∨ rCount > st.scratch.length then
    (some .revocationTailChecksumInvalid, st)
  else if st.mode.isCrc32c ∧ !tailChecksumOk st.seed st.scratch then
    (some .revocationTailChecksumInvalid, st)
  else
    let dataEnd := if st.mode.isCrc32c then min rCount (st.scratch.length - 4) else rCount
    let entries := revocationEntries st.scratch st.is64bit dataEnd dataEnd 16
    (none, { st with
      pending := { st.pending with revocations := st.pending.revocations ++ entries }
      cur := st.nextBlock st.cur })

/-- The checksum test at the head of `process_commit`. -/
def commitChecksumOk [Crc] (st : WalkState) : Bool :=
  match st.mode with
  | .v2Crc32c | .v3Crc32c =>
    (blockTailChecksumSplit st.seed (st.scratch.take 0x10) (st.scratch.drop 0x14)).toNat ==
      st.scratch.be32 0x10
  | .compatCrc32 =>
    (Crc.crc32 (st.pending.writes.flatMap (·.content))).toNat == st.scratch.be32 0x10
  | .none => true

/-- `entry(blk).or_insert(0)`, raised to `sequence`. -/
def recordRevocation (sequence : Nat) (revocations : Std.TreeMap Nat Nat) (blk : Nat) :
    Std.TreeMap Nat Nat :=
  let entry := revocations.getD blk 0
  revocations.insert blk (if sequence > entry then sequence else entry)

def processCommit [Crc] (st : WalkState) : Option StopReason × WalkState :=
  if !commitChecksumOk st then
    (some .commitChecksumInvalid, st)
  else
    let txIndex := st.planCommitted.length
    let sequence := st.expectedSeq
    let secs := st.scratch.be64 0x30
    let nsecs := st.scratch.be32 0x38
    let tx : CommittedTx := {
      sequence
      commitTime := if secs = 0 ∧ nsecs = 0 then none else some { secs, nsecs }
      dataBlocksApplied := 0
      dataBlocksRevoked := 0
      dataBlocksEscaped := 0
      revocationEntries := min st.pending.revocations.length (2 ^ 32 - 1)
      descriptorBlocks := st.pending.descriptorCount }
    (none, { st with
      revocations := st.pending.revocations.foldl (recordRevocation sequence) st.revocations
      committedMeta := st.committedMeta ++ st.pending.writes.map (fun pw =>
        { fsBlock := pw.fsBlock, sequence, txIndex, escape := pw.escape })
      latest := st.pending.writes.foldl (fun latest pw => latest.insert pw.fsBlock
        { sequence, txIndex, content := pw.content, escape := pw.escape }) st.latest
      planCommitted := st.planCommitted ++ [tx]
      pending := {}
      expectedSeq := (st.expectedSeq + 1) % 2 ^ 32
      cur := st.nextBlock st.cur })

def stopHere (st : WalkState) (reason : StopReason) : ReplayStop where
  lastGoodSequence := match st.planCommitted.getLast? with
    | some t => t.sequence
    | none => (st.expectedSeq + (2 ^ 32 - 1)) % 2 ^ 32
  position := { journalBlock := st.cur, fsByteOffset := st.cur * st.blockSize }
  reason := reason

/-! ### The walk -/

/-- How the loop of `walk` was left: by `break`, with the stop recorded in the plan, or
    by returning an error. -/
inductive LoopExit where
  | done (stop : Option ReplayStop)
  | failed (e : ExtError)

/-- The variables of the loop of `walk`; `exit` is set once the loop has been left. -/
structure WalkLoop where
  st : WalkState
  iterations : Nat
  exit : Option LoopExit

/-- The dispatch on `h_blocktype`, for a block already in `st.scratch`. The outer `none`
    is the unknown-type arm. -/
def processBlock [Crc] {bs : Nat} (reader : JournalBlockReader bs) (st : WalkState)
    (blocktype : Nat) : Option (Except ExtError (Option StopReason) × WalkState) :=
  if blocktype = BT_DESCRIPTOR then
    some (processDescriptor reader st)
  else if blocktype = BT_REVOCATION then
    let (outcome, st) := processRevocation st
    some (.ok outcome, st)
  else if blocktype = BT_COMMIT then
    let (outcome, st) := processCommit st
    some (.ok outcome, st)
  else none

/-- One iteration of the loop of `walk`, entered with `w.exit = none`. -/
def walkIteration [Crc] {bs : Nat} (reader : JournalBlockReader bs) (source : JournalSource)
    (startCur : Nat) (w : WalkLoop) : WalkLoop :=
  let st := w.st.request w.st.cur
  match reader.readBlock st.cur with
  | .error (.unexpectedEof _ _) =>
    { w with st, exit := some (.done (some (stopHere st .truncated))) }
  | .error e => { w with st, exit := some (.failed e) }
  | .ok block =>
    let st := st.withScratch block
    let hdr := JbdHeader.ofBytes block
    if hdr.hMagic ≠ JBD_MAGIC then
      { w with st, exit := some (.done (some (stopHere st .badMagic))) }
    else if hdr.hSequence ≠ st.expectedSeq then
      { w with st, exit := some (.done (some
          (stopHere st (.sequenceMismatch st.expectedSeq hdr.hSequence)))) }
    else
      match processBlock reader st hdr.hBlocktype with
      | none => { w with st, exit := some (.done (some (stopHere st .badMagic))) }
      | some (.error e, st) => { w with st, exit := some (.failed e) }
      | some (.ok (some reason), st) =>
        { w with st, exit := some (.done (some (stopHere st reason))) }
      | some (.ok none, st) =>
        let iterations := (w.iterations + 1) % 2 ^ 32
        let st := if st.cur > source.maxlen then { st with cur := source.first } else st
        let exit := if st.cur = startCur ∧ iterations > 0 then some (.done none) else none
        { st, iterations, exit }

/-- The loop of `walk` after `n` iterations (fewer if it was left before). -/
def walkRun [Crc] {bs : Nat} (reader : JournalBlockReader bs) (source : JournalSource) :
    Nat → WalkLoop
  | 0 =>
    let st := WalkState.new source
    { st, iterations := 0, exit := if st.cur = 0 then some (.done none) else none }
  | n + 1 =>
    let w := walkRun reader source n
    if w.exit.isSome then w else walkIteration reader source source.start w

/-- The value of `walk`, if it has left its loop within `n` iterations. -/
def walk [Crc] {bs : Nat} (reader : JournalBlockReader bs) (source : JournalSource)
    (plan : ReplayPlan) (n : Nat) : Option (Except ExtError (WalkState × ReplayPlan)) :=
  let w := walkRun reader source n
  match w.exit with
  | none => none
  | some (.failed e) => some (.error e)
  | some (.done stop) =>
    let committed := w.st.planCommitted
    some (.ok ({ w.st with planCommitted := [] }, { plan with
      committed
      stop
      revocationSummary := { plan.revocationSummary with
        totalRecords := (committed.map (·.revocationEntries)).sum } }))

/-! ### The overlay -/

/-- `revocations.get(&fs_block).copied().unwrap_or(0) > sequence`. -/
def suppressed (revocations : Std.TreeMap Nat Nat) (fsBlock sequence : Nat) : Bool :=
  revocations.getD fsBlock 0 > sequence

end Fsmnt.FsExt
