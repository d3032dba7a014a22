import Fsmnt.Native.FsExt.JournalReplay

/-!
# The log of a journal

What the journal means, independently of how the walk gets through it. A log is read
record by record: a record is a descriptor block together with the data blocks it
announces, a revocation block, or a commit block. `readRecord` decodes the record at a
position, all or nothing, and says which journal blocks have to be read for it;
`logIter n` is the position and the committed transactions after `n` records.

The order in which journal blocks follow each other is a parameter `next`: the walk uses
its ring, and the same log can be read along a straight line.
-/

namespace Fsmnt.FsExt

open JbdHeader Option

variable [Crc]

/-- A committed transaction of the log. -/
structure LogTx where
  sequence : Nat
  writes : List PendingWrite
  revocations : List Nat

/-- A position in the log: the next block to read, the open transaction's sequence number,
    writes and revocations, and the transactions committed before it. -/
structure LogState where
  block : Nat
  sequence : Nat
  writes : List PendingWrite := []
  revocations : List Nat := []
  committed : List LogTx := []

/-- A valid record, and the journal block after it. -/
inductive LogRecord where
  | descriptor (writes : List PendingWrite) (after : Nat)
  | revocation (blocks : List Nat) (after : Nat)
  | commit (after : Nat)

/-- The position after a record. -/
def LogState.apply (s : LogState) : LogRecord → LogState
  | .descriptor ws after => { s with block := after, writes := s.writes ++ ws }
  | .revocation bs after => { s with block := after, revocations := s.revocations ++ bs }
  | .commit after => {
      block := after
      sequence := (s.sequence + 1) % 2 ^ 32
      committed := s.committed ++ [{ s with }] }

/-! ### Decoding a record -/

/-- The data blocks of the tags, read from `block` on: the blocks requested, and if all of
    them are there and valid the writes and the block after the last one. -/
def readTags (j : OpenJournal) (next : Nat → Nat) (sequence : Nat) :
    Nat → List (Except ExtError ParsedTag) → List Nat × Option (List PendingWrite × Nat)
  | block, [] => ([], some ([], block))
  | _, .error _ :: _ => ([], none)
  | block, .ok tag :: rest =>
    match j.reader.readBlock block with
    | .error _ => ([block], none)
    | .ok data =>
      if j.source.checksumMode.isCrc32c ∧
          (tagBlockChecksum j.source.checksumMode j.source.seed sequence data).toNat ≠
            tag.checksum then ([block], none)
      else
        let (requests, result) := readTags j next sequence (next block) rest
        (block :: requests, result.map (fun (ws, after) =>
          ({ fsBlock := tag.fsBlock, content := data, escape := tag.escape } :: ws, after)))

/-- The tags of a descriptor block, if its checksum is valid. -/
def descriptorTags (source : JournalSource) (block : Bytes) :
    Option (List (Except ExtError ParsedTag)) :=
  if source.checksumMode.isCrc32c ∧ !tailChecksumOk source.seed block then none
  else
    let bodyEnd := if source.checksumMode.isCrc32c then block.length - 4 else block.length
    some (parseDescriptorTags (block.slice 12 (bodyEnd - 12)) source.checksumMode
      source.features.is64bit)

/-- The blocks a revocation block revokes, if it is valid. -/
def revokedBlocks (source : JournalSource) (block : Bytes) : Option (List Nat) :=
  let rCount := block.be32 12
  if rCount < 16 ∨ rCount > block.length then none
  else if source.checksumMode.isCrc32c ∧ !tailChecksumOk source.seed block then none
  else
    let dataEnd := if source.checksumMode.isCrc32c then min rCount (block.length - 4) else rCount
    some (revocationEntries block source.features.is64bit dataEnd dataEnd 16)

/-- A commit block authenticates the transaction's writes. -/
def commitValid (source : JournalSource) (block : Bytes) (writes : List PendingWrite) : Bool :=
  match source.checksumMode with
  | .v2Crc32c | .v3Crc32c =>
    (blockTailChecksumSplit source.seed (block.take 0x10) (block.drop 0x14)).toNat ==
      block.be32 0x10
  | .compatCrc32 => (Crc.crc32 (writes.flatMap (·.content))).toNat == block.be32 0x10
  | .none => true

/-- The record a block of the right sequence number starts. -/
def decodeRecord (j : OpenJournal) (next : Nat → Nat) (s : LogState) (block : Bytes) :
    List Nat × Option LogRecord :=
  let blocktype := (ofBytes block).hBlocktype
  if blocktype = BT_DESCRIPTOR then
    match descriptorTags j.source block with
    | none => ([], none)
    | some tags =>
      let (requests, result) := readTags j next s.sequence (next s.block) tags
      (requests, result.map (fun (ws, after) => .descriptor ws after))
  else if blocktype = BT_REVOCATION then
    ([], (revokedBlocks j.source block).map (.revocation · (next s.block)))
  else if blocktype = BT_COMMIT then
    ([], if commitValid j.source block s.writes then some (.commit (next s.block)) else none)
  else ([], none)

/-- The record at a position: the journal blocks requested to read it, and the record if
    it continues the log. -/
def readRecord (j : OpenJournal) (next : Nat → Nat) (s : LogState) : List Nat × Option LogRecord :=
  match j.reader.readBlock s.block with
  | .error _ => ([s.block], none)
  | .ok block =>
    let hdr := ofBytes block
    if hdr.hMagic = JBD_MAGIC ∧ hdr.hSequence = s.sequence then
      let (requests, record) := decodeRecord j next s block
      (s.block :: requests, record)
    else ([s.block], none)

/-- A journal block that is a descriptor with all its data blocks, a revocation or a
    commit block, at position `s`. -/
inductive IsRecord (j : OpenJournal) (next : Nat → Nat) (s : LogState) (block : Bytes) :
    LogRecord → Prop where
  | descriptor (tags : List (Except ExtError ParsedTag)) (ws : List PendingWrite) (after : Nat)
    (htype : (ofBytes block).hBlocktype = BT_DESCRIPTOR)
    (htags : descriptorTags j.source block = some tags)
    (hread : (readTags j next s.sequence (next s.block) tags).2 = some (ws, after)) :
    IsRecord j next s block (.descriptor ws after)
  | revocation (bs : List Nat)
    (htype : (ofBytes block).hBlocktype = BT_REVOCATION)
    (hrev : revokedBlocks j.source block = some bs) :
    IsRecord j next s block (.revocation bs (next s.block))
  | commit
    (htype : (ofBytes block).hBlocktype = BT_COMMIT)
    (hvalid : commitValid j.source block s.writes = true) :
    IsRecord j next s block (.commit (next s.block))

variable {j : OpenJournal} {next next' : Nat → Nat} {s s' : LogState} {r : LogRecord} {n : Nat}

/-- What `decodeRecord` accepts. -/
private theorem decodeRecord_eq_some (block : Bytes) :
    (decodeRecord j next s block).2 = some r ↔ IsRecord j next s block r := by
  have h15 : BT_DESCRIPTOR ≠ BT_REVOCATION := by decide
  have h12 : BT_DESCRIPTOR ≠ BT_COMMIT := by decide
  have h52 : BT_REVOCATION ≠ BT_COMMIT := by decide
  simp only [decodeRecord]
  constructor
  · intro h
    split at h
    · rename_i htype
      cases htags : descriptorTags j.source block with
      | none => rw [htags] at h; cases h
      | some tags =>
        rw [htags] at h
        simp only [map_eq_some_iff] at h
        obtain ⟨⟨ws, after⟩, hread, rfl⟩ := h
        exact .descriptor tags ws after htype htags hread
    split at h
    · rename_i htype
      simp only [map_eq_some_iff] at h
      obtain ⟨bs, hrev, rfl⟩ := h
      exact .revocation bs htype hrev
    split at h
    · rename_i htype
      split at h
      · rename_i hvalid; cases h; exact .commit htype hvalid
      · cases h
    · cases h
  · intro h
    cases h with
    | descriptor tags ws after htype htags hread => simp [htype, htags, hread]
    | revocation bs htype hrev => simp [htype, hrev, h15.symm]
    | commit htype hvalid => simp [htype, hvalid, h12.symm, h52.symm]

/-- A position has a record exactly when its block carries the journal magic and the
    expected sequence number and is a valid record. -/
theorem readRecord_eq_some : (readRecord j next s).2 = some r ↔
      ∃ block, j.reader.readBlock s.block = .ok block ∧ (ofBytes block).hMagic = JBD_MAGIC ∧
        (ofBytes block).hSequence = s.sequence ∧ IsRecord j next s block r := by
  simp only [← decodeRecord_eq_some, readRecord]
  constructor
  · intro h
    split at h
    · cases h
    rename_i block hread
    split at h
    · rename_i hhdr; exact ⟨block, hread, hhdr.1, hhdr.2, h⟩
    · cases h
  · rintro ⟨block, hread, hmagic, hseq, h⟩
    simp only [hread, hmagic, hseq]
    exact h

/-! ### Reading the log -/

/-- Where the superblock says the log starts. -/
def LogState.start (source : JournalSource) : LogState where
  block := source.start
  sequence := source.sequence

/-- The position after `n` records, if the log has that many. The log ends where it comes
    round to its start, and at the first block that is not a valid record of it. -/
def logIter (j : OpenJournal) (next : Nat → Nat) : Nat → Option LogState
  | 0 => some (LogState.start j.source)
  | n + 1 =>
    match logIter j next n with
    | none => none
    | some s =>
      if 0 < n ∧ s.block = j.source.start then none
      else (readRecord j next s).2.map s.apply

/-- The journal blocks requested to read the first `n` records, or to find that the log ends
    before them. -/
def logRequests (j : OpenJournal) (next : Nat → Nat) : Nat → List Nat
  | 0 => []
  | n + 1 =>
    logRequests j next n ++ match logIter j next n with
      | none => []
      | some s =>
        if 0 < n ∧ s.block = j.source.start then [] else (readRecord j next s).1

/-- `txs` are the transactions of the log that reached a valid commit in sequence. -/
def LogCommits (j : OpenJournal) (next : Nat → Nat) (txs : List LogTx) : Prop :=
  ∃ n s, logIter j next n = some s ∧ logIter j next (n + 1) = none ∧ s.committed = txs

/-- The log has a next position exactly when it has not come round to its start and there
    is a record. -/
theorem logIter_succ_eq_some : logIter j next (n + 1) = some s' ↔
      ∃ s r, logIter j next n = some s ∧ (n = 0 ∨ s.block ≠ j.source.start) ∧
        (readRecord j next s).2 = some r ∧ s' = s.apply r := by
  simp only [logIter]
  constructor
  · intro h
    split at h
    · cases h
    rename_i s hs
    split at h
    · cases h
    · rename_i hne
      obtain ⟨r, hr, rfl⟩ := map_eq_some_iff.mp h
      exact ⟨s, r, hs, by omega, hr, rfl⟩
  · rintro ⟨s, r, hs, hne, hr, rfl⟩
    have hnot : ¬ (0 < n ∧ s.block = j.source.start) := by omega
    rw [hs]
    simp only [if_neg hnot, hr, map_some]

/-- A log of `n` records has every shorter prefix. -/
theorem logIter_prefix {m : Nat} (hle : m ≤ n) (h : logIter j next n = some s) :
    ∃ s', logIter j next m = some s' := by
  induction n generalizing s with
  | zero =>
    obtain rfl : m = 0 := by omega
    exact ⟨s, h⟩
  | succ n ih =>
    rcases Nat.lt_or_ge n m with hlt | hge
    · obtain rfl : m = n + 1 := by omega
      exact ⟨s, h⟩
    · obtain ⟨s₀, r, hs, _⟩ := logIter_succ_eq_some.mp h
      exact ih hge hs

/-! ### Independence of the block order

A record, and so the log, only depends on how `next` orders the blocks that are requested
for it. -/

section Congr

variable {bound : Nat} (hnext : ∀ b < bound, next' b = next b)

include hnext

/-- Two orders that agree on the requested data blocks read the same tags. -/
private theorem readTags_congr {sequence block : Nat} {tags : List (Except ExtError ParsedTag)}
    (hreq : ∀ i ∈ (readTags j next sequence block tags).1, i < bound) :
    readTags j next' sequence block tags = readTags j next sequence block tags := by
  induction tags generalizing block with
  | nil => rfl
  | cons tag rest ih =>
    cases tag with
    | error e => rfl
    | ok tag =>
      cases hread : j.reader.readBlock block with
      | error e => simp only [readTags, hread]
      | ok data =>
        simp only [readTags, hread] at hreq ⊢
        split at hreq
        · rename_i hsum; rw [if_pos hsum, if_pos hsum]
        have hblock : block < bound := hreq block (by simp)
        rw [hnext block hblock, ih fun i hi => hreq i (List.mem_cons_of_mem _ hi)]

/-- Two orders that agree on the requested blocks read the same record. -/
theorem readRecord_congr (hreq : ∀ i ∈ (readRecord j next s).1, i < bound) :
    readRecord j next' s = readRecord j next s := by
  cases hread : j.reader.readBlock s.block with
  | error e => simp only [readRecord, hread]
  | ok block =>
    simp only [readRecord, hread] at hreq ⊢
    split at hreq
    · rename_i hhdr
      have hhead : next' s.block = next s.block := hnext _ (hreq _ (by simp))
      have hdecode : decodeRecord j next' s block = decodeRecord j next s block := by
        simp only [decodeRecord, hhead] at hreq ⊢
        split
        · rename_i htype
          simp only [htype] at hreq
          cases htags : descriptorTags j.source block with
          | none => rfl
          | some tags =>
            simp only [htags] at hreq ⊢
            rw [readTags_congr hnext fun i hi => hreq i (List.mem_cons_of_mem _ hi)]
        · rfl
      rw [hdecode]
    · rename_i hhdr; rw [if_neg hhdr, if_neg hhdr]

/-- Two orders that agree on all blocks requested for the first `n` records give the same
    log up to there, and request the same blocks. -/
theorem log_congr (hreq : ∀ i ∈ logRequests j next n, i < bound) :
    logIter j next' n = logIter j next n ∧ logRequests j next' n = logRequests j next n := by
  induction n with
  | zero => exact ⟨rfl, rfl⟩
  | succ n ih =>
    simp only [logRequests, List.mem_append] at hreq
    obtain ⟨hiter, hreqs⟩ := ih (fun i hi => hreq i (.inl hi))
    simp only [logIter, logRequests, hiter, hreqs]
    cases hs : logIter j next n with
    | none => exact ⟨rfl, rfl⟩
    | some s =>
      simp only [hs] at hreq ⊢
      by_cases hback : 0 < n ∧ s.block = j.source.start
      · simp only [if_pos hback, and_self]
      simp only [if_neg hback] at hreq ⊢
      rw [readRecord_congr hnext fun i hi => hreq i (.inr hi)]
      exact ⟨rfl, rfl⟩

end Congr

section Keeps

variable {P : Nat → Prop} (hnext : ∀ b, P b → P (next b))

include hnext

/-- A property that the order keeps holds of the blocks that tags request, and of the one behind. -/
private theorem readTags_keeps {sequence block : Nat} {tags : List (Except ExtError ParsedTag)}
    (h : P block) : (∀ i ∈ (readTags j next sequence block tags).1, P i) ∧
      ∀ p, (readTags j next sequence block tags).2 = some p → P p.2 := by
  induction tags generalizing block with
  | nil => simp [readTags, h]
  | cons tag rest ih =>
    cases tag with
    | error e => simp [readTags]
    | ok tag =>
      obtain ⟨hreq, hafter⟩ := ih (hnext block h)
      simp only [readTags]
      split
      · simp [h]
      split
      · simp [h]
      refine ⟨List.forall_mem_cons.mpr ⟨h, hreq⟩, ?_⟩
      intro p hp
      obtain ⟨q, hq, rfl⟩ := map_eq_some_iff.mp hp
      exact hafter q hq

/-- The same for a record. -/
theorem readRecord_keeps (h : P (next s.block)) :
    (∀ i ∈ (readRecord j next s).1, i = s.block ∨ P i) ∧
      ∀ r, (readRecord j next s).2 = some r → P (s.apply r).block := by
  constructor
  · intro i hi
    simp only [readRecord] at hi
    split at hi
    · exact .inl (List.mem_singleton.mp hi)
    split at hi
    · rcases List.mem_cons.mp hi with rfl | hi
      · exact .inl rfl
      simp only [decodeRecord] at hi
      split at hi
      · split at hi
        · cases hi
        · exact .inr ((readTags_keeps hnext h).1 i hi)
      · split at hi
        · cases hi
        · split at hi <;> cases hi
    · exact .inl (List.mem_singleton.mp hi)
  · intro r hr
    obtain ⟨block, _, _, _, hrec⟩ := readRecord_eq_some.mp hr
    cases hrec with
    | descriptor tags ws after htype htags hread => exact (readTags_keeps hnext h).2 _ hread
    | revocation bs htype hrev | commit htype hvalid => exact h

end Keeps

end Fsmnt.FsExt
