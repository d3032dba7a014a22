import Fsmnt.Spec.FsExt.JournalWalk

/-!
# How far the walk goes

Two properties of the walk as a loop over journal blocks: whether it ends, and which
blocks it asks for.
-/

namespace Fsmnt.FsExt

open Bytes List

section

variable [Crc]

/-! ### Termination -/

section

variable {j : OpenJournal}

/-- A log that does not have `n` records ends at some earlier position. -/
theorem exists_logEnd {next : Nat → Nat} {n : Nat} (h : logIter j next n = none) :
    ∃ m s, m < n ∧ logIter j next m = some s ∧ logIter j next (m + 1) = none := by
  induction n with
  | zero => cases h
  | succ n ih =>
    cases hn : logIter j next n with
    | none =>
      obtain ⟨m, s, hmn, hs, hend⟩ := ih hn
      exact ⟨m, s, by omega, hs, hend⟩
    | some s => exact ⟨n, s, by omega, hn, h⟩

/-- A closed chain keeps the walk in its loop. -/
theorem walkRun_exit_of_closedChain (h : ClosedChain j) (n : Nat) :
    (walkRun j.reader j.source n).exit = none := by
  obtain ⟨s₁, hs₁⟩ := logIter_isSome_of_closedChain h (n + 1)
  obtain ⟨s, r, hs, hne, _⟩ := logIter_succ_eq_some.mp hs₁
  have hstart : j.source.start ≠ 0 := by
    obtain ⟨t, ht⟩ := logIter_isSome_of_closedChain h 1
    obtain ⟨s₀, r₀, hs₀, _, hrec₀, _⟩ := logIter_succ_eq_some.mp ht
    cases hs₀
    exact readRecord_block_ne_zero hrec₀
  obtain ⟨_, _, hexit, _⟩ := walkRun_simulates hstart hs
  rw [hexit, if_neg (by omega)]

/-- Without a closed chain the walk leaves its loop. -/
theorem walkRun_exit_of_not_closedChain (h : ¬ ClosedChain j) :
    ∃ n, (walkRun j.reader j.source n).exit.isSome = true := by
  by_cases hstart : j.source.start = 0
  · refine ⟨0, ?_⟩
    have hcur : (WalkState.new j.source).cur = 0 := hstart
    simp [walkRun, hcur]
  -- the log has fewer than `2 ^ 32` records
  cases hlong : logIter j j.source.nextBlock (2 ^ 32) with
  | some s => exact absurd (exists_closedChain_of_long hlong) h
  | none =>
    obtain ⟨m, s, _, hs, hend⟩ := exists_logEnd hlong
    exact ⟨m + 1, (walkRun_stopped hstart (m + 1) hs hend (by omega)).1⟩

/-- The walk over a journal executes finitely many iterations if and only if the log does
    not enter a chain of descriptor and revocation blocks of one transaction that closes on
    itself without passing the start of the log. -/
theorem walk_terminates_iff (j : OpenJournal) :
    (∃ n, (walkRun j.reader j.source n).exit.isSome = true) ↔ ¬ ClosedChain j := by
  constructor
  · rintro ⟨n, hexit⟩ hchain
    rw [walkRun_exit_of_closedChain hchain n] at hexit
    cases hexit
  · exact walkRun_exit_of_not_closedChain

/-! ### The log area -/

/-- The first journal block after the main log: `s_maxlen` counts all blocks of the
    journal, the last of which are the fast-commit blocks. -/
def JournalSource.logEnd (source : JournalSource) : Nat :=
  source.maxlen - source.effectiveNumFcBlocks

/-- The log starts in the log area and, read block after block from there, ends before the
    area does. -/
def LogFitsArea (j : OpenJournal) : Prop :=
  j.source.start = 0 ∨ (j.source.first ≤ j.source.start ∧
      ∀ n, ∀ i ∈ logRequests j (· + 1) n, i < j.source.logEnd)

/-- The walk requests exactly the blocks of its log. -/
private theorem walkRun_requests (hstart : j.source.start ≠ 0) (n : Nat) :
    (walkRun j.reader j.source n).st.requests = logRequests j j.source.nextBlock n := by
  cases hn : logIter j j.source.nextBlock n with
  | some s => exact (walkRun_simulates hstart hn).2.2.2
  | none =>
    obtain ⟨m, s, hmn, hs, hend⟩ := exists_logEnd hn
    exact (walkRun_stopped hstart n hs hend hmn).2.2.2

/-- A walk that has nothing to replay does not enter its loop. -/
theorem walkRun_of_clean (hstart : j.source.start = 0) (n : Nat) :
    walkRun j.reader j.source n = walkRun j.reader j.source 0 := by
  have hcur : (WalkState.new j.source).cur = 0 := hstart
  induction n with
  | zero => rfl
  | succ n ih => simp [walkRun, ih, hcur]

/-- Inside the log area the ring order is the straight one. -/
private theorem nextBlock_eq_succ (b : Nat) (hb : b < j.source.logEnd) :
    j.source.nextBlock b = b + 1 := by
  have hmax := j.valid.maxlen_lt
  have hle : j.source.logEnd ≤ j.source.maxlen := Nat.sub_le _ _
  have hmod : (b + 1) % 2 ^ 32 = b + 1 := Nat.mod_eq_of_lt (by omega)
  simp only [JournalSource.nextBlock, hmod]
  exact if_neg (by omega)

/-- Read straight on, the log only requests blocks from its start on. -/
private theorem le_logRequests_succ (n : Nat) :
    (∀ i ∈ logRequests j (· + 1) n, j.source.start ≤ i) ∧
      ∀ s, logIter j (· + 1) n = some s → j.source.start ≤ s.block := by
  have hnext : ∀ b, j.source.start ≤ b → j.source.start ≤ b + 1 := fun _ => Nat.le_succ_of_le
  induction n with
  | zero =>
    refine ⟨by simp [logRequests], ?_⟩
    intro s hs
    cases hs
    exact Nat.le_refl _
  | succ n ih =>
    obtain ⟨hreq, hblock⟩ := ih
    constructor
    · intro i hi
      rcases mem_append.mp hi with hi | hi
      · exact hreq i hi
      split at hi
      · simp at hi
      rename_i s hs
      split at hi
      · simp at hi
      · have hs := hblock s hs
        exact ((readRecord_keeps hnext (hnext _ hs)).1 i hi).elim (fun h => h ▸ hs) id
    · intro s hs
      obtain ⟨s₀, r, hs₀, _, hrec, rfl⟩ := logIter_succ_eq_some.mp hs
      exact (readRecord_keeps hnext (hnext _ (hblock s₀ hs₀))).2 r hrec

/-- The first block a log requests is its start. -/
private theorem start_mem_logRequests (next : Nat → Nat) :
    j.source.start ∈ logRequests j next 1 := by
  simp only [logRequests, logIter, LogState.start, nil_append, Nat.lt_irrefl, false_and,
    if_false, readRecord]
  split
  · simp
  · split <;> simp

end

/-- Every journal block the walk requests lies in the main log, between `s_first` and the
    fast-commit area, if and only if there is nothing to replay or the log starts at or
    after `s_first` and, read block after block, does not reach the end of the log area. -/
theorem walk_requests_iff (j : OpenJournal) : (∀ n, ∀ i ∈ (walkRun j.reader j.source n).st.requests,
      j.source.first ≤ i ∧ i < j.source.logEnd) ↔ LogFitsArea j := by
  by_cases hstart : j.source.start = 0
  · constructor
    · intro _
      exact .inl hstart
    · intro _ n i hi
      rw [walkRun_of_clean hstart n] at hi
      cases hi
  constructor
  · intro h
    simp only [walkRun_requests hstart] at h
    right
    refine ⟨(h 1 _ (start_mem_logRequests _)).1, ?_⟩
    intro n i hi
    -- the ring order has not been used beyond the area, so the straight log is the same
    obtain ⟨_, heq⟩ := log_congr (fun b hb => (nextBlock_eq_succ b hb).symm)
      (fun i hi => (h n i hi).2)
    rw [heq] at hi
    exact (h n i hi).2
  · rintro (hzero | ⟨hfirst, hfits⟩) n i hi
    · exact absurd hzero hstart
    · rw [walkRun_requests hstart] at hi
      obtain ⟨_, heq⟩ := log_congr nextBlock_eq_succ (hfits n)
      rw [heq] at hi
      have hge := (le_logRequests_succ n).1 i hi
      exact ⟨by omega, hfits n i hi⟩

end

/-! ### Two small journals

Journals of 1024-byte blocks, given block by block. -/

section

attribute [local instance] Crc.standard

/-- A journal block with the given type, sequence number and body. -/
def logBlock (blocktype sequence : Nat) (body : Bytes) : Bytes :=
  toBE 4 JBD_MAGIC ++ toBE 4 blocktype ++ toBE 4 sequence ++ body ++
    replicate (1012 - body.length) 0

/-- A version-1 superblock with `s_first = 1`, `s_sequence = 1`. -/
def superblockV1 (maxlen start : Nat) : Bytes :=
  logBlock 3 0 (toBE 4 1024 ++ toBE 4 maxlen ++ toBE 4 1 ++ toBE 4 1 ++ toBE 4 start)

/-- The reader of a journal file with the given blocks. -/
def fileReader (blockSize : Nat) (blocks : List Bytes) : JournalBlockReader blockSize where
  readBlock n :=
    match blocks[n]? with
    | some b => if b.length = blockSize then .ok b else .error .io
    | none => .error (.unexpectedEof "journal block read" (n * blockSize))
  length_readBlock n bs h := by
    split at h
    · split at h
      · cases h; assumption
      · cases h
    · cases h

/-- The journal whose file is the given superblock followed by the given blocks. -/
def OpenJournal.ofFile (superblock : Bytes) (source : JournalSource) (blocks : List Bytes)
    (hparsed : parseJournalSuperblock superblock = .ok source)
    (hlen : superblock.length = 1024) : OpenJournal where
  superblock := superblock
  source := source
  parsed := hparsed
  reader := fileReader source.blockSize (superblock :: blocks)
  readBlock_zero := by
    intro bs h
    simp only [fileReader, getElem?_cons_zero] at h
    split at h
    · cases h
      rw [← hlen, take_length]
    · cases h

/-- A descriptor tag of the legacy layout: same UUID, and the last one or not. -/
def legacyTag (fsBlock : Nat) (last : Bool) : Bytes :=
  toBE 4 fsBlock ++ [0, 0, 0, if last then 0xA else 0x2]

/-- Three descriptor blocks of transaction 1. The one at block 1 takes one data block and
    leads to block 3, that one wraps over block 1 to block 2, and the one at block 2 takes
    blocks 3 and 1 and leads back to block 2. -/
private def circlingBlocks : List Bytes := [
  logBlock BT_DESCRIPTOR 1 (legacyTag 7 true),
  logBlock BT_DESCRIPTOR 1 (legacyTag 7 false ++ legacyTag 8 true),
  logBlock BT_DESCRIPTOR 1 (legacyTag 7 true)]

/-- The source parsed from `superblockV1 maxlen start`. -/
def sourceV1 (maxlen start : Nat) : JournalSource where
  blockSize := 1024
  maxlen := maxlen
  first := 1
  sequence := 1
  start := start
  version := .v1
  features := {}
  checksumMode := .none
  uuid := replicate 16 0
  numFcBlocks := 0

/-- The journal of `circlingBlocks`. -/
def circlingJournal : OpenJournal :=
  .ofFile (superblockV1 3 1) (sourceV1 3 1) circlingBlocks (by decide +kernel) (by decide +kernel)

/-- On `circlingJournal` the walk never leaves its loop. -/
theorem walk_circles : ¬ ∃ n,
    (walkRun circlingJournal.reader circlingJournal.source n).exit.isSome = true := by
  rintro ⟨n, hexit⟩
  have htwo : (logIter circlingJournal circlingJournal.source.nextBlock 2).map
      (fun s => (s.block, s.sequence)) = some (2, 1) := by decide +kernel
  obtain ⟨s, hs, hpos⟩ := Option.map_eq_some_iff.mp htwo
  obtain ⟨hblock, hseq⟩ := Prod.mk.inj hpos
  have hhop : Option.iter (openHop circlingJournal 1) 1 2 = some 2 := by decide +kernel
  have hchain : ClosedChain circlingJournal :=
    ⟨2, s, 1, hs, by decide, by rw [hblock, hseq]; exact hhop⟩
  rw [walkRun_exit_of_closedChain hchain n] at hexit
  cases hexit

/-- A version-2 superblock with `s_maxlen = 5`, of which the last two blocks are for fast
    commits. The log starts at block 3. -/
private def fastCommitSuperblock : Bytes :=
  logBlock 4 0 (toBE 4 1024 ++ toBE 4 5 ++ toBE 4 1 ++ toBE 4 1 ++ toBE 4 3 ++ replicate 8 0 ++
    toBE 4 JBD_FEATURE_INCOMPAT_FAST_COMMIT ++ replicate 40 0 ++ toBE 4 2)

/-- One transaction that wraps in front of the fast-commit blocks 4 and 5: its descriptor at
    block 3, then its data at block 1 and its commit at block 2. -/
private def fastCommitBlocks : List Bytes := [
  replicate 1024 0x55,
  logBlock BT_COMMIT 1 [],
  logBlock BT_DESCRIPTOR 1 (legacyTag 7 true),
  replicate 1024 0,
  replicate 1024 0]

/-- The journal of `fastCommitBlocks`. -/
def fastCommitJournal : OpenJournal :=
  .ofFile fastCommitSuperblock
    { sourceV1 5 3 with version := .v2, features := { fastCommit := true }, numFcBlocks := 2 }
    fastCommitBlocks (by decide +kernel) (by decide +kernel)

/-- On `fastCommitJournal` the walk takes block 4 for the data of the transaction, a block that
    `FastCommitReplay::build` reads as the first of the fast-commit area. -/
theorem walk_leaves_log_area :
    (∃ n, fastCommitJournal.source.fcFirst ∈
      (walkRun fastCommitJournal.reader fastCommitJournal.source n).st.requests) ∧
    ¬ ∀ n, ∀ i ∈ (walkRun fastCommitJournal.reader fastCommitJournal.source n).st.requests,
      fastCommitJournal.source.first ≤ i ∧ i < fastCommitJournal.source.logEnd := by
  have hreq : (walkRun fastCommitJournal.reader fastCommitJournal.source 2).st.requests =
      [3, 4, 5] := by decide +kernel
  have hfour : fastCommitJournal.source.fcFirst ∈
      (walkRun fastCommitJournal.reader fastCommitJournal.source 2).st.requests := by
    rw [hreq]
    decide +kernel
  refine ⟨⟨2, hfour⟩, fun h => ?_⟩
  exact absurd (h 2 _ hfour).2 (by decide +kernel)

end

end Fsmnt.FsExt
