import Fsmnt.Spec.FsExt.JournalCycle

/-!
# The walk reads the log

The loop of `walk` and the log it reads, related step by step. One iteration consumes one
record (`walkIteration_of_record`), and where the log has no further record the iteration
leaves the loop without touching what has been committed (`walkIteration_of_end`). Every
property of a whole walk comes from these two and `walkRun_simulates`.
-/

namespace Fsmnt.FsExt

open List Prod WalkState LogState JbdHeader

variable [Crc]

variable {j : OpenJournal} {st : WalkState} {block after : Nat}
  {tags : List (Except ExtError ParsedTag)} {requests : List Nat} {ws : List PendingWrite}
  {s : LogState} {r : LogRecord} {w : WalkLoop}

/-! ### The simulation relation -/

/-- The fields of the walk's state that the superblock fixes. -/
structure WalkState.Fixed (j : OpenJournal) (st : WalkState) : Prop where
  first : st.first = j.source.first
  maxlen : st.maxlen = j.source.maxlen
  blockSize : st.blockSize = j.source.blockSize
  is64bit : st.is64bit = j.source.features.is64bit
  mode : st.mode = j.source.checksumMode
  seed : st.seed = j.source.seed

theorem WalkState.Fixed.nextBlock (h : st.Fixed j) (block : Nat) :
    st.nextBlock block = j.source.nextBlock block := by
  simp only [WalkState.nextBlock, JournalSource.nextBlock, h.first, h.maxlen]

variable (txs : List LogTx)

/-- The writes of the committed transactions as `committed_meta` lists them. -/
def metaOf : List CommittedMeta :=
  txs.zipIdx.flatMap (fun (tx, i) => tx.writes.map (fun w =>
    { fsBlock := w.fsBlock, sequence := tx.sequence, txIndex := i, escape := w.escape }))

/-- The `latest` map after the writes of one transaction. -/
def recordWrites (latest : Std.TreeMap Nat LatestWrite) (tx : LogTx) (txIndex : Nat) :
    Std.TreeMap Nat LatestWrite :=
  tx.writes.foldl (fun latest w => latest.insert w.fsBlock
    { sequence := tx.sequence, txIndex, content := w.content, escape := w.escape }) latest

/-- The `latest` map after all committed transactions. -/
def latestOf : Std.TreeMap Nat LatestWrite :=
  txs.zipIdx.foldl (fun latest (tx, i) => recordWrites latest tx i) ∅

/-- The revocation map after all committed transactions. -/
def revocationsOf : Std.TreeMap Nat Nat :=
  txs.foldl (fun m tx => tx.revocations.foldl (recordRevocation tx.sequence) m) ∅

/-- The walk's tables hold exactly the transactions `txs`. -/
structure WalkState.Holds (st : WalkState) (txs : List LogTx) : Prop where
  committedMeta : st.committedMeta = metaOf txs
  latest : st.latest = latestOf txs
  revocations : st.revocations = revocationsOf txs
  sequences : st.planCommitted.map (·.sequence) = txs.map (·.sequence)
  counters : ∀ t ∈ st.planCommitted, t.dataBlocksApplied = 0 ∧ t.dataBlocksRevoked = 0

/-- The walk's state at a position of the log. -/
structure WalkState.At (j : OpenJournal) (st : WalkState) (s : LogState) : Prop where
  fixed : st.Fixed j
  expectedSeq : st.expectedSeq = s.sequence
  cur : st.cur = s.block
  writes : st.pending.writes = s.writes
  revocations : st.pending.revocations = s.revocations
  holds : st.Holds s.committed

/-- Everything but the pending transaction, the scratch buffer and the requests agrees. -/
structure WalkState.SameCommitted (st st' : WalkState) : Prop where
  blockSize : st'.blockSize = st.blockSize
  committedMeta : st'.committedMeta = st.committedMeta
  latest : st'.latest = st.latest
  revocations : st'.revocations = st.revocations
  planCommitted : st'.planCommitted = st.planCommitted

omit [Crc] in
theorem WalkState.SameCommitted.holds {st' : WalkState} {txs : List LogTx}
    (h : st.SameCommitted st') (hh : st.Holds txs) : st'.Holds txs where
  committedMeta := h.committedMeta.trans hh.committedMeta
  latest := h.latest.trans hh.latest
  revocations := h.revocations.trans hh.revocations
  sequences := by rw [h.planCommitted]; exact hh.sequences
  counters := by rw [h.planCommitted]; exact hh.counters

/-- What a handler does with the record that is read at a position of the log: the state moves
    past it, or the walk stops and only the pending transaction changes. -/
structure WalkState.Handles (j : OpenJournal) (st : WalkState) (s : LogState)
    (read : List Nat × Option LogRecord) (out : Except ExtError (Option StopReason) × WalkState) :
    Prop where
  requests : out.2.requests = st.requests ++ read.1
  moves : ∀ r, read.2 = some r → out.1 = .ok none ∧ out.2.At j (s.apply r)
  stops : read.2 = none → out.1 ≠ .ok none ∧ st.SameCommitted out.2

variable {st' : WalkState} {out : Except ExtError (Option StopReason)} (tx : LogTx)

theorem WalkState.Handles.move (hat : st'.At j (s.apply r))
    (h : st'.requests = st.requests ++ requests) :
    st.Handles j s (requests, some r) (.ok none, st') :=
  ⟨h, by rintro _ ⟨⟩; exact ⟨rfl, hat⟩, by rintro ⟨⟩⟩

theorem WalkState.Handles.stop (hout : out ≠ .ok none) (hsame : st.SameCommitted st')
    (h : st'.requests = st.requests ++ requests) : st.Handles j s (requests, none) (out, st') :=
  ⟨h, by rintro _ ⟨⟩, fun _ => ⟨hout, hsame⟩⟩

omit [Crc] in
theorem WalkState.SameCommitted.refl (st : WalkState) : st.SameCommitted st :=
  ⟨rfl, rfl, rfl, rfl, rfl⟩

/-! ### Descriptor blocks -/

/-- The record of a descriptor block from the writes that its tags lead to. -/
def descriptorRecord (read : List Nat × Option (List PendingWrite × Nat)) :
    List Nat × Option LogRecord :=
  (read.1, read.2.map fun (ws, after) => .descriptor ws after)

/-- The data blocks of a complete descriptor become pending writes, in order; an incomplete one
    ends the walk. -/
private theorem processTags_spec (hat : st.At j s) (block : Nat) : st.Handles j s
    (descriptorRecord (readTags j j.source.nextBlock s.sequence block tags))
    (processTags j.reader st block tags) := by
  induction tags generalizing st s block with
  | nil =>
    refine .move ?_ (by simp [readTags])
    exact { hat with
      fixed := { hat.fixed with }
      cur := rfl
      writes := by simp [apply, hat.writes]
      holds := { hat.holds with } }
  | cons tag rest ih =>
    have hmode : (st.request block).mode = j.source.checksumMode := hat.fixed.mode
    have hseed : (st.request block).seed = j.source.seed := hat.fixed.seed
    have hseq : (st.request block).expectedSeq = s.sequence := hat.expectedSeq
    cases tag with
    | error e => cases e <;> exact .stop (by simp) (.refl st) (append_nil _).symm
    | ok tag =>
      simp only [readTags, processTags]
      cases hread : j.reader.readBlock block with
      | error e => cases e <;> exact .stop (by simp) ⟨rfl, rfl, rfl, rfl, rfl⟩ rfl
      | ok data =>
        simp only [hmode, hseed, hseq]
        split
        · exact .stop (by simp) ⟨rfl, rfl, rfl, rfl, rfl⟩ rfl
        -- the recursive call starts with the data of the tag pending
        let w : PendingWrite := { fsBlock := tag.fsBlock, content := data, escape := tag.escape }
        have hat' : ((st.request block).pushWrite w).At j { s with writes := s.writes ++ [w] } :=
          { hat with
            fixed := { hat.fixed with }
            writes := congrArg (· ++ [w]) hat.writes
            holds := { hat.holds with } }
        obtain ⟨hreq, hmoves, hstops⟩ := ih hat' (j.source.nextBlock block)
        rw [hat'.fixed.nextBlock]
        refine ⟨by rw [hreq]; simp [descriptorRecord, request, pushWrite], ?_, fun h => ?_⟩
        · intro r hr
          obtain ⟨⟨ws, after⟩, hws, rfl⟩ := Option.map_eq_some_iff.mp hr
          obtain ⟨⟨ws', after'⟩, hws', ⟨⟩⟩ := Option.map_eq_some_iff.mp hws
          have hrest := hmoves (.descriptor ws' after') (by simp [descriptorRecord, hws'])
          simpa [apply] using hrest
        · obtain ⟨hout, hsame⟩ := hstops (by simpa [descriptorRecord] using h)
          exact ⟨hout, { hsame with }⟩

/-- `process_descriptor` checks the block and then runs over its tags. -/
private theorem processDescriptor_eq (hfixed : st.Fixed j) : processDescriptor j.reader st =
      match descriptorTags j.source st.scratch with
      | none => (.ok (some .descriptorTailChecksumInvalid), st)
      | some tags =>
        processTags j.reader st.countDescriptor (j.source.nextBlock st.cur) tags := by
  have hnext : st.countDescriptor.nextBlock st.countDescriptor.cur = j.source.nextBlock st.cur :=
    hfixed.nextBlock st.cur
  unfold processDescriptor descriptorTags
  rw [hfixed.mode, hfixed.seed]
  split
  · rfl
  · simp only [hnext]
    simp only [countDescriptor, hfixed.mode, hfixed.is64bit]

/-- `process_descriptor` follows the log. -/
private theorem processDescriptor_spec (hat : st.At j s) : st.Handles j s
    (match descriptorTags j.source st.scratch with
    | none => ([], none)
    | some tags => descriptorRecord
        (readTags j j.source.nextBlock s.sequence (j.source.nextBlock s.block) tags))
    (processDescriptor j.reader st) := by
  rw [processDescriptor_eq hat.fixed, hat.cur]
  cases descriptorTags j.source st.scratch with
  | none => exact .stop (by simp) (.refl st) (by simp)
  | some tags =>
    have hat' : st.countDescriptor.At j s :=
      { hat with fixed := { hat.fixed with }, holds := { hat.holds with } }
    obtain ⟨hreq, hmoves, hstops⟩ := processTags_spec hat' (j.source.nextBlock s.block)
    exact ⟨hreq, hmoves, fun h => ⟨(hstops h).1, { (hstops h).2 with }⟩⟩

/-! ### Revocation and commit blocks -/

/-- `process_revocation` adds the revoked blocks to the pending transaction, or stops. -/
private theorem processRevocation_eq (hfixed : st.Fixed j) : processRevocation st =
      match revokedBlocks j.source st.scratch with
      | none => (some .revocationTailChecksumInvalid, st)
      | some bs => (none, { st with
          pending := { st.pending with revocations := st.pending.revocations ++ bs }
          cur := j.source.nextBlock st.cur }) := by
  simp only [processRevocation, revokedBlocks, hfixed.mode, hfixed.seed, hfixed.is64bit,
    hfixed.nextBlock]
  split
  · rfl
  · split
    · rfl
    · rfl

omit [Crc] in
theorem metaOf_concat : metaOf (txs ++ [tx]) = metaOf txs ++ tx.writes.map (fun w =>
      { fsBlock := w.fsBlock, sequence := tx.sequence, txIndex := txs.length,
        escape := w.escape }) := by
  simp [metaOf, zipIdx_append]

omit [Crc] in
theorem latestOf_concat :
    latestOf (txs ++ [tx]) = recordWrites (latestOf txs) tx txs.length := by
  simp [latestOf, zipIdx_append]

omit [Crc] in
theorem revocationsOf_concat : revocationsOf (txs ++ [tx]) =
      tx.revocations.foldl (recordRevocation tx.sequence) (revocationsOf txs) := by
  simp [revocationsOf]

/-- `process_revocation` follows the log. -/
private theorem processRevocation_spec (hat : st.At j s) : st.Handles j s
    ([], (revokedBlocks j.source st.scratch).map (.revocation · (j.source.nextBlock s.block)))
    (.ok (processRevocation st).1, (processRevocation st).2) := by
  rw [processRevocation_eq hat.fixed]
  cases revokedBlocks j.source st.scratch with
  | none => exact .stop (by simp) (.refl st) (by simp)
  | some bs =>
    refine .move ?_ (by simp)
    exact { hat with
      fixed := { hat.fixed with }
      cur := congrArg j.source.nextBlock hat.cur
      revocations := congrArg (· ++ bs) hat.revocations
      holds := { hat.holds with } }

/-- `process_commit` files the pending transaction if the commit block is valid. -/
private theorem processCommit_spec (hat : st.At j s) : st.Handles j s
    ([], if commitValid j.source st.scratch s.writes then
      some (.commit (j.source.nextBlock s.block)) else none)
    (.ok (processCommit st).1, (processCommit st).2) := by
  have hfixed := hat.fixed
  have hlen : st.planCommitted.length = s.committed.length := by
    have := congrArg length hat.holds.sequences
    simpa using this
  have hvalid : commitChecksumOk st = commitValid j.source st.scratch st.pending.writes := by
    cases hmode : j.source.checksumMode <;>
      simp only [commitChecksumOk, commitValid, hfixed.mode, hfixed.seed, hmode]
  unfold processCommit
  rw [hvalid, hat.writes]
  cases commitValid j.source st.scratch s.writes with
  | false => exact .stop (by simp) (.refl st) (by simp)
  | true =>
    simp only [Bool.not_true, Bool.false_eq_true, if_false]
    refine .move ⟨{ hfixed with }, ?_, ?_, rfl, rfl, ?_⟩ (by simp)
    · simp only [apply, hat.expectedSeq]
    · simp only [apply, hfixed.nextBlock, hat.cur]
    · constructor
      · simp only [apply, metaOf_concat, hat.holds.committedMeta, hat.expectedSeq, hlen]
      · simp only [apply, latestOf_concat, recordWrites, hat.holds.latest, hat.expectedSeq, hlen]
      · simp only [apply, revocationsOf_concat, hat.holds.revocations, hat.revocations,
          hat.expectedSeq]
      · simp only [apply, map_append, hat.holds.sequences, map_cons, map_nil, hat.expectedSeq]
      · intro t ht
        rcases mem_append.mp ht with hold | hnew
        · exact hat.holds.counters t hold
        · rw [mem_singleton.mp hnew]
          exact ⟨rfl, rfl⟩

/-! ### One iteration -/

/-- The dispatch on a block, if it has a type that is known. -/
private theorem processBlock_spec (content : Bytes) (hat : st.At j s) (h : st.scratch = content) :
    (processBlock j.reader st (ofBytes content).hBlocktype = none ∧
      decodeRecord j j.source.nextBlock s content = ([], none)) ∨
    ∃ out, processBlock j.reader st (ofBytes content).hBlocktype = some out ∧
      st.Handles j s (decodeRecord j j.source.nextBlock s content) out := by
  subst h
  unfold processBlock decodeRecord
  dsimp only
  split
  · exact .inr ⟨_, rfl, processDescriptor_spec hat⟩
  split
  · exact .inr ⟨_, rfl, processRevocation_spec hat⟩
  split
  · exact .inr ⟨_, rfl, processCommit_spec hat⟩
  · exact .inl ⟨rfl, rfl⟩

/-- Reading a block into the scratch buffer keeps the position. -/
private theorem WalkState.At.load {s : LogState} (h : st.At j s) (block : Bytes) :
    ((st.request st.cur).withScratch block).At j s :=
  { h with fixed := { h.fixed with }, holds := { h.holds with } }

/-- An iteration that finds a record moves on to the position after it. -/
theorem walkIteration_of_record (hat : w.st.At j s)
    (h : (readRecord j j.source.nextBlock s).2 = some r) :
    ∃ st, walkIteration j.reader j.source j.source.start w = {
        st
        iterations := (w.iterations + 1) % 2 ^ 32
        exit := if (s.apply r).block = j.source.start ∧ (w.iterations + 1) % 2 ^ 32 > 0 then
            some (.done none) else none } ∧
      st.At j (s.apply r) ∧
      st.requests = w.st.requests ++ (readRecord j j.source.nextBlock s).1 := by
  have hle := readRecord_after_le h
  cases hread : j.reader.readBlock s.block with
  | error e => simp only [readRecord, hread] at h; cases h
  | ok block =>
    simp only [readRecord, hread] at h ⊢
    split at h
    · rename_i hhdr
      rw [if_pos hhdr]
      obtain ⟨hmagic, hseq⟩ := hhdr
      obtain ⟨-, hnone⟩ | ⟨⟨out, st⟩, hblock, hreq, hmoves, -⟩ :=
        processBlock_spec block (hat.load block) rfl
      · rw [hnone] at h
        cases h
      obtain ⟨rfl, hst⟩ := hmoves r h
      have hcur : st.cur = (s.apply r).block := hst.cur
      -- a record ends inside the ring, so the second wrap test of the loop never fires
      have hnot : ¬ (s.apply r).block > j.source.maxlen := by omega
      refine ⟨st, ?_, hst, ?_⟩
      · have hc : (w.st.request w.st.cur).cur = s.block := hat.cur
        have he : ((w.st.request w.st.cur).withScratch block).expectedSeq = s.sequence :=
          hat.expectedSeq
        simp only [walkIteration, hc, hread, hmagic, hseq, he, ne_eq, not_true_eq_false,
          if_false, hblock, hcur, hnot]
      · rw [show st.requests = _ from hreq]
        simp [request, withScratch, hat.cur]
    · cases h

/-- An iteration that finds no record leaves the loop; what has been committed stays. -/
theorem walkIteration_of_end (hat : w.st.At j s)
    (h : (readRecord j j.source.nextBlock s).2 = none) :
    (walkIteration j.reader j.source j.source.start w).exit.isSome ∧
      w.st.SameCommitted (walkIteration j.reader j.source j.source.start w).st ∧
      (walkIteration j.reader j.source j.source.start w).st.requests =
        w.st.requests ++ (readRecord j j.source.nextBlock s).1 := by
  have hc : (w.st.request w.st.cur).cur = s.block := hat.cur
  cases hread : j.reader.readBlock s.block with
  | error e =>
    simp only [readRecord, hread, walkIteration, hc]
    cases e <;> exact ⟨rfl, ⟨rfl, rfl, rfl, rfl, rfl⟩, by simp [request, hat.cur]⟩
  | ok block =>
    have he : ((w.st.request w.st.cur).withScratch block).expectedSeq = s.sequence :=
      hat.expectedSeq
    simp only [readRecord, hread] at h ⊢
    simp only [walkIteration, hc, hread, he]
    by_cases hmagic : (ofBytes block).hMagic = JBD_MAGIC
    · by_cases hseq : (ofBytes block).hSequence = s.sequence
      · simp only [hmagic, hseq, and_self, if_true, ne_eq] at h ⊢
        obtain ⟨hnone, hdecode⟩ | ⟨⟨out, st⟩, hsome, hreq, -, hstops⟩ :=
          processBlock_spec block (hat.load block) rfl
        · rw [hnone, hdecode]
          exact ⟨rfl, ⟨rfl, rfl, rfl, rfl, rfl⟩, by simp [request, withScratch, hat.cur]⟩
        obtain ⟨hout, hsame⟩ := hstops h
        rw [hsome]
        have hreq' : st.requests = w.st.requests ++
            s.block :: (decodeRecord j j.source.nextBlock s block).1 := by
          rw [show st.requests = _ from hreq]
          simp [request, withScratch, hat.cur]
        cases out with
        | error e => exact ⟨rfl, { hsame with }, hreq'⟩
        | ok reason =>
          cases reason with
          | none => exact absurd rfl hout
          | some reason => exact ⟨rfl, { hsame with }, hreq'⟩
      · simp only [hmagic, hseq, and_false, if_false, ne_eq, not_true_eq_false,
          not_false_eq_true, if_true]
        exact ⟨rfl, ⟨rfl, rfl, rfl, rfl, rfl⟩, by simp [request, withScratch, hat.cur]⟩
    · simp only [hmagic, ne_eq]
      exact ⟨rfl, ⟨rfl, rfl, rfl, rfl, rfl⟩, by simp [request, withScratch, hat.cur]⟩

/-! ### Whole runs -/

/-- The state the walk starts in. -/
private theorem WalkState.new_at (j : OpenJournal) : (new j.source).At j (start j.source) :=
  ⟨⟨rfl, rfl, rfl, rfl, rfl, rfl⟩, rfl, rfl, rfl, rfl, ⟨rfl, rfl, rfl, rfl, by simp [new]⟩⟩

/-- As long as the log has records the walk stands where the log does, and it leaves its
    loop exactly when the log has come round to its start. -/
theorem walkRun_simulates (hstart : j.source.start ≠ 0) {n : Nat}
    (hs : logIter j j.source.nextBlock n = some s) : (walkRun j.reader j.source n).st.At j s ∧
      (walkRun j.reader j.source n).iterations = n % 2 ^ 32 ∧
      (walkRun j.reader j.source n).exit =
        (if 0 < n ∧ s.block = j.source.start then some (.done none) else none) ∧
      (walkRun j.reader j.source n).st.requests = logRequests j j.source.nextBlock n := by
  induction n generalizing s with
  | zero =>
    cases hs
    have hcur : (new j.source).cur ≠ 0 := hstart
    refine ⟨WalkState.new_at j, rfl, ?_, rfl⟩
    simp [walkRun, hcur]
  | succ n ih =>
    obtain ⟨s₀, r, hs₀, hne, hrec, rfl⟩ := logIter_succ_eq_some.mp hs
    obtain ⟨hat, hiter, hexit, hreq⟩ := ih hs₀
    have hnot : ¬ (0 < n ∧ s₀.block = j.source.start) := by omega
    rw [if_neg hnot] at hexit
    obtain ⟨st, hstep, hat', hreq'⟩ := walkIteration_of_record hat hrec
    have hrun : walkRun j.reader j.source (n + 1) =
        walkIteration j.reader j.source j.source.start (walkRun j.reader j.source n) := by
      simp [walkRun, hexit]
    rw [hrun, hstep]
    refine ⟨hat', ?_, ?_, ?_⟩
    · dsimp only
      omega
    · -- the walk comes round before its iteration counter wraps
      by_cases hback : (s₀.apply r).block = j.source.start
      · have hlt := logIter_return_lt hs hback
        rw [if_pos ⟨hback, by omega⟩, if_pos ⟨by omega, hback⟩]
      · rw [if_neg (fun h => hback h.1), if_neg (fun h => hback h.2)]
    · rw [hreq', hreq, logRequests, hs₀]
      simp only [if_neg hnot]

/-- What the walk leaves behind after the end of the log: the loop has been left, and the
    tables hold the committed transactions and nothing else. -/
theorem walkRun_stopped (hstart : j.source.start ≠ 0) {m : Nat} (n : Nat)
    (hs : logIter j j.source.nextBlock m = some s)
    (hend : logIter j j.source.nextBlock (m + 1) = none) (hmn : m < n) :
    (walkRun j.reader j.source n).exit.isSome ∧ (walkRun j.reader j.source n).st.Holds s.committed ∧
      (walkRun j.reader j.source n).st.blockSize = j.source.blockSize ∧
      (walkRun j.reader j.source n).st.requests = logRequests j j.source.nextBlock n := by
  obtain ⟨hat, _, hexit, hreq⟩ := walkRun_simulates hstart hs
  induction n with
  | zero => omega
  | succ n ih =>
    rcases Nat.lt_or_ge m n with hlt | hge
    · -- once left, the loop stays as it is, and the log has nothing more to request
      obtain ⟨hsome, hholds, hsize, hreqs⟩ := ih hlt
      have hnone : logIter j j.source.nextBlock n = none := by
        cases hn : logIter j j.source.nextBlock n with
        | none => rfl
        | some sn =>
          obtain ⟨s', hs'⟩ := logIter_prefix (show m + 1 ≤ n from hlt) hn
          rw [hend] at hs'
          cases hs'
      have hrun : walkRun j.reader j.source (n + 1) = walkRun j.reader j.source n := by
        simp [walkRun, hsome]
      rw [hrun, logRequests, hnone, append_nil]
      exact ⟨hsome, hholds, hsize, hreqs⟩
    · obtain rfl : m = n := by omega
      rw [logRequests, hs]
      split at hexit
      · rename_i hback
        have hrun : walkRun j.reader j.source (m + 1) = walkRun j.reader j.source m := by
          simp [walkRun, hexit]
        rw [hrun]
        simp only [if_pos hback, append_nil]
        exact ⟨by rw [hexit]; rfl, hat.holds, hat.fixed.blockSize, hreq⟩
      rename_i hback
      have hrec : (readRecord j j.source.nextBlock s).2 = none := by
        simp only [logIter, hs, if_neg hback, Option.map_eq_none_iff] at hend
        exact hend
      have hrun : walkRun j.reader j.source (m + 1) =
          walkIteration j.reader j.source j.source.start (walkRun j.reader j.source m) := by
        simp [walkRun, hexit]
      obtain ⟨hsome, hsame, hreq'⟩ := walkIteration_of_end hat hrec
      rw [hrun]
      simp only [if_neg hback]
      refine ⟨hsome, hsame.holds hat.holds, hsame.blockSize.trans hat.fixed.blockSize, ?_⟩
      rw [hreq', hreq]

end Fsmnt.FsExt
