import Fsmnt.ForStd.Nat
import Fsmnt.ForStd.Option
import Fsmnt.Spec.FsExt.JournalLog

/-!
# Logs that never end

Whether the log read along the walk's ring has an end. While a transaction is open, the
block after a descriptor or revocation block depends on that block alone (`openHop`), so a
chain of such blocks that leads back to one of its own blocks is followed forever. A ring
has fewer than `2 ^ 32` positions and every block has one sequence number, so this is
the only way a log can go on (`exists_closedChain_of_long`).
-/

namespace Fsmnt.FsExt

open Bytes Option JournalSource JbdHeader

variable [Crc]

variable {j : OpenJournal} {s s' t : LogState} {r : LogRecord} {n : Nat}

/-! ### The ring -/

/-- The ring order in which the walk takes journal blocks. -/
def JournalSource.nextBlock (source : JournalSource) (block : Nat) : Nat :=
  let next := (block + 1) % 2 ^ 32
  if next > source.maxlen then source.first else next

omit [Crc] in
/-- The ring order stays inside the ring. -/
theorem JournalSource.nextBlock_le {source : JournalSource} (h : source.Valid) (block : Nat) :
    source.nextBlock block ≤ source.maxlen := by
  have hfirst := h.first_lt
  simp only [nextBlock]
  split <;> omega

theorem OpenJournal.valid (j : OpenJournal) : j.source.Valid :=
  (parseJournalSuperblock_ok j.superblock j.source j.parsed).1

/-- The block after a record lies in the ring. -/
theorem readRecord_after_le (h : (readRecord j j.source.nextBlock s).2 = some r) :
    (s.apply r).block ≤ j.source.maxlen :=
  (readRecord_keeps (P := (· ≤ j.source.maxlen)) (fun b _ => nextBlock_le j.valid b)
    (nextBlock_le j.valid s.block)).2 r h

/-- Block `0` holds the superblock, so no record starts there. -/
theorem readRecord_block_ne_zero (h : (readRecord j j.source.nextBlock s).2 = some r) :
    s.block ≠ 0 := by
  intro hzero
  obtain ⟨block, hread, _, _, hrec⟩ := readRecord_eq_some.mp h
  rw [hzero] at hread
  have hsb := j.readBlock_zero block hread
  obtain ⟨_, _, _, htypes⟩ := parseJournalSuperblock_ok j.superblock j.source j.parsed
  -- the type word lies inside the first 1024 bytes of the block
  have hslice : (ofBytes block).hBlocktype = (ofBytes j.superblock).hBlocktype := by
    rw [← hsb]
    show be32 block 4 = be32 (block.take 1024) 4
    simp only [be32, slice, List.drop_take, List.take_take]
    congr 2
  have hne : (ofBytes block).hBlocktype ≠ 3 ∧ (ofBytes block).hBlocktype ≠ 4 := by
    cases hrec with
    | descriptor tags ws after htype htags hread | revocation bs htype hrev | commit htype hvalid =>
      rw [htype]; decide
  omega

/-! ### Hops inside an open transaction -/

/-- The block after the descriptor or revocation block at `block`, read as part of the open
    transaction `sequence`; `none` at a commit, at the end of the log, and where the log
    comes round to its start. -/
def openHop (j : OpenJournal) (sequence block : Nat) : Option Nat :=
  match (readRecord j j.source.nextBlock { block, sequence }).2 with
  | some (.descriptor _ after) => if after = j.source.start then none else some after
  | some (.revocation _ after) => if after = j.source.start then none else some after
  | some (.commit _) => none
  | none => none

/-- The log enters a chain of descriptor and revocation blocks of one transaction that
    closes on itself without passing the start of the log. -/
def ClosedChain (j : OpenJournal) : Prop :=
  ∃ n s k, logIter j j.source.nextBlock n = some s ∧ 0 < k ∧
    Option.iter (openHop j s.sequence) k s.block = some s.block

/-- A record other than a commit. -/
def LogRecord.isOpen : LogRecord → Prop
  | .descriptor _ _ | .revocation _ _ => True
  | .commit _ => False

/-- The records of an open transaction depend on its sequence number and the block alone. -/
private theorem readRecord_open (hopen : r.isOpen)
    (h : (readRecord j j.source.nextBlock s).2 = some r) (hblock : s.block = t.block)
    (hseq : s.sequence = t.sequence) : (readRecord j j.source.nextBlock t).2 = some r := by
  obtain ⟨block, hread, hmagic, hsequence, hrec⟩ := readRecord_eq_some.mp h
  rw [readRecord_eq_some, ← hblock, ← hseq]
  refine ⟨block, hread, hmagic, hsequence, ?_⟩
  cases hrec with
  | descriptor tags ws after htype htags hread =>
    rw [hblock, hseq] at hread
    exact .descriptor tags ws after htype htags hread
  | revocation bs htype hrev =>
    rw [hblock]
    exact .revocation bs htype hrev
  | commit htype hvalid => exact hopen.elim

/-- A hop is an open record that does not lead to the start of the log. -/
private theorem openHop_eq_some (j : OpenJournal) (s : LogState) (b : Nat) :
    openHop j s.sequence s.block = some b ↔
      b ≠ j.source.start ∧ ∃ r, r.isOpen ∧ (readRecord j j.source.nextBlock s).2 = some r ∧
        (s.apply r).block = b := by
  constructor
  · intro h
    unfold openHop at h
    cases hrec : (readRecord j j.source.nextBlock
      { block := s.block, sequence := s.sequence }).2 with
    | none => simp [hrec] at h
    | some r =>
      cases r with
      | commit after => simp [hrec] at h
      | descriptor ws after | revocation bs after =>
        obtain ⟨hne, rfl⟩ : after ≠ j.source.start ∧ after = b := by simpa [hrec] using h
        refine ⟨hne, _, ?_, readRecord_open ?_ hrec rfl rfl, rfl⟩ <;> trivial
  · rintro ⟨hne, r, hopen, hrec, rfl⟩
    have hrec' := readRecord_open (t := ⟨s.block, s.sequence, [], [], []⟩) hopen hrec rfl rfl
    simp only [openHop, hrec']
    cases r with
    | descriptor ws after | revocation bs after => exact if_neg hne
    | commit after => exact hopen.elim

/-! ### Steps of the log -/

/-- The open transaction's sequence number counts the commits before it. -/
private theorem logIter_sequence (h : logIter j j.source.nextBlock n = some s) :
    s.sequence = (j.source.sequence + s.committed.length) % 2 ^ 32 := by
  induction n generalizing s with
  | zero =>
    have hlt := j.valid.sequence_lt
    cases h
    exact (Nat.mod_eq_of_lt hlt).symm
  | succ n ih =>
    obtain ⟨s₀, r, hs, _, _, rfl⟩ := logIter_succ_eq_some.mp h
    have hprev := ih hs
    cases r with
    | descriptor ws after => exact hprev
    | revocation bs after => exact hprev
    | commit after =>
      simp only [LogState.apply, List.length_append, List.length_singleton]
      omega

omit [Crc] in
/-- A record commits at most one transaction, and only a commit block does. -/
private theorem apply_committed_length (s : LogState) (r : LogRecord) :
    (s.apply r).committed.length = s.committed.length ∧ r.isOpen ∧
        (s.apply r).sequence = s.sequence ∨
      (s.apply r).committed.length = s.committed.length + 1 := by
  cases r with
  | descriptor ws after | revocation bs after => exact .inl ⟨rfl, trivial, rfl⟩
  | commit after => exact .inr (by simp [LogState.apply])

/-- Between two positions of the log there are at most as many commits as records; without
    a commit, the second position is reached from the first by hops. -/
private theorem logIter_between {i d : Nat} (hs : logIter j j.source.nextBlock i = some s)
    (hs' : logIter j j.source.nextBlock (i + d) = some s')
    (hstart : ∀ m sm, i < m → m ≤ i + d → logIter j j.source.nextBlock m = some sm →
      sm.block ≠ j.source.start) :
    s.committed.length ≤ s'.committed.length ∧ s'.committed.length ≤ s.committed.length + d ∧
      (s'.committed.length = s.committed.length →
        iter (openHop j s.sequence) d s.block = some s'.block ∧ s'.sequence = s.sequence) := by
  induction d generalizing s' with
  | zero =>
    obtain rfl : s = s' := some.inj (hs.symm.trans hs')
    exact ⟨Nat.le_refl _, Nat.le_refl _, fun _ => ⟨rfl, rfl⟩⟩
  | succ d ih =>
    obtain ⟨sm, r, hsm, _, hrec, rfl⟩ := logIter_succ_eq_some.mp hs'
    obtain ⟨hge, hle, hhops⟩ := ih hsm (fun m sm him hmd => hstart m sm him (by omega))
    have hne : (sm.apply r).block ≠ j.source.start :=
      hstart (i + (d + 1)) _ (by omega) (by omega) hs'
    rcases apply_committed_length sm r with ⟨hsame, hopen, hseq⟩ | hmore
    · refine ⟨by omega, by omega, fun heq => ?_⟩
      obtain ⟨hiter, hseq'⟩ := hhops (by omega)
      have hhop : openHop j sm.sequence sm.block = some (sm.apply r).block :=
        (openHop_eq_some j sm _).mpr ⟨hne, r, hopen, hrec, rfl⟩
      rw [iter_succ, hiter, bind_some, ← hseq', hhop]
      exact ⟨rfl, hseq⟩
    · exact ⟨by omega, by omega, fun heq => by omega⟩

/-! ### Endless logs -/

/-- A closed chain is followed forever: the log never ends. -/
theorem logIter_isSome_of_closedChain (h : ClosedChain j) (m : Nat) :
    ∃ s, logIter j j.source.nextBlock m = some s := by
  obtain ⟨n, s, k, hs, hk, hcycle⟩ := h
  -- the last hop of the chain leads to `s.block`, and no hop leads to the start
  have hne : s.block ≠ j.source.start := by
    obtain ⟨k, rfl⟩ := Nat.exists_eq_succ_of_ne_zero (by omega : k ≠ 0)
    rw [iter_succ] at hcycle
    obtain ⟨b, _, hb⟩ := bind_eq_some_iff.mp hcycle
    exact ((openHop_eq_some j { block := b, sequence := s.sequence } _).mp hb).1
  have hfollow : ∀ d, ∃ sd, logIter j j.source.nextBlock (n + d) = some sd ∧
      iter (openHop j s.sequence) d s.block = some sd.block ∧
      sd.sequence = s.sequence ∧ sd.block ≠ j.source.start := by
    intro d
    induction d with
    | zero => exact ⟨s, hs, rfl, rfl, hne⟩
    | succ d ih =>
      obtain ⟨sd, hsd, hiter, hseq, hsdne⟩ := ih
      obtain ⟨b, hb⟩ := exists_iter_of_cycle _ k s.block hk hcycle (d + 1)
      have hhop : openHop j sd.sequence sd.block = some b := by
        rw [iter_succ, hiter] at hb
        rw [hseq]; exact hb
      obtain ⟨hbne, r, hopen, hrec, rfl⟩ := (openHop_eq_some j sd b).mp hhop
      refine ⟨sd.apply r, ?_, hb, ?_, hbne⟩
      · exact logIter_succ_eq_some.mpr ⟨sd, r, hsd, .inr hsdne, hrec, rfl⟩
      · cases r with
        | descriptor ws after => exact hseq
        | revocation bs after => exact hseq
        | commit after => exact hopen.elim
  obtain ⟨sm, hsm, _⟩ := hfollow m
  exact logIter_prefix (by omega) hsm

/-- The blocks of a log that goes on are positive, below `2 ^ 32`, and apart from the first
    one different from the start. -/
private theorem logIter_block_bounds (hs : logIter j j.source.nextBlock n = some s)
    (hs' : logIter j j.source.nextBlock (n + 1) = some s') :
    0 < s.block ∧ s.block < 2 ^ 32 ∧ (0 < n → s.block ≠ j.source.start) := by
  obtain ⟨s₀, r, hs₀, hne, hrec, _⟩ := logIter_succ_eq_some.mp hs'
  obtain rfl : s = s₀ := some.inj (hs.symm.trans hs₀)
  have hpos := readRecord_block_ne_zero hrec
  refine ⟨by omega, ?_, fun hn => by omega⟩
  cases n with
  | zero => cases hs; exact j.valid.start_lt
  | succ n =>
    obtain ⟨s₁, r₁, _, _, hrec₁, rfl⟩ := logIter_succ_eq_some.mp hs
    have hle := readRecord_after_le hrec₁
    have hmax := j.valid.maxlen_lt
    omega

/-- Two positions at the same block read the same sequence number. -/
private theorem sequence_eq_of_block_eq {s₁ s₂ : LogState} {r₁ r₂ : LogRecord}
    (h₁ : (readRecord j j.source.nextBlock s₁).2 = some r₁)
    (h₂ : (readRecord j j.source.nextBlock s₂).2 = some r₂) (hblock : s₁.block = s₂.block) :
    s₁.sequence = s₂.sequence := by
  obtain ⟨b₁, hread₁, _, hseq₁, _⟩ := readRecord_eq_some.mp h₁
  obtain ⟨b₂, hread₂, _, hseq₂, _⟩ := readRecord_eq_some.mp h₂
  rw [hblock] at hread₁
  obtain rfl : b₁ = b₂ := Except.ok.inj (hread₁.symm.trans hread₂)
  exact hseq₁.symm.trans hseq₂

/-- A log of `2 ^ 32` records contains a closed chain. -/
theorem exists_closedChain_of_long (h : logIter j j.source.nextBlock (2 ^ 32) = some s) :
    ClosedChain j := by
  -- the blocks visited before, as a sequence of numbers
  have hpos : ∀ i ≤ 2 ^ 32, ∃ si, logIter j j.source.nextBlock i = some si :=
    fun i hi => logIter_prefix hi h
  obtain ⟨s₁, hs₁⟩ := hpos 1 (by omega)
  have hstart := logIter_block_bounds rfl hs₁
  obtain ⟨i, k, hi, hik, hk, heq⟩ := Nat.exists_lt_map_eq_of_avoid
    (fun i => ((logIter j j.source.nextBlock i).elim 0 (·.block))) (2 ^ 32) j.source.start
    hstart.1 hstart.2.1 (by
      intro i hi hlt
      obtain ⟨si, hsi⟩ := hpos i (by omega)
      obtain ⟨si', hsi'⟩ := hpos (i + 1) (by omega)
      obtain ⟨h0, hb, hne⟩ := logIter_block_bounds hsi hsi'
      simp only [hsi]
      exact ⟨h0, hb, hne hi⟩)
  obtain ⟨si, hsi⟩ := hpos i (by omega)
  obtain ⟨sk, hsk⟩ := hpos k (by omega)
  simp only [hsi, hsk, elim_some] at heq
  obtain ⟨d, rfl⟩ := Nat.exists_eq_add_of_lt hik
  -- same block, so same sequence number, so no commit in between
  have hseq : si.sequence = sk.sequence := by
    obtain ⟨ti, hti⟩ := hpos (i + 1) (by omega)
    obtain ⟨tk, htk⟩ := hpos (i + d + 1 + 1) (by omega)
    obtain ⟨ui, ri, hui, _, hri, _⟩ := logIter_succ_eq_some.mp hti
    obtain ⟨uk, rk, huk, _, hrk, _⟩ := logIter_succ_eq_some.mp htk
    obtain rfl : si = ui := some.inj (hsi.symm.trans hui)
    obtain rfl : sk = uk := some.inj (hsk.symm.trans huk)
    exact sequence_eq_of_block_eq hri hrk heq
  obtain ⟨hge, hle, hhops⟩ := logIter_between (d := d + 1) hsi hsk (by
    intro m sm him hmd hsm
    obtain ⟨sm', hsm'⟩ := hpos (m + 1) (by omega)
    exact (logIter_block_bounds hsm hsm').2.2 (by omega))
  have hcommits : sk.committed.length = si.committed.length := by
    rw [logIter_sequence hsi, logIter_sequence hsk] at hseq
    omega
  obtain ⟨hiter, _⟩ := hhops hcommits
  exact ⟨i, si, d + 1, hsi, by omega, heq ▸ hiter⟩

/-- A log that comes round to its start does so within `2 ^ 32` records. -/
theorem logIter_return_lt (hs : logIter j j.source.nextBlock n = some s)
    (hblock : s.block = j.source.start) : n < 2 ^ 32 := by
  by_contra hlt
  obtain ⟨s', hs'⟩ := logIter_prefix (Nat.le_of_not_lt hlt) hs
  have hchain := exists_closedChain_of_long hs'
  obtain ⟨t, ht⟩ := logIter_isSome_of_closedChain hchain (n + 1)
  obtain ⟨s₀, r, hs₀, hne, _⟩ := logIter_succ_eq_some.mp ht
  obtain rfl : s = s₀ := some.inj (hs.symm.trans hs₀)
  rcases hne with hzero | hne
  · omega
  · exact hne hblock

end Fsmnt.FsExt
