import Fsmnt.ForStd.Content
import Fsmnt.ForStd.Run
import Fsmnt.Native.Device.TolerantReader

/-!
# What a best-effort reader serves

The source is a medium with unreadable sectors: a read that starts in one fails, and a read that
starts before one returns the bytes in front of it. The reader should serve the bytes of the
readable sectors and zeros elsewhere. It writes off one granule from wherever the failing read
starts, so a read that starts inside an unreadable sector also loses the head of the sector behind
it; at every other read it serves the right bytes. An interrupted read returns no bytes, which looks
like the end of the file.
-/

namespace Fsmnt.Device

open Bytes EStateM List

/-- A medium of `len` bytes with unreadable sectors. -/
structure DamagedMedium where
  content : Nat → UInt8
  len : Nat
  /-- The numbers of the unreadable sectors of 512 bytes. -/
  bad : Nat → Bool

namespace DamagedMedium

variable (medium : DamagedMedium)

/-- A byte that can be read. -/
def Readable (q : Nat) : Prop := q < medium.len ∧ medium.bad (q / 512) = false

instance (q : Nat) : Decidable (medium.Readable q) := inferInstanceAs (Decidable (_ ∧ _))

/-- How many of the next `n` bytes are in front of the next unreadable sector. -/
def readableRun (position : Nat) : Nat → Nat
  | 0 => 0
  | n + 1 => if medium.bad (position / 512) then 0 else readableRun (position + 1) n + 1

/-- A read at a position. -/
def readAt (position n : Nat) : Except IoError Bytes :=
  if n = 0 ∨ medium.len ≤ position then .ok []
  else if medium.bad (position / 512) then .error (.other "medium error")
  else .ok (window medium.content position
    (medium.readableRun position (min n (medium.len - position))))

/-- The medium as a reader; its state is its position. -/
def source : ReadSeek IoError Nat where
  read := fun n position =>
    match medium.readAt position n with
    | .ok bytes => .ok bytes (position + bytes.length)
    | .error e => .error e position
  seek := fun target position =>
    match target.target medium.len position with
    | some new => .ok new new
    | none => .error (.invalidInput "seek before start") position

/-- The byte the reader should serve at `q`. -/
def expected (q : Nat) : UInt8 := if medium.Readable q then medium.content q else 0

variable {medium} {position n : Nat}

theorem readableRun_le : medium.readableRun position n ≤ n := by
  induction n generalizing position with
  | zero => exact Nat.le_refl 0
  | succ n ih =>
    rw [readableRun]
    split
    · omega
    · exact Nat.succ_le_succ ih

theorem bad_of_lt_readableRun {i : Nat} (hi : i < medium.readableRun position n) :
    medium.bad ((position + i) / 512) = false := by
  induction n generalizing position i with
  | zero => exact absurd hi (Nat.not_lt_zero i)
  | succ n ih =>
    rw [readableRun] at hi
    split at hi
    · exact absurd hi (Nat.not_lt_zero i)
    rename_i hbad
    cases i with
    | zero => simpa using hbad
    | succ i =>
      rw [Nat.add_comm i 1, ← Nat.add_assoc]
      exact ih (Nat.lt_of_succ_lt_succ hi)

theorem readableRun_pos (hn : 0 < n) (h : medium.bad (position / 512) = false) :
    0 < medium.readableRun position n := by
  cases n with
  | zero => exact absurd hn (Nat.lt_irrefl 0)
  | succ n =>
    rw [readableRun, h]
    exact Nat.succ_pos _

end DamagedMedium

namespace TolerantReader

open DamagedMedium

variable {medium : DamagedMedium} {s : TolerantReader Nat} {n count : Nat}

/-- The reader knows where the medium ends. -/
structure Over (medium : DamagedMedium) (s : TolerantReader Nat) : Prop where
  innerLen : s.innerLen = medium.len
  length : medium.len ≤ s.length

/-- What a read inside the medium asks of it. -/
def wanted (s : TolerantReader Nat) (n : Nat) : Nat :=
  min (min (s.length - s.position) n) (s.innerLen - s.position)

section Run

variable {σ : Type} {source : ReadSeek IoError σ} {s : TolerantReader σ}

theorem read_eq_nil (h : n = 0 ∨ s.length ≤ s.position) : read source n s = .ok [] s := by
  rw [read, get_bind_run, if_pos h]
  rfl

/-- Past the medium zeros are served. -/
theorem read_past (h : ¬ (n = 0 ∨ s.length ≤ s.position)) (hpast : s.innerLen ≤ s.position) :
    read source n s = .ok (zeros (min (s.length - s.position) n))
      { s with position := s.position + min (s.length - s.position) n } := by
  rw [read, get_bind_run, if_neg h, if_pos hpast]
  rfl

/-- Inside the medium what it returns is served. If it returns nothing or fails, zeros are. -/
theorem read_inside (h : ¬ (n = 0 ∨ s.length ≤ s.position)) (hin : ¬ s.innerLen ≤ s.position)
    {want offset : Nat} {inner : σ}
    (hwant : min (min (s.length - s.position) n) (s.innerLen - s.position) = want)
    (hseek : source.seek (.start s.position) s.inner = .ok offset inner) :
    read source n s = match source.read want inner with
      | .ok bytes inner =>
        if bytes = [] then .ok (zeros want)
          { s with inner, innerLen := s.position, position := s.position + want }
        else .ok bytes { s with inner, position := s.position + bytes.length }
      | .error .interrupted inner => .ok [] { s with inner }
      | .error e inner =>
        let count := (s.absentHeadLength e want).getD (min errorZeroFillGranule want)
        .ok (zeros count) { s with inner, position := s.position + count } := by
  have hat : onInner (source.seek (.start s.position)) s = .ok offset { s with inner } := by
    simp only [onInner, zoom, hseek]
  rw [read, get_bind_run, if_neg h, if_neg hin, hwant, readSource, get_bind_run, bind_run_ok hat]
  cases hread : source.read want inner with
  | ok bytes inner' =>
    have hattempt : onInner (source.read want).attempt { s with inner } =
        .ok (.ok bytes) { s with inner := inner' } := by
      simp only [onInner, zoom, attempt_of_ok hread]
    rw [bind_run_ok hattempt]
    cases bytes with
    | nil | cons => rfl
  | error e inner' =>
    have hattempt : onInner (source.read want).attempt { s with inner } =
        .ok (.error e) { s with inner := inner' } := by
      simp only [onInner, zoom, attempt_of_error hread]
    rw [bind_run_ok hattempt]
    cases e with
    | absentHead gap offset length =>
      dsimp only
      cases s.absentHeadLength (.absentHead gap offset length) want with
      | none | some => rfl
    | _ => rfl

end Run

/-- What a read returns, and where it leaves the reader. -/
inductive Served (medium : DamagedMedium) (s : TolerantReader Nat) (n : Nat) : Bytes → Prop
  | nothing (h : n = 0 ∨ s.length ≤ s.position) : Served medium s n []
  | past (h : medium.len ≤ s.position) (count : Nat) : Served medium s n (zeros count)
  | bad (h : s.position < medium.len) (hbad : medium.bad (s.position / 512) = true) :
    Served medium s n (zeros (min 512 (wanted s n)))
  | good (h : s.position < medium.len) (hgood : medium.bad (s.position / 512) = false) (count : Nat)
    (hrun : ∀ i < count, medium.Readable (s.position + i)) :
    Served medium s n (window medium.content s.position count)

/-- A read over a medium is always served. -/
theorem exists_served (hover : Over medium s) (n : Nat) :
    ∃ bytes s', (reader medium.source).read n s = .ok bytes s' ∧ Over medium s' ∧
      Served medium s n bytes := by
  have hlen := hover.innerLen
  have hlength := hover.length
  by_cases h : n = 0 ∨ s.length ≤ s.position
  · exact ⟨_, _, read_eq_nil h, hover, .nothing h⟩
  by_cases hpast : s.innerLen ≤ s.position
  · exact ⟨_, _, read_past h hpast, ⟨hlen, hlength⟩, .past (hlen ▸ hpast) _⟩
  have hin : s.position < medium.len := by omega
  have hwanted : ¬ (wanted s n = 0 ∨ medium.len ≤ s.position) := by
    simp only [wanted]
    omega
  have hread : (reader medium.source).read n s = _ := read_inside h hpast (Eq.refl (wanted s n)) rfl
  rw [hread]
  cases hbad : medium.bad (s.position / 512) with
  | true =>
    simp only [source, readAt, if_neg hwanted, if_pos hbad]
    exact ⟨_, _, rfl, ⟨hlen, hlength⟩, .bad hin hbad⟩
  | false =>
    simp only [source, readAt, if_neg hwanted, if_neg (Bool.eq_false_iff.mp hbad)]
    have hpos : 0 < medium.readableRun s.position (min (wanted s n) (medium.len - s.position)) :=
      readableRun_pos (by omega) hbad
    rw [if_neg]
    · refine ⟨_, _, rfl, ⟨hlen, hlength⟩, .good hin hbad _ fun i hi => ?_⟩
      have hle : medium.readableRun s.position (min (wanted s n) (medium.len - s.position)) ≤ _ :=
        readableRun_le
      exact ⟨by omega, bad_of_lt_readableRun hi⟩
    · intro hnil
      have := congrArg List.length hnil
      rw [length_window, length_nil] at this
      omega

/-- The bytes a read serves are the medium's own where it is readable, and zeros elsewhere. -/
def ServedRight (medium : DamagedMedium) (s : TolerantReader Nat) : ReaderCall → Prop
  | .read n => ∀ bytes s', (reader medium.source).read n s = .ok bytes s' →
      bytes = window medium.expected s.position bytes.length
  | .seek _ => True

/-- A read that starts in an unreadable sector does not reach readable bytes within one granule,
    unless they are zeros. -/
def NoOverrun (medium : DamagedMedium) (s : TolerantReader Nat) : ReaderCall → Prop
  | .read n => s.position < medium.len → medium.bad (s.position / 512) = true →
      ∀ q, s.position ≤ q → q < s.position + min 512 n → medium.Readable q → medium.content q = 0
  | .seek _ => True

theorem expected_eq_zero_iff {q : Nat} :
    medium.expected q = 0 ↔ (medium.Readable q → medium.content q = 0) := by
  unfold expected
  split
  · rename_i h
    simp [h]
  · rename_i h
    simp [h]

theorem zeros_eq_window_iff {position : Nat} :
    zeros count = window medium.expected position count ↔
      ∀ i < count, medium.Readable (position + i) → medium.content (position + i) = 0 := by
  rw [zeros, ← window_const 0 position count, window_inj]
  refine forall_congr' fun i => imp_congr_right fun _ => ?_
  rw [eq_comm, expected_eq_zero_iff]

/-- One call serves the right bytes exactly when it does not overrun. -/
theorem servedRight_iff (hover : Over medium s) (call : ReaderCall) :
    ServedRight medium s call ↔ NoOverrun medium s call := by
  cases call with
  | seek position => exact Iff.rfl
  | read n =>
    obtain ⟨bytes, s', hread, -, hserved⟩ := exists_served hover n
    have hlength := hover.length
    have hlen := hover.innerLen
    have hright : ServedRight medium s (.read n) ↔
        bytes = window medium.expected s.position bytes.length := by
      constructor
      · intro h
        exact h bytes s' hread
      · intro h bytes' s'' hread'
        cases hread.symm.trans hread'
        exact h
    rw [hright]
    cases hserved with
    | nothing h =>
      simp only [length_nil, window_zero, true_iff]
      intro hlt _ q hge hq
      omega
    | past h count =>
      simp only [length_zeros]
      rw [zeros_eq_window_iff]
      constructor
      · intro _ hlt
        omega
      · intro _ i _ hreadable
        have := hreadable.1
        omega
    | bad h hbad =>
      -- up to 512 bytes are zeroed, also behind the bad sector
      simp only [length_zeros]
      rw [zeros_eq_window_iff]
      constructor
      · intro hzero _ _ q hge hq hreadable
        have hlt := hreadable.1
        have := hzero (q - s.position) (by simp only [wanted]; omega)
        rw [Nat.add_sub_cancel' hge] at this
        exact this hreadable
      · intro hzero i hi hreadable
        refine hzero h hbad (s.position + i) (by omega) ?_ hreadable
        simp only [wanted] at hi
        omega
    | good h hgood count hrun =>
      simp only [length_window]
      constructor
      · intro _ _ hbad
        rw [hgood] at hbad
        cases hbad
      · intro _
        apply window_congr
        intro i hi
        rw [expected, if_pos (hrun i hi)]

/-- Every call keeps what the reader knows about the medium. -/
theorem over_after (hover : Over medium s) (call : ReaderCall) :
    Over medium ((reader medium.source).after s call) := by
  cases call with
  | read n =>
    obtain ⟨bytes, s', hread, hover', -⟩ := exists_served hover n
    rw [ReadSeek.after, hread]
    exact hover'
  | seek position =>
    show Over medium (seek position s).state
    rw [seek, get_bind_run]
    cases s.seekTarget position with
    | none => exact hover
    | some target => exact ⟨hover.innerLen, hover.length⟩

theorem over_new {declaredLength : Nat} {inner : Nat}
    (h : new medium.source inner declaredLength = .ok s) : Over medium s := by
  unfold new at h
  split at h
  · cases h
  rename_i innerLen inner' hseek
  split at h
  · cases h
  cases h
  have htarget : innerLen = medium.len := by
    simp only [source] at hseek
    split at hseek
    · rename_i new hnew
      cases hseek
      have hsum := (Nat.checkedAddSigned64_eq_some_iff.mp hnew).1
      omega
    · cases hseek
  exact ⟨htarget, htarget ▸ Nat.le_max_right declaredLength innerLen⟩

/-- For every medium, declared length and sequence of calls: the bytes served are the medium's own
    where it is readable, and zeros elsewhere, exactly when no read overruns. -/
theorem served_right_iff (medium : DamagedMedium) (inner declaredLength : Nat)
    (s : TolerantReader Nat) (hnew : new medium.source inner declaredLength = .ok s)
    (calls : List ReaderCall) :
    Run.Along (reader medium.source).after (ServedRight medium) calls s ↔
      Run.Along (reader medium.source).after (NoOverrun medium) calls s :=
  Run.along_congr (I := Over medium) (fun _ call hs => over_after hs call)
    (fun _ call hs => servedRight_iff hs call) (over_new hnew)

/-- Two sectors of ones, the first of which cannot be read. -/
def scratchedMedium : DamagedMedium where
  content := fun _ => 1
  len := 1024
  bad := fun sector => sector = 0

/-- A reader at the start of the medium. -/
def scratchedReader : TolerantReader Nat :=
  { inner := 0, innerLen := 1024, length := 1024, position := 0 }

theorem new_scratchedMedium : new scratchedMedium.source 0 1024 = .ok scratchedReader := rfl

theorem served_right_iff_scratched :
    Run.Along (reader scratchedMedium.source).after (ServedRight scratchedMedium)
        [.read 1024, .seek (.start 256), .read 256] scratchedReader ↔
      Run.Along (reader scratchedMedium.source).after (NoOverrun scratchedMedium)
        [.read 1024, .seek (.start 256), .read 256] scratchedReader :=
  served_right_iff scratchedMedium 0 1024 scratchedReader new_scratchedMedium _

/-- A read of 512 bytes from the middle of the unreadable sector serves zeros for the first half
    of the readable one. -/
theorem not_served_right_scratched : new scratchedMedium.source 0 1024 = .ok scratchedReader ∧
    ¬ Run.Along (reader scratchedMedium.source).after (ServedRight scratchedMedium)
        [.seek (.start 256), .read 512] scratchedReader := by
  refine ⟨new_scratchedMedium, ?_⟩
  rintro ⟨-, hread, -⟩
  have hover : Over scratchedMedium { scratchedReader with position := 256 } :=
    ⟨rfl, Nat.le_refl 1024⟩
  have hzero := (servedRight_iff hover (.read 512)).mp hread (by decide) (by decide) 512 (by decide)
    (by decide) (by decide)
  exact absurd hzero (by decide)

/-! ### The length a reader presents -/

section Length

variable {σ : Type} {source : ReadSeek IoError σ} {s t : TolerantReader σ}

/-- The seeks of the source succeed, and its reads return no more than they are asked for. -/
structure Answers (source : ReadSeek IoError σ) : Prop where
  seek : ∀ position inner, ∃ offset inner', source.seek (.start position) inner = .ok offset inner'
  read : ∀ n inner bytes inner', source.read n inner = .ok bytes inner' → bytes.length ≤ n

/-- A read of `n` bytes asks the source, which is interrupted. -/
def Interrupted (source : ReadSeek IoError σ) (s : TolerantReader σ) (n : Nat) : Prop :=
  s.position < min s.length s.innerLen ∧ ∃ offset inner inner',
    source.seek (.start s.position) s.inner = .ok offset inner ∧
    source.read (min (min (s.length - s.position) n) (s.innerLen - s.position)) inner =
      .error .interrupted inner'

/-- What a read of `n` bytes below the length returns: nothing only if the source is interrupted. -/
structure Moved (source : ReadSeek IoError σ) (s : TolerantReader σ) (n : Nat) (bytes : Bytes)
    (t : TolerantReader σ) : Prop where
  position : t.position = s.position + bytes.length
  length : t.length = s.length
  le : t.position ≤ t.length
  nil_iff : bytes = [] ↔ Interrupted source s n

theorem Moved.zeros (hposition : t.position = s.position + count) (hlength : t.length = s.length)
    (hle : t.position ≤ t.length) (hpos : 0 < count) (hno : ¬ Interrupted source s n) :
    Moved source s n (zeros count) t := by
  refine ⟨by rw [hposition, length_zeros], hlength, hle, ?_⟩
  simp only [hno, iff_false, ← length_pos_iff, length_zeros, hpos]

/-- A read below the end moves on, whatever the source answers. -/
theorem exists_moved (h : Answers source) (hn : 0 < n) (hbelow : s.position < s.length) :
    ∃ bytes t, read source n s = .ok bytes t ∧ Moved source s n bytes t := by
  by_cases hpast : s.innerLen ≤ s.position
  · refine ⟨_, _, read_past (by omega) hpast, .zeros rfl rfl ?_ (by omega) fun hno => ?_⟩
    · show s.position + min _ _ ≤ s.length
      omega
    · have hlt := hno.1
      omega
  obtain ⟨want, hwant⟩ :
      ∃ want, min (min (s.length - s.position) n) (s.innerLen - s.position) = want := ⟨_, rfl⟩
  obtain ⟨offset, inner, hseek⟩ := h.seek s.position s.inner
  have hiff : Interrupted source s n ↔
      ∃ inner', source.read want inner = .error .interrupted inner' := by
    rw [Interrupted, and_iff_right (Nat.lt_min.mpr ⟨hbelow, Nat.lt_of_not_le hpast⟩)]
    simp [hseek, hwant]
  rw [read_inside (by omega) hpast hwant hseek]
  cases hread : source.read want inner with
  | ok bytes inner' =>
    have hno : ¬ Interrupted source s n := by simp [hiff, hread]
    have hle := h.read _ _ _ _ hread
    dsimp only
    split
    · refine ⟨_, _, rfl, .zeros rfl rfl ?_ (by omega) hno⟩
      show s.position + want ≤ s.length
      omega
    · rename_i hne
      refine ⟨_, _, rfl, rfl, rfl, ?_, by simp [hno, hne]⟩
      show s.position + bytes.length ≤ s.length
      omega
  | error e inner' =>
    have hcount : 0 < (s.absentHeadLength e want).getD (min errorZeroFillGranule want) ∧
        s.position + (s.absentHeadLength e want).getD
          (min errorZeroFillGranule want) ≤ s.length := by
      unfold absentHeadLength errorZeroFillGranule
      grind
    cases e with
    | interrupted => exact ⟨_, _, rfl, rfl, rfl, Nat.le_of_lt hbelow, by simp [hiff, hread]⟩
    | _ => exact ⟨_, _, rfl, .zeros rfl rfl hcount.2 hcount.1 (by simp [hiff, hread])⟩

/-- Reads into buffers of these sizes until one of them stays empty. -/
def readToEnd (source : ReadSeek IoError σ) : List Nat → EStateM IoError (TolerantReader σ) Bytes
  | [] => pure []
  | n :: buffers => do
    let bytes ← read source n
    if bytes = [] then pure []
    else do
      let rest ← readToEnd source buffers
      pure (bytes ++ rest)

/-- Reading to the end returns all the bytes up to the length if the source is not interrupted. -/
theorem length_readToEnd (h : Answers source) {buffers : List Nat} (hbuffers : ∀ n ∈ buffers, 0 < n)
    (hmany : s.length - s.position < buffers.length)
    (hrun : Run.Along (fun s n => (read source n s).state) (fun s n => ¬ Interrupted source s n)
      buffers s) :
    ∃ bytes t, readToEnd source buffers s = .ok bytes t ∧ bytes.length = s.length - s.position := by
  induction buffers generalizing s with
  | nil => exact absurd hmany (Nat.not_lt_zero _)
  | cons n buffers ih =>
    by_cases hend : s.length ≤ s.position
    · refine ⟨[], s, ?_, (Nat.sub_eq_zero_of_le hend).symm⟩
      rw [readToEnd, bind_run_ok (read_eq_nil (.inr hend))]
      rfl
    obtain ⟨bytes, t, hread, hposition, hlength, hle, hnil⟩ :=
      exists_moved h (hbuffers n mem_cons_self) (Nat.lt_of_not_le hend)
    have hne : bytes ≠ [] := fun hempty => hrun.1 (hnil.mp hempty)
    have hpos := length_pos_iff.mpr hne
    have hnext := hrun.2
    simp only [hread] at hnext
    rw [length_cons] at hmany
    obtain ⟨rest, u, hrest, hcount⟩ := ih (s := t) (fun n hn => hbuffers n (mem_cons_of_mem _ hn))
      (by omega) hnext
    refine ⟨bytes ++ rest, u, ?_, by rw [length_append]; omega⟩
    rw [readToEnd, bind_run_ok hread, if_neg hne, bind_run_ok hrest]
    rfl

/-- A read with room in its buffer, below the length, returns at least one byte and moves by as
    many as it returns. -/
def Advances (source : ReadSeek IoError σ) (s : TolerantReader σ) (n : Nat) : Prop :=
  ∃ bytes t, read source n s = .ok bytes t ∧ 0 < bytes.length ∧
    t.position = s.position + bytes.length

/-- For every source whose seeks succeed: a read below the length advances exactly when the source
    is not interrupted in it, and reading to the end returns all the bytes up to the length when
    this is so for each of its reads. -/
theorem presents_length_iff (source : ReadSeek IoError σ) (h : Answers source)
    (s : TolerantReader σ) :
    (∀ n, 0 < n → s.position < s.length → (Advances source s n ↔ ¬ Interrupted source s n)) ∧
    ∀ buffers : List Nat, (∀ n ∈ buffers, 0 < n) → s.length - s.position < buffers.length →
      Run.Along (fun s n => (read source n s).state) (fun s n => ¬ Interrupted source s n) buffers
        s →
      ∃ bytes t, readToEnd source buffers s = .ok bytes t ∧
        bytes.length = s.length - s.position := by
  refine ⟨fun n hn hbelow => ?_, fun buffers => length_readToEnd h⟩
  obtain ⟨bytes, t, hread, hposition, -, -, hnil⟩ := exists_moved h hn hbelow
  rw [← hnil]
  constructor
  · rintro ⟨bytes', t', hread', hpos, -⟩ rfl
    cases hread.symm.trans hread'
    exact absurd hpos (Nat.lt_irrefl 0)
  · intro hne
    exact ⟨bytes, t, hread, length_pos_iff.mpr hne, hposition⟩

/-- Two bytes in a source whose first read is interrupted. -/
def interruptedOnce : ReadSeek IoError (Bool × Nat) where
  read := fun n (interrupted, position) =>
    if interrupted then
      .ok (([1, 2].drop position).take n) (true, min (position + n) 2)
    else .error .interrupted (true, position)
  seek := fun target (interrupted, position) =>
    match target with
    | .start offset => .ok offset (interrupted, offset)
    | .current _ => .ok position (interrupted, position)
    | .fromEnd _ => .ok 2 (interrupted, 2)

theorem answers_interruptedOnce : Answers interruptedOnce where
  seek := fun position inner => ⟨position, (inner.1, position), rfl⟩
  read := by
    rintro n ⟨interrupted, position⟩ bytes inner' h
    cases interrupted with
    | false => cases h
    | true =>
      cases h
      exact length_take_le n _

/-- Behind the interruption. -/
theorem presents_length_behind_interruption : Advances interruptedOnce ⟨(true, 0), 2, 2, 1⟩ 1 ∧
    ∃ bytes t, readToEnd interruptedOnce [1, 1] ⟨(true, 0), 2, 2, 1⟩ = .ok bytes t ∧
      bytes.length = 1 := by
  obtain ⟨hstep, hrun⟩ :=
    presents_length_iff interruptedOnce answers_interruptedOnce ⟨(true, 0), 2, 2, 1⟩
  have hno : ¬ Interrupted interruptedOnce ⟨(true, 0), 2, 2, 1⟩ 1 := by
    rintro ⟨-, offset, inner, inner', ⟨⟩, ⟨⟩⟩
  refine ⟨(hstep 1 (by decide) (by decide)).mpr hno, hrun [1, 1] (by decide) (by decide) ?_⟩
  exact ⟨hno, fun hlate => absurd hlate.1 (by decide), trivial⟩

/-- The first read returns nothing in front of two bytes, and reading to the end ends there. -/
theorem not_presents_length_interrupted : Answers interruptedOnce ∧
    ∃ s, new interruptedOnce (false, 0) 2 = .ok s ∧ s.position = 0 ∧ s.length = 2 ∧
      ¬ Advances interruptedOnce s 2 ∧
      ∃ t, readToEnd interruptedOnce [2, 2, 2] s = .ok [] t := by
  refine ⟨answers_interruptedOnce, _, rfl, rfl, rfl, ?_, _, rfl⟩
  rintro ⟨bytes, t, ⟨⟩, hpos, -⟩
  exact absurd hpos (Nat.lt_irrefl 0)

end Length

end TolerantReader

end Fsmnt.Device
