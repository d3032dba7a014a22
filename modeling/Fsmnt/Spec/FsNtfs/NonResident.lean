import Fsmnt.ForStd.Run
import Fsmnt.Native.FsNtfs.NonResident
import Fsmnt.Spec.FsNtfs.DataRunMap

/-!
# The stream of a non-resident value

A value is the bytes of its runs, with zeros from the initialized size on, up to the data size. The
reader keeps the run it is in. While the position is inside the initialized part, the place in the
run is the place of the position; behind it, where no byte of a run is read any more, the run may
lag, and at the end of the value it may be anywhere.
-/

namespace Fsmnt.FsNtfs

open Bytes EStateM List StreamState NtfsDataRun

variable {n passes left : Nat}

/-- The byte of a value at an offset. -/
def valueByte (content : Nat → UInt8) (runs : List NtfsDataRun) (initializedSize q : Nat) : UInt8 :=
  if q < initializedSize then runByte content runs q else 0

namespace NonResidentValue

variable {σ : Type} {fs : BlockReader NtfsError σ} {image : ByteImage} {pos : σ → Nat}
  {I : σ → Prop} {runs front : List NtfsDataRun} {size initialized q : Nat} {s t : State σ}
  {E : NtfsError → State σ → Prop} {Q : Bool → State σ → Prop} {run : NtfsDataRun}
  {call : ReaderCall}

/-- The reader is `v` bytes behind the start of the runs. -/
def PointsAt (runs : List NtfsDataRun) (s : State σ) (v : Nat) : Prop :=
  ∃ front run sp, runs = front ++ run :: s.iterator.rest ∧
    s.streamDataRun = some { run.opened with streamPosition := sp } ∧
    sp ≤ run.allocatedSize ∧ v = totalLength front + sp

/-- The bytes of the value from `start` up to `stop` have a run, and those that are read from the
    disk are in the image. -/
def Held (image : ByteImage) (runs : List NtfsDataRun) (initialized start stop : Nat) : Prop :=
  ∀ q, start ≤ q → q < stop → q < totalLength runs ∧
    (q < initialized → ∀ p, diskOffset runs q = some p → p < image.length)

/-- What stays as it is while a value is read. -/
structure Over (I : σ → Prop) (runs : List NtfsDataRun) (size initialized : Nat) (s : State σ) :
    Prop where
  fs : I s.fs
  dataRuns : s.iterator.dataRuns = runs
  dataSize : s.dataSize = size
  initializedSize : s.initializedSize = initialized

/-- The place in the runs fits the position. -/
def InSync (runs : List NtfsDataRun) (s : State σ) : Prop :=
  ∃ v, PointsAt runs s v ∧ v ≤ s.streamPosition ∧
    (s.streamPosition < s.initializedSize → v = s.streamPosition)

/-- The state of a reader between two calls. -/
structure Inv (I : σ → Prop) (runs : List NtfsDataRun) (size initialized : Nat) (s : State σ) :
    Prop extends Over I runs size initialized s where
  inSync : s.streamPosition < min size (totalLength runs) → InSync runs s

/-! ### Reads -/

/-- What a pass of the read loop returns. -/
structure PartRead (image : ByteImage) (runs : List NtfsDataRun) (size initialized n : Nat)
    (s : State σ) (bs : Bytes) (t : State σ) : Prop where
  bytes : bs = Bytes.window (valueByte image.content runs initialized) s.streamPosition bs.length
  pos : 0 < bs.length
  length_le : bs.length ≤ min n (size - s.streamPosition)
  position : t.streamPosition = s.streamPosition + bs.length
  rest : t.iterator.rest = s.iterator.rest

/-- The byte of a value inside a run. -/
theorem valueByte_run {content : Nat → UInt8} {rest : List NtfsDataRun} (h : totalLength front ≤ q)
    (hlt : q < totalLength front + run.allocatedSize) (hinit : q < initialized) :
    valueByte content (front ++ run :: rest) initialized q =
      match run.position with
      | some p => content (p + (q - totalLength front))
      | none => 0 := by
  rw [valueByte, if_pos hinit, runByte, diskOffset_append h, diskOffset, if_pos (by omega)]
  cases run.position with
  | none | some p => rfl

theorem post_readRunBytes (hfs : fs.ServesImage image pos I) (hs : I s.fs) {sp : Nat}
    (hheld : ∀ p, run.position = some p → p + sp < image.length) (hq : q = totalLength front + sp)
    (hn : 0 < n) (hle : sp + n ≤ run.allocatedSize) (hinit : q + n ≤ initialized) :
    Post (readRunBytes fs { run.opened with streamPosition := sp } n) s
      (fun bs t => (∃ fs, t = { s with fs } ∧ I fs) ∧ 0 < bs.length ∧ bs.length ≤ n ∧
        bs = window (valueByte image.content (front ++ run :: s.iterator.rest) initialized)
          q bs.length)
      (fun _ _ => False) := by
  have hbyte : ∀ i < n, valueByte image.content (front ++ run :: s.iterator.rest) initialized
      (q + i) = match run.position with
        | some p => image.content (p + sp + i)
        | none => 0 := by
    intro i hi
    rw [valueByte_run (by omega) (by omega) (by omega),
      show q + i - totalLength front = sp + i by omega]
    simp only [Nat.add_assoc]
  simp only [readRunBytes, opened]
  cases hp : run.position with
  | none =>
    rw [hp] at hbyte
    refine ⟨⟨s.fs, rfl, hs⟩, ?_, ?_, ?_⟩
    · rwa [length_zeros]
    · exact Nat.le_of_eq (length_zeros n)
    · rw [length_zeros, zeros, ← window_const 0 q n]
      exact (window_congr hbyte).symm
  | some p =>
    rw [hp] at hbyte
    simp only [readDisk, post_bind, onFs, post_zoom]
    refine ((hfs.seek_start (p + sp) s.fs hs).and (hfs.seek_ok (p + sp) s.fs hs)).mono ?_
      fun _ _ h => h.2
    rintro _ d ⟨⟨hd, hpos⟩, -⟩
    refine ((hfs.read n d hd).and (hfs.read_ok n d hd hn (hpos ▸ hheld p hp))).mono ?_ fun _ _ h =>
      h.2
    rintro bs d' ⟨⟨hd', hbs, hlen, -⟩, hne⟩
    refine ⟨⟨d', rfl, hd'⟩, hne, hlen, ?_⟩
    rw [hpos] at hbs
    refine hbs.trans (window_inj.mpr ?_)
    intro i hi
    exact (hbyte i (by omega)).symm

/-- A pass inside the value reads on, unless the run is at its end. -/
theorem post_readDataRun (hfs : fs.ServesImage image pos I) (hs : Inv I runs size initialized s)
    (hlt : s.streamPosition < size) (hn : 0 < n)
    (hheld : Held image runs initialized s.streamPosition (min (s.streamPosition + n) size))
    (hslice : n < 2 ^ 63) : Post (readDataRun fs n) s (fun r t => match r with
        | some bs => Inv I runs size initialized t ∧
            PartRead image runs size initialized n s bs t
        | none => t = s ∧ ∃ front run, runs = front ++ run :: s.iterator.rest ∧
            totalLength front + run.allocatedSize ≤ s.streamPosition ∧
            (s.streamPosition < s.initializedSize →
              totalLength front + run.allocatedSize = s.streamPosition))
      (fun _ _ => False) := by
  obtain ⟨hmapped, hdisk⟩ := hheld s.streamPosition (Nat.le_refl _) (by omega)
  obtain ⟨v, ⟨front, run, sp, rfl, hrun, hsp, rfl⟩, hle, hsync⟩ := hs.inSync (by omega)
  have hsize := hs.dataSize
  have hinitialized := hs.initializedSize
  simp only [readDataRun, post_bind, post_get, hrun, post_ite, post_pure, post_throw, post_set]
  refine ⟨fun hend => ?_, fun hnot => ⟨fun h => by omega, fun _ => ⟨fun hzero => ⟨fun h => by omega,
    fun _ => ⟨fun h => by omega, fun _ => ?_⟩⟩, fun hinit => ?_⟩⟩⟩
  · -- the run is at its end
    have hfull : sp = run.allocatedSize := Nat.le_antisymm hsp hend
    rw [hfull] at hle hsync
    exact ⟨trivial, front, run, rfl, hle, hsync⟩
  · -- behind the initialized size zeros are returned, and the run may stay behind
    simp only [OpenDataRun.remainingLen, opened] at hnot ⊢
    refine ⟨⟨{ hs with }, fun _ =>
      ⟨_, ⟨front, run, _, rfl, rfl, by omega, rfl⟩, by simp only; omega, fun h => ?_⟩⟩, ?_, ?_, ?_,
        ?_, rfl⟩
    · simp only at h
      omega
    · rw [length_zeros, zeros, ← window_const 0 s.streamPosition]
      apply window_congr
      intro i _
      rw [valueByte, if_neg (by omega)]
    · rw [length_zeros]
      omega
    · exact Nat.le_of_eq (by rw [length_zeros, hsize])
    · rw [length_zeros]
  · -- inside the initialized size the run is in step
    have hpoint := hsync (by omega)
    simp only [readRun, post_ite, post_pure, post_bind, post_modify]
    refine ⟨fun h => ?_, fun _ => ?_⟩
    · simp only [OpenDataRun.remainingLen] at h hnot
      omega
    simp only [opened] at hnot
    have hinside : ∀ p, run.position = some p → p + sp < image.length := by
      intro p hp
      apply hdisk (by omega)
      rw [← hpoint, diskOffset_append (Nat.le_add_right _ _), Nat.add_sub_cancel_left, diskOffset,
        if_pos (by omega), hp, Option.map_some]
    have hle' : s.streamPosition + min (min (min n (s.dataSize - s.streamPosition))
        (s.initializedSize - s.streamPosition)) (run.allocatedSize - sp) ≤ initialized := by omega
    refine (post_readRunBytes hfs hs.fs hinside hpoint.symm (by omega) (by omega) hle').imp ?_
    rintro bs t ⟨⟨d, rfl, hd⟩, hpos, hlen, hbytes⟩
    refine ⟨fun h => by omega, fun _ => ⟨⟨{ hs with fs := hd }, fun _ =>
      ⟨_, ⟨front, run, _, rfl, rfl, by omega, rfl⟩, ?_, ?_⟩⟩, hbytes, hpos, by omega, rfl, rfl⟩⟩
    · simp only
      omega
    · intro _
      simp only
      omega

/-- At the end of the value a pass reads nothing. -/
theorem post_readDataRun_end (h : s.dataSize ≤ s.streamPosition) :
    Post (readDataRun fs n) s (fun r t => r = none ∧ t = s) (fun _ _ => False) := by
  rw [readDataRun, post_bind, post_get]
  cases s.streamDataRun with
  | none => exact ⟨rfl, rfl⟩
  | some run =>
    simp only [post_ite, post_pure]
    exact ⟨fun _ => ⟨trivial, trivial⟩, fun _ =>
      ⟨fun _ => ⟨trivial, trivial⟩, fun hne => absurd (Nat.sub_eq_zero_of_le h) hne⟩⟩

/-- The next run is taken from the rest of the list. -/
theorem post_advanceRun :
    Post (advanceRun nextDataRun) s Q E ↔ match s.iterator.rest with
      | [] => Q false s
      | run :: rest => Q true
          { s with iterator := { s.iterator with rest }, streamDataRun := some run.opened } := by
  simp only [advanceRun, post_bind, nextDataRun, post_get]
  cases s.iterator.rest with
  | nil | cons run rest => exact Iff.rfl

/-- The read loop returns what is left of the value, as far as the buffer goes. -/
theorem post_readLoop (hfs : fs.ServesImage image pos I) (hs : Inv I runs size initialized s)
    (hheld : Held image runs initialized s.streamPosition (min (s.streamPosition + n) size))
    (hslice : n < 2 ^ 63) (hpasses : n + s.iterator.rest.length < passes) :
      Post (readLoop fs nextDataRun passes n) s
      (fun bs t => Inv I runs size initialized t ∧
        bs = window (valueByte image.content runs initialized) s.streamPosition
          (min n (size - s.streamPosition)) ∧
        t.streamPosition = s.streamPosition + bs.length)
      (fun _ _ => False) := by
  induction passes generalizing n s with
  | zero => omega
  | succ passes ih =>
    simp only [readLoop, post_ite, post_pure, post_bind]
    refine ⟨fun hzero => ⟨hs, by rw [hzero, Nat.zero_min, window_zero], rfl⟩, fun hn => ?_⟩
    by_cases hlt : s.streamPosition < size
    · refine (post_readDataRun hfs hs hlt (Nat.pos_of_ne_zero hn) hheld hslice).imp ?_
      rintro (_ | bs) t ht
      · -- a run that is at its end: the next one starts where it ends
        obtain ⟨rfl, front, run, hsplit, hle, hsync⟩ := ht
        simp only [post_bind, post_advanceRun]
        cases hrest : t.iterator.rest with
        | nil =>
          have hmapped := (hheld t.streamPosition (Nat.le_refl _) (by omega)).1
          rw [hsplit, hrest, totalLength_append, totalLength_cons, totalLength_nil] at hmapped
          omega
        | cons next rest =>
          refine ih ⟨{ hs with }, fun _ => ?_⟩ hheld hslice ?_
          · refine ⟨totalLength front + run.allocatedSize, ⟨front ++ [run], next, 0, ?_, rfl,
              Nat.zero_le _, ?_⟩, hle, hsync⟩
            · rw [hsplit, hrest, append_assoc]
              rfl
            · simp
          · rw [hrest, length_cons] at hpasses
            simp only
            omega
      · obtain ⟨ht, hpart⟩ := ht
        have hle := hpart.length_le
        have hpos := hpart.pos
        have hposition := hpart.position
        simp only [post_bind, post_pure]
        refine (ih ht (fun q hq hlt => hheld q (by omega) (by omega)) (by omega)
          (by rw [hpart.rest]; omega)).imp ?_
        rintro rest u ⟨hu, hbytes, huposition⟩
        refine ⟨hu, ?_, by rw [huposition, hposition, length_append, Nat.add_assoc]⟩
        rw [hbytes, hposition, hpart.bytes, length_window, window_append]
        congr 1
        omega
    · -- at the end of the value the runs that are left are used up
      have hend : min n (size - s.streamPosition) = 0 := by omega
      refine (post_readDataRun_end (by rw [hs.dataSize]; omega)).imp ?_
      rintro r t ⟨rfl, rfl⟩
      simp only [post_bind, post_advanceRun]
      cases hrest : t.iterator.rest with
      | nil => exact ⟨hs, by rw [hend, window_zero], rfl⟩
      | cons next rest =>
        refine ih ⟨{ hs with }, fun h => absurd (Nat.lt_of_lt_of_le h (Nat.min_le_left _ _)) hlt⟩
          hheld hslice ?_
        rw [hrest, length_cons] at hpasses
        simp only
        omega

/-! ### Seeks -/

theorem post_advanceSeek :
    Post (advanceSeek nextDataRun) s Q E ↔ match s.iterator.rest with
      | [] => Q false { s with streamDataRun := none }
      | run :: rest => Q true
          { s with iterator := { s.iterator with rest }, streamDataRun := some run.opened } := by
  simp only [advanceSeek, post_bind, post_advanceRun]
  cases s.iterator.rest with
  | nil | cons run rest => exact Iff.rfl

theorem post_seekDataRun_over {pos : StreamSeek} (hs : Over I runs size initialized s) :
    Post (seekDataRun pos left) s
      (fun _ t => Over I runs size initialized t ∧ t.streamPosition = s.streamPosition)
      (fun _ _ => False) := by
  rw [seekDataRun, post_bind, post_get]
  cases s.streamDataRun with
  | none => exact ⟨hs, rfl⟩
  | some run =>
    simp only [post_ite, post_bind, post_set, post_pure]
    exact ⟨fun _ => ⟨{ hs with }, trivial⟩, fun _ => ⟨hs, trivial⟩⟩

/-- Whatever run the reader is in, a seek loop only moves it. -/
theorem post_seekRuns_over {pos : StreamSeek} (hs : Over I runs size initialized s) :
    Post (seekRuns nextDataRun pos passes left) s
      (fun _ t => Over I runs size initialized t ∧ t.streamPosition = s.streamPosition)
      (fun _ _ => False) := by
  induction passes generalizing left s with
  | zero => exact ⟨hs, rfl⟩
  | succ passes ih =>
    simp only [seekRuns, post_ite, post_pure, post_bind]
    refine ⟨fun _ => ⟨hs, trivial⟩, fun _ => ?_⟩
    refine (post_seekDataRun_over hs).imp ?_
    rintro (_ | left') t ⟨ht, hposition⟩
    · exact ⟨ht, hposition⟩
    · simp only [post_bind, post_advanceSeek, ← hposition]
      cases t.iterator.rest with
      | nil => exact ⟨{ ht with }, rfl⟩
      | cons run rest => exact ih { ht with }

/-- A seek of `left` bytes from a place in the runs; from the start, the run is at its own. -/
theorem post_seekRuns {pos : StreamSeek} {v : Nat} (hs : PointsAt runs s v)
    (hpos : ∀ n run, pos = .start n → s.streamDataRun = some run → run.streamPosition = 0)
    (hlt : v + left < totalLength runs) (hpasses : s.iterator.rest.length < passes) :
    Post (seekRuns nextDataRun pos passes left) s
      (fun _ t => PointsAt runs t (v + left)) (fun _ _ => False) := by
  induction passes generalizing left v s with
  | zero => omega
  | succ passes ih =>
    obtain ⟨front, run, sp, hsplit, hrun, hsp, rfl⟩ := hs
    simp only [seekRuns, post_ite, post_pure, post_bind, seekDataRun, post_get, hrun, post_set]
    refine ⟨fun hzero => ?_, fun _ => ⟨fun hin => ?_, fun hout => ?_⟩⟩
    · rw [hzero]
      exact ⟨front, run, sp, hsplit, hrun, hsp, rfl⟩
    · simp only [OpenDataRun.remainingLen, opened] at hin
      refine ⟨front, run, sp + left, hsplit, ?_, by omega, by omega⟩
      cases pos with
      | start n =>
        have hzero : sp = 0 := hpos n _ rfl hrun
        simp only [seekInRun, hzero, Nat.zero_add]
      | current n => rfl
    · simp only [OpenDataRun.remainingLen, opened] at hout ⊢
      simp only [post_advanceSeek]
      have htotal : totalLength runs = totalLength front + (run.allocatedSize +
          totalLength s.iterator.rest) := by rw [hsplit, totalLength_append, totalLength_cons]
      cases hrest : s.iterator.rest with
      | nil =>
        rw [hrest, totalLength_nil] at htotal
        omega
      | cons next rest =>
        have hnext : totalLength front + sp + left = totalLength (front ++ [run]) +
            (left - (run.allocatedSize - sp)) := by
          simp only [totalLength_append, totalLength_cons, totalLength_nil]
          omega
        rw [hnext] at hlt ⊢
        refine ⟨fun _ => ?_, fun h => absurd trivial h⟩
        refine ih (s := { s with
            iterator := { s.iterator with rest }, streamDataRun := some next.opened })
          ⟨front ++ [run], next, 0, ?_, rfl, Nat.zero_le _, rfl⟩ ?_ hlt ?_
        · rw [hsplit, hrest, append_assoc]
          rfl
        · rintro n _ _ ⟨⟩
          rfl
        · rw [hrest, length_cons] at hpasses
          simp only
          omega

/-- A seek to `base + n`, where the reader is in sync with `base`. -/
theorem post_seekLoop (hs : Over I runs size initialized s)
    {pos : StreamSeek} (base : Nat) (htarget : pos.target s.streamPosition = base + n)
    (hfrom : ∀ m run, pos = .start m → s.streamDataRun = some run → run.streamPosition = 0)
    (hsync : base + n < min size (totalLength runs) →
      ∃ v, PointsAt runs s v ∧ v ≤ base ∧ (base < initialized → v = base))
    (hpasses : runs.length ≤ passes) : Post (seekLoop nextDataRun passes pos n) s
      (fun r t => r = base + n ∧ t.streamPosition = base + n ∧ Inv I runs size initialized t)
      (fun _ _ => False) := by
  have hmoved : Post (seekRuns nextDataRun pos passes n) s
      (fun _ t => (Over I runs size initialized t ∧ t.streamPosition = s.streamPosition) ∧
        (base + n < min size (totalLength runs) →
        ∃ v, PointsAt runs t v ∧ v ≤ base + n ∧ (base + n < initialized → v = base + n)))
      (fun _ _ => False) := by
    by_cases hlt : base + n < min size (totalLength runs)
    · obtain ⟨v, hv, hle, heq⟩ := hsync hlt
      have hrest : s.iterator.rest.length < passes := by
        obtain ⟨front, run, sp, hsplit, -⟩ := hv
        rw [hsplit, length_append, length_cons] at hpasses
        omega
      refine ((post_seekRuns_over hs).and (post_seekRuns hv hfrom (by omega) hrest)).mono ?_
        fun _ _ h => h.1
      rintro _ t ⟨hsame, hpoint⟩
      exact ⟨hsame, fun _ => ⟨v + n, hpoint, by omega, fun h => by have := heq (by omega); omega⟩⟩
    · exact (post_seekRuns_over hs).imp (fun _ _ h => ⟨h, fun h' => absurd h' hlt⟩)
  simp only [seekLoop, post_bind, post_modify, post_get, post_pure]
  refine hmoved.imp ?_
  rintro _ t ⟨⟨ht, hsame⟩, hpoint⟩
  rw [hsame, htarget]
  refine ⟨rfl, rfl, { ht with }, fun h => ?_⟩
  obtain ⟨v, hv, hle, heq⟩ := hpoint h
  exact ⟨v, hv, hle, ht.initializedSize ▸ heq⟩

theorem pointsAt_atStart {fs : σ} (h : runs ≠ []) :
    PointsAt runs (atStart fs runs size initialized) 0 := by
  cases runs with
  | nil => exact absurd rfl h
  | cons run runs => exact ⟨[], run, 0, rfl, rfl, Nat.zero_le _, rfl⟩

theorem ne_nil_of_lt (h : n < min size (totalLength runs)) : runs ≠ [] := by
  rintro rfl
  simp only [totalLength_nil] at h
  omega

theorem inv_new {fs : σ} (hfs : I fs) :
    Inv I runs size initialized (new fs runs size initialized) where
  fs := hfs
  dataRuns := rfl
  dataSize := rfl
  initializedSize := rfl
  inSync := by
    intro hlt
    exact ⟨0, pointsAt_atStart (ne_nil_of_lt hlt), Nat.le_refl 0, fun _ => rfl⟩

theorem optimizeSeek_eq (position : SeekFrom) :
    match position.target s.dataSize s.streamPosition with
    | none => s.optimizeSeek position s.dataSize = .error .invalidInput
    | some q => s.optimizeSeek position s.dataSize = .ok (.start q) ∨
        ∃ n, s.optimizeSeek position s.dataSize = .ok (.current n) ∧ q = s.streamPosition + n := by
  -- a seek from the start may become one from the current position
  have hstart : ∀ q, s.simplifySeek position s.dataSize = .ok (.start q) →
      s.optimizeSeek position s.dataSize = .ok (.start q) ∨
        ∃ n, s.optimizeSeek position s.dataSize = .ok (.current n) ∧ q = s.streamPosition + n := by
    intro q hq
    unfold optimizeSeek
    rw [hq]
    simp only
    split
    · rename_i h
      exact .inr ⟨_, rfl, by omega⟩
    · exact .inl rfl
  cases position with
  | start n => exact hstart n rfl
  | fromEnd n =>
    simp only [SeekFrom.target]
    cases hq : s.dataSize.checkedAddSigned64 n with
    | none => simp only [optimizeSeek, simplifySeek, hq]
    | some q => exact hstart q (by simp only [simplifySeek, hq])
  | current n =>
    simp only [SeekFrom.target]
    cases hq : s.streamPosition.checkedAddSigned64 n with
    | none => simp only [optimizeSeek, simplifySeek, hq]
    | some q =>
      by_cases hn : 0 ≤ n
      · refine .inr ⟨n.toNat, ?_, ?_⟩
        · simp only [optimizeSeek, simplifySeek, hq, if_pos hn]
        · have := (Nat.checkedAddSigned64_eq_some_iff.mp hq).1
          omega
      · exact hstart q (by simp only [simplifySeek, hq, if_neg hn])

/-- A seek goes where it asks for, or fails and leaves the reader as it is. -/
theorem post_seek (hs : Inv I runs size initialized s) (position : SeekFrom) :
    Post (seek position) s
      (fun r t => position.target size s.streamPosition = some r ∧ t.streamPosition = r ∧
        Inv I runs size initialized t)
      (fun e t => position.target size s.streamPosition = none ∧ e = .invalidInput ∧ t = s) := by
  have hopt := optimizeSeek_eq (s := s) position
  obtain rfl := hs.dataSize
  have hpasses : runs.length ≤ s.iterator.dataRuns.length + 1 := by
    rw [hs.dataRuns]
    exact Nat.le_succ _
  rw [seek, post_bind, post_get]
  cases hq : position.target s.dataSize s.streamPosition with
  | none =>
    rw [hq] at hopt
    rw [hopt]
    exact ⟨rfl, rfl, rfl⟩
  | some q =>
    rw [hq] at hopt
    refine Post.mono (Q := fun r t => r = q ∧ t.streamPosition = q ∧
      Inv I runs s.dataSize initialized t) (E := fun _ _ => False) ?_
      (fun r t ht => ⟨congrArg some ht.1.symm, ht.2.1.trans ht.1.symm, ht.2.2⟩) nofun
    rcases hopt with hopt | ⟨n, hopt, rfl⟩
    · rw [hopt]
      have hstart : Over I runs s.dataSize initialized
          (atStart s.fs s.iterator.dataRuns s.dataSize s.initializedSize) :=
        { hs with }
      have htarget : (StreamSeek.start q).target 0 = 0 + q := (Nat.zero_add q).symm
      refine (post_seekLoop hstart 0 htarget ?_ ?_ hpasses).imp fun _ _ ht => Nat.zero_add q ▸ ht
      · intro m run _ hrun
        simp only [atStart, Option.map_eq_some_iff] at hrun
        obtain ⟨first, -, rfl⟩ := hrun
        rfl
      · intro hlt
        refine ⟨0, ?_, Nat.le_refl 0, fun _ => rfl⟩
        rw [hs.dataRuns]
        exact pointsAt_atStart (ne_nil_of_lt hlt)
    · rw [hopt]
      refine post_seekLoop hs.toOver s.streamPosition rfl ?_ ?_ hpasses
      · rintro m run ⟨⟩
      · intro hlt
        obtain ⟨v, hv, hle, heq⟩ := hs.inSync (by omega)
        exact ⟨v, hv, hle, hs.initializedSize ▸ heq⟩

/-! ### Whole runs -/

/-- What a call should do to a value that is a stream of bytes. -/
def CallRight (fs : BlockReader NtfsError σ) (content : Nat → UInt8) (runs : List NtfsDataRun)
    (size initialized : Nat) (s : State σ) : ReaderCall → Prop
  | .read n => ∃ t, (reader fs).read n s =
        .ok (Bytes.window (valueByte content runs initialized) s.streamPosition
          (min n (size - s.streamPosition))) t ∧
      t.streamPosition = s.streamPosition + min n (size - s.streamPosition)
  | .seek position =>
    match position.target size s.streamPosition with
    | some q => ∃ t, (reader fs).seek position s = .ok q t ∧ t.streamPosition = q
    | none => (reader fs).seek position s = .error .invalidInput s

/-- No slice has `2 ^ 63` bytes or more. -/
def FitsSlice : ReaderCall → Prop
  | .read n => n < 2 ^ 63
  | .seek _ => True

/-- Whether all bytes that a call asks for are held. -/
def AsksHeld (image : ByteImage) (runs : List NtfsDataRun) (size initialized : Nat) (s : State σ) :
    ReaderCall → Prop
  | .read n => Held image runs initialized s.streamPosition (min (s.streamPosition + n) size)
  | .seek _ => True

theorem asksHeld_of_runsInside (hruns : RunsInside image runs) (htotal : size ≤ totalLength runs) :
    AsksHeld image runs size initialized s call := by
  cases call with
  | read n =>
    intro q _ hq
    exact ⟨by omega, fun _ _ hp => (hruns.diskOffset_eq_some hp).2⟩
  | seek position => trivial

/-- Every call does what it should, and leaves the reader in sync. -/
theorem callRight (hfs : fs.ServesImage image pos I) (hs : Inv I runs size initialized s)
    (hcall : FitsSlice call) (hasks : AsksHeld image runs size initialized s call) :
    CallRight fs image.content runs size initialized s call ∧
      Inv I runs size initialized ((reader fs).after s call) := by
  cases call with
  | read n =>
    have hpost := post_readLoop hfs hs hasks hcall
      (Nat.lt_succ_self (n + s.iterator.rest.length))
    obtain ⟨bs, t, hrun, ht, rfl, hposition⟩ := hpost.exists_ok
    have hread : (reader fs).read n s = _ := hrun
    rw [length_window] at hposition
    refine ⟨⟨t, hread, hposition⟩, ?_⟩
    rw [ReadSeek.after, hread]
    exact ht
  | seek position =>
    have hpost := post_seek hs position
    unfold Post at hpost
    rw [CallRight]
    show _ ∧ Inv I runs size initialized (seek position s).state
    cases hrun : seek position s with
    | ok r t =>
      rw [hrun] at hpost
      obtain ⟨htarget, hposition, ht⟩ := hpost
      rw [htarget]
      exact ⟨⟨t, hrun, hposition⟩, ht⟩
    | error e t =>
      rw [hrun] at hpost
      obtain ⟨htarget, rfl, rfl⟩ := hpost
      rw [htarget]
      exact ⟨hrun, hs⟩

/-! ### Truncated images -/

/-- A read that succeeds returns bytes of the value, and none that the image does not have. -/
def ReadRight (fs : BlockReader NtfsError σ) (image : ByteImage) (runs : List NtfsDataRun)
    (initialized : Nat) (s : State σ) : ReaderCall → Prop
  | .read n => ∀ bs t, (reader fs).read n s = .ok bs t →
      bs = Bytes.window (valueByte image.content runs initialized) s.streamPosition bs.length ∧
      ∀ q, s.streamPosition ≤ q → q < s.streamPosition + bs.length → q < initialized →
        ∀ p, diskOffset runs q = some p → p < image.length
  | .seek _ => True

/-- For every run list and every image, also one that ends before or inside a run: as long as the
    calls ask for bytes that are held only, every read is right. -/
theorem readRight_of_asksHeld (fs : BlockReader NtfsError σ) (image : ByteImage) (pos : σ → Nat)
    (I : σ → Prop) (hfs : fs.ServesImage image pos I) (runs : List NtfsDataRun)
    (size initialized : Nat) (d : σ) (hd : I d) (calls : List ReaderCall)
    (hcalls : Run.Along (reader fs).after
      (fun s call => FitsSlice call ∧ AsksHeld image runs size initialized s call) calls
      (new d runs size initialized)) :
    Run.Along (reader fs).after (ReadRight fs image runs initialized) calls
      (new d runs size initialized) := by
  refine Run.along_of_along ?_ (inv_new hd) hcalls
  rintro s call hs ⟨hslice, hasks⟩
  obtain ⟨hright, hinv⟩ := callRight hfs hs hslice hasks
  refine ⟨?_, hinv⟩
  cases call with
  | seek position => trivial
  | read n =>
    obtain ⟨t, hread, -⟩ := hright
    intro bs u hrun
    rw [hread] at hrun
    cases hrun
    rw [length_window]
    exact ⟨rfl, fun q hq hlt hinit => (hasks q hq (by omega)).2 hinit⟩

/-- An image that has only the second of two clusters. -/
def cutImage : ByteImage := { content := fun _ => 1, length := 4096 }

/-- The two clusters. -/
def cutRuns : List NtfsDataRun :=
  [{ position := some 8192, allocatedSize := 512 }, { position := some 512, allocatedSize := 512 }]

/-- The second cluster is read where it is. -/
theorem readRight_behind_cut : Run.Along (reader (cutImage.reader .unexpectedEof)).after
    (ReadRight (cutImage.reader .unexpectedEof) cutImage cutRuns 1024)
    [.seek (.start 512), .read 1] (new 0 cutRuns 1024 1024) := by
  refine readRight_of_asksHeld _ cutImage id (fun _ => True) (cutImage.reader_serves _) _ 1024 _ 0
    trivial _ ⟨⟨trivial, trivial⟩, ⟨by simp [FitsSlice], ?_⟩, trivial⟩
  intro q (hq : 512 ≤ q) (hlt : q < 513)
  obtain rfl : q = 512 := by omega
  refine ⟨by decide, fun _ p hp => ?_⟩
  cases hp
  decide

/-- The second cluster is returned in the place of the first one, which is not in the image. -/
theorem not_readRight_cut : ¬ Run.Along (reader (cutImage.reader .unexpectedEof)).after
    (ReadRight (cutImage.reader .unexpectedEof) cutImage cutRuns 1024)
    [.read 1] (new 0 cutRuns 1024 1024) := by
  rintro ⟨h, -⟩
  obtain ⟨t, hread⟩ : ∃ t, (reader (cutImage.reader .unexpectedEof)).read 1
      (new 0 cutRuns 1024 1024) = .ok [1] t := ⟨_, rfl⟩
  have hin := (h [1] t hread).2 0 (by decide) (by decide) (by decide) 8192 rfl
  exact absurd hin (by decide)

end NonResidentValue

end Fsmnt.FsNtfs
