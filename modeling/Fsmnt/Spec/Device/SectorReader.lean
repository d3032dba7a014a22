import Fsmnt.ForStd.ReadContent
import Fsmnt.ForStd.Run
import Fsmnt.Native.Device.SectorReader

/-!
# A sector reader reads the content of its device

Every part of a read is cut from a sector that was loaded, or from whole sectors, at the position
that the reader has then. The position is moved part by part, so that a read that fails has already
passed the parts it copied.
-/

namespace Fsmnt.Device.SectorReader

open Bytes EStateM List

variable {σ : Type} {device : BlockReader IoError σ} {content : Nat → UInt8} {pos : σ → Nat}
  {I : σ → Prop} {s t : SectorReader σ} {size length n k : Nat} {inner : σ}

/-- The sector buffer holds the sector that the reader takes it to hold. -/
structure Inv (content : Nat → UInt8) (I : σ → Prop) (s : SectorReader σ) : Prop where
  inner : I s.inner
  sectorSize : 0 < s.sectorSize
  cached : ∀ k, s.cachedSector = some k → s.sector = window content k s.sectorSize

/-- What a part of a read does: it returns at most `n` bytes, those at the position, and moves
    behind them. -/
structure PartRead (content : Nat → UInt8) (I : σ → Prop) (s : SectorReader σ) (n : Nat)
    (bs : Bytes) (t : SectorReader σ) : Prop where
  inv : Inv content I t
  bytes : bs = window content s.position bs.length
  position : t.position = s.position + bs.length
  length_le : bs.length ≤ n
  sectorSize : t.sectorSize = s.sectorSize

theorem PartRead.nothing (hs : Inv content I s) (n : Nat) : PartRead content I s n [] s :=
  ⟨hs, rfl, rfl, Nat.zero_le n, rfl⟩

theorem PartRead.window {count : Nat} (ht : Inv content I t)
    (hposition : t.position = s.position + count) (hle : count ≤ n)
    (hsize : t.sectorSize = s.sectorSize) :
    PartRead content I s n (window content s.position count) t :=
  ⟨ht, by rw [length_window], by rw [length_window, hposition],
    by rw [length_window]; exact hle, hsize⟩

/-- Two parts, one after the other. -/
theorem PartRead.append {t u : SectorReader σ} {m : Nat} {as bs : Bytes}
    (h : PartRead content I s m as t) (h' : PartRead content I t n bs u)
    (hle : as.length + bs.length ≤ k) : PartRead content I s k (as ++ bs) u where
  inv := h'.inv
  bytes := by
    rw [length_append, ← window_append, ← h.position, ← h.bytes, ← h'.bytes]
  position := by rw [h'.position, h.position, length_append, Nat.add_assoc]
  length_le := by rw [length_append]; exact hle
  sectorSize := h'.sectorSize.trans h.sectorSize

theorem post_advance (hs : Inv content I s) (amount : Nat) : Post (advance amount) s
      (fun _ t => Inv content I t ∧ t.position = s.position + amount ∧
        t.sectorSize = s.sectorSize ∧ t.length = s.length)
      (fun _ t => Inv content I t ∧ 2 ^ 64 ≤ s.position + amount) := by
  simp only [advance, post_bind, post_get, post_ite, post_throw, post_modify]
  exact ⟨fun h => ⟨hs, h⟩, fun _ => ⟨{ hs with }, trivial, trivial, trivial⟩⟩

/-- A number of bytes at a position are whole sectors of the device. -/
def WholeSectors (size length : Nat) (request : Nat × Nat) : Prop :=
  size ∣ request.1 ∧ size ∣ request.2 ∧ request.1 + request.2 ≤ length

/-- A device of `length` bytes with `content`. If it is `total`, it is asked for whole sectors only,
    and does not fail on them. -/
structure ReadsSectors (device : BlockReader IoError σ) (content : Nat → UInt8) (pos : σ → Nat)
    (I : σ → Prop) (total : Prop) (size length : Nat) : Prop where
  seek_start : ∀ offset d, I d → Post (device.seek (.start offset)) d
    (fun _ d' => I d' ∧ pos d' = offset) (fun _ d' => I d' ∧ ¬ total)
  readExact : ∀ n d, I d → (total → WholeSectors size length (pos d, n)) →
    Post (device.readExact n) d
    (fun bs d' => I d' ∧ bs = window content (pos d) n) (fun _ d' => I d' ∧ ¬ total)

/-- The reader has the geometry of the device, and the next `n` bytes lie inside it. -/
structure Inside (size length : Nat) (s : SectorReader σ) (n : Nat) : Prop where
  sectorSize_eq : s.sectorSize = size
  length_eq : s.length = length
  dvd : size ∣ length
  length_lt : length < 2 ^ 64
  end_le : s.position + n ≤ length

theorem Inside.rest {bs : Bytes} (h : Inside size length s n) (hpart : PartRead content I s n bs t)
    (hlength : t.length = s.length) :
    Inside size length t (n - bs.length) := by
  refine { h with
    sectorSize_eq := hpart.sectorSize.trans h.sectorSize_eq, length_eq :=
      hlength.trans h.length_eq, end_le := ?_ }
  have hle := h.end_le
  rw [hpart.position, Nat.add_assoc, Nat.add_sub_cancel' hpart.length_le]
  exact hle

section

variable {total : Prop} {n : Nat} (hdev : ReadsSectors device content pos I total size length)
  (hs : Inv content I s) (hin : total → Inside size length s n)

include hdev hs hin

/-- The cache holds the sector that was asked for. -/
theorem post_loadSector (hk : s.sectorSize ∣ k) (hlt : total → k < length) :
    Post (loadSector device k) s
      (fun _ t => Inv content I t ∧ t.cachedSector = some k ∧ t.position = s.position ∧
        t.sectorSize = s.sectorSize ∧ t.length = s.length)
      (fun _ t => Inv content I t ∧ ¬ total) := by
  have hwhole : total → WholeSectors size length (k, s.sectorSize) := by
    intro htotal
    rw [(hin htotal).sectorSize_eq] at hk ⊢
    exact ⟨hk, Nat.dvd_refl size, Nat.le_of_lt_add_of_dvd (Nat.add_lt_add_right (hlt htotal) size)
      (Nat.dvd_add hk (Nat.dvd_refl size)) (hin htotal).dvd⟩
  simp only [loadSector, post_bind, post_get, post_ite, post_pure, post_throw, post_modify, onInner,
    post_zoom]
  refine ⟨fun hcached => ⟨hs, hcached, trivial, trivial, trivial⟩,
    fun _ => ⟨fun hbig => ⟨hs, fun htotal => ?_⟩,
    fun _ => ⟨fun hout => ⟨hs, fun htotal => ?_⟩, fun _ => ?_⟩⟩⟩
  · have hle := (hwhole htotal).2.2
    have hlt := (hin htotal).length_lt
    omega
  · have hle := (hwhole htotal).2.2
    rw [(hin htotal).length_eq] at hout
    omega
  -- while the device is read no sector is taken to be in the buffer
  have hempty : ∀ inner, I inner ∧ ¬ total →
      Inv content I { s with cachedSector := none, inner } ∧ ¬ total := fun inner hinner =>
    ⟨⟨hinner.1, hs.sectorSize, fun k hk => by cases hk⟩, hinner.2⟩
  refine (hdev.seek_start k s.inner hs.inner).mono ?_ fun _ inner hinner => hempty inner hinner
  rintro _ inner ⟨hinner, rfl⟩
  refine (hdev.readExact s.sectorSize inner hinner hwhole).mono ?_ fun _ inner' hinner' =>
    hempty inner' hinner'
  rintro sector inner' ⟨hinner', hsector⟩
  refine ⟨⟨hinner', hs.sectorSize, ?_⟩, trivial, trivial, trivial, trivial⟩
  rintro _ ⟨⟩
  exact hsector

/-- `count` bytes of the sector at `k`, which are those at the position. -/
theorem post_copySector {off count : Nat} (hk : s.sectorSize ∣ k) (hposition : s.position = k + off)
    (hcount : off + count ≤ s.sectorSize) (hpos : 0 < n) (hle : count ≤ n) :
    Post (do
        loadSector device k
        let loaded ← get
        advance count
        pure (loaded.sector.slice off count)) s
      (fun bs t => PartRead content I s n bs t ∧ t.length = s.length ∧ bs.length = count)
      (fun _ t => Inv content I t ∧ ¬ total) := by
  simp only [post_bind, post_get, post_pure]
  refine (post_loadSector hdev hs hin hk fun htotal => ?_).imp ?_
  · have hend := (hin htotal).end_le
    omega
  rintro _ t ⟨ht, hcached, htposition, hsize, hlength⟩
  refine (post_advance ht _).mono ?_ ?_
  · rintro _ u ⟨hu, huposition, husize, hulength⟩
    rw [ht.cached k hcached, slice_window (by omega), ← hposition]
    exact ⟨.window hu (by rw [huposition, htposition]) hle (husize.trans hsize),
      hulength.trans hlength,
      length_window⟩
  · rintro _ u ⟨hu, hbig⟩
    refine ⟨hu, fun htotal => ?_⟩
    have hend := (hin htotal).end_le
    have hlt := (hin htotal).length_lt
    omega

/-- The head ends a read, or at a sector boundary. -/
theorem post_readHead (hpos : 0 < n) : Post (readHead device n) s
      (fun bs t => PartRead content I s n bs t ∧ t.length = s.length ∧
        (n - bs.length = 0 ∨ s.sectorSize ∣ t.position))
      (fun _ t => Inv content I t ∧ ¬ total) := by
  rw [readHead, post_bind, post_get, post_ite]
  refine ⟨fun hzero => ⟨.nothing hs _, rfl, .inr (Nat.dvd_of_mod_eq_zero hzero)⟩, fun _ => ?_⟩
  have hmod := Nat.mod_lt s.position hs.sectorSize
  have hle := Nat.mod_le s.position s.sectorSize
  have hdvd : s.sectorSize ∣ s.position - s.position % s.sectorSize := Nat.dvd_sub_mod s.position
  refine (post_copySector hdev hs hin hdvd (Nat.sub_add_cancel hle).symm (by omega) hpos
    (by omega)).imp ?_
  rintro bs t ⟨ht, hlength, hlen⟩
  refine ⟨ht, hlength, ?_⟩
  by_cases hall : n ≤ s.sectorSize - s.position % s.sectorSize
  · exact .inl (by omega)
  · -- the head ends with its sector
    have hnext : t.position = s.position - s.position % s.sectorSize + s.sectorSize := by
      rw [ht.position]
      omega
    exact .inr (hnext ▸ Nat.dvd_add hdvd (Nat.dvd_refl _))

/-- All whole sectors are read from a boundary on. -/
theorem post_readAligned (haligned : n = 0 ∨ s.sectorSize ∣ s.position) :
    Post (readAligned device n) s
      (fun bs t => PartRead content I s n bs t ∧ t.length = s.length ∧
        bs.length = n - n % s.sectorSize)
      (fun _ t => Inv content I t ∧ ¬ total) := by
  simp only [readAligned, post_bind, post_get, post_ite, post_pure, onInner, post_zoom]
  refine ⟨fun hzero => ⟨.nothing hs _, trivial, hzero.symm⟩, fun hpos => ?_⟩
  have hkeep : ∀ inner, I inner → Inv content I { s with inner } := fun inner hinner =>
    ⟨hinner, hs.sectorSize, hs.cached⟩
  have hfail : ∀ inner, I inner ∧ ¬ total → Inv content I { s with inner } ∧ ¬ total :=
    fun inner hinner => ⟨hkeep inner hinner.1, hinner.2⟩
  refine (hdev.seek_start s.position s.inner hs.inner).mono ?_ fun _ inner hinner =>
    hfail inner hinner
  rintro _ inner ⟨hinner, hat⟩
  refine (hdev.readExact _ inner hinner fun htotal => ?_).mono ?_ fun _ inner' hinner' =>
    hfail inner' hinner'
  · have hend := (hin htotal).end_le
    rw [hat, ← (hin htotal).sectorSize_eq]
    exact ⟨haligned.resolve_left (by omega), Nat.dvd_sub_mod n, by dsimp only; omega⟩
  rintro bs inner' ⟨hinner', hbs⟩
  refine (post_advance (hkeep inner' hinner') _).mono ?_ ?_
  · rintro _ u ⟨hu, huposition, husize, hulength⟩
    rw [hbs, hat]
    exact ⟨.window hu huposition (Nat.sub_le _ _) husize, hulength, length_window⟩
  · rintro _ u ⟨hu, hbig⟩
    refine ⟨hu, fun htotal => ?_⟩
    have hend := (hin htotal).end_le
    have hlt := (hin htotal).length_lt
    dsimp only at hbig
    omega

/-- The tail is the rest of the read. -/
theorem post_readTail (h : n ≤ s.sectorSize) (haligned : n = 0 ∨ s.sectorSize ∣ s.position) :
    Post (readTail device n) s
      (fun bs t => PartRead content I s n bs t ∧ t.length = s.length ∧ bs.length = n)
      (fun _ t => Inv content I t ∧ ¬ total) := by
  rw [readTail, post_bind, post_get, post_ite]
  refine ⟨fun hzero => ⟨.nothing hs _, rfl, hzero.symm⟩, fun hpos => ?_⟩
  exact post_copySector hdev hs hin (haligned.resolve_left hpos) (Nat.add_zero _).symm (by omega)
    (by omega) (Nat.le_refl n)

end

/-- A read returns the bytes at the position; of a `total` device, all that are asked for and are
    there. -/
theorem post_read {total : Prop} (hdev : ReadsSectors device content pos I total size length)
    (hs : Inv content I s) (hin : total → s.position < s.length →
      Inside size length s (s.length - s.position)) (n : Nat) : Post (read device n) s
      (fun bs t => PartRead content I s n bs t ∧ t.length = s.length ∧
        bs.length = min n (s.length - s.position))
      (fun _ t => Inv content I t ∧ ¬ total) := by
  simp only [read, post_bind, post_get, post_ite, post_pure]
  refine ⟨fun hnone => ⟨.nothing hs n, trivial, by rw [length_nil]; omega⟩, fun hmore => ?_⟩
  have hin' : total → Inside size length s (min (s.length - s.position) n) := by
    intro htotal
    have h := hin htotal (by omega)
    have hle := h.end_le
    exact { h with end_le := by omega }
  refine (post_readHead hdev hs hin' (by omega)).imp ?_
  rintro head t ⟨hhead, htlength, htaligned⟩
  have htle := hhead.length_le
  have htin := fun htotal => (hin' htotal).rest hhead htlength
  rw [← hhead.sectorSize] at htaligned
  refine (post_readAligned hdev hhead.inv htin htaligned).imp ?_
  rintro aligned u ⟨haligned, hulength, hlength⟩
  have huin := fun htotal => (htin htotal).rest haligned hulength
  rw [Nat.sub_sub] at huin
  have hbound : min (s.length - s.position) n - (head.length + aligned.length) ≤ u.sectorSize := by
    have hmod := Nat.mod_lt (min (s.length - s.position) n - head.length) hhead.inv.sectorSize
    rw [haligned.sectorSize]
    omega
  refine (post_readTail hdev haligned.inv huin hbound ?_).imp ?_
  · rw [haligned.sectorSize, haligned.position, hlength]
    exact htaligned.imp (fun h => by omega) fun h => Nat.dvd_add h (Nat.dvd_sub_mod _)
  rintro tail v ⟨htail, hvlength, htlen⟩
  have hall : head.length + aligned.length + tail.length = min (s.length - s.position) n := by omega
  refine ⟨(hhead.append haligned (Nat.le_refl _)).append htail ?_, ?_, ?_⟩
  · rw [length_append]
    omega
  · rw [hvlength, hulength, htlength]
  · rw [length_append, length_append, hall, Nat.min_comm]

/-- A sector reader over a device reads the content of the device. -/
theorem reads (hdev : device.Reads content pos I) :
    (reader device).Reads content SectorReader.position (Inv content I) where
  read := by
    intro n s hs
    have hdev' : ReadsSectors device content pos I False 0 0 :=
      ⟨fun offset d hd => (hdev.seek_start offset d hd).mono (fun _ _ h => h) fun _ _ h => ⟨h, id⟩,
        fun n d hd _ => (hdev.readExact n d hd).mono (fun _ _ h => ⟨h.1, h.2.1⟩) fun _ _ h =>
          ⟨h, id⟩⟩
    exact (post_read hdev' hs (fun h => h.elim) n).mono
      (fun _ _ h => ⟨h.1.inv, h.1.bytes, h.1.length_le, h.1.position⟩) fun _ _ h => h.1
  seek_start := fun _ _ hs => ⟨{ hs with }, rfl⟩

/-! ### Aligned reads -/

/-- A device with the list of the reads that were made, each with its position. -/
def logged (device : BlockReader IoError σ) (pos : σ → Nat) :
    BlockReader IoError (σ × List (Nat × Nat)) where
  read := fun n => do
    modify fun s => (s.1, (pos s.1, n) :: s.2)
    EStateM.zoom Prod.fst (fun d s => (d, s.2)) (device.read n)
  seek := fun position => EStateM.zoom Prod.fst (fun d s => (d, s.2)) (device.seek position)
  readExact := fun n => do
    modify fun s => (s.1, (pos s.1, n) :: s.2)
    EStateM.zoom Prod.fst (fun d s => (d, s.2)) (device.readExact n)

theorem readsSectors_logged {image : ByteImage} (hdev : device.ServesImage image pos I)
    (hle : length ≤ image.length) :
    ReadsSectors (logged device pos) image.content (fun s => pos s.1)
      (fun s => I s.1 ∧ ∀ request ∈ s.2, WholeSectors size length request) True size length where
  seek_start := by
    rintro offset s ⟨hs, hlog⟩
    simp only [logged, post_zoom]
    exact (hdev.provides.post_seek hs offset).mono (fun _ _ h => ⟨⟨h.1, hlog⟩, h.2⟩)
      fun _ _ h => absurd trivial h.2
  readExact := by
    rintro n s ⟨hs, hlog⟩ hwhole
    simp only [logged, post_bind, post_modify, post_zoom]
    refine (hdev.provides.post_readExact hs n).mono ?_ ?_
    · rintro bs d ⟨hd, hbs, -⟩
      exact ⟨⟨hd, forall_mem_cons.mpr ⟨hwhole trivial, hlog⟩⟩, hbs⟩
    · rintro _ d ⟨-, hlt⟩
      exact absurd (hlt trivial) (Nat.not_lt.mpr (Nat.le_trans (hwhole trivial).2.2 hle))

/-- A read returns the bytes at the position, as many as are asked for and are there, and moves the
    position behind them. A seek goes where it asks for, or fails and leaves the reader as it is. -/
def ReadsDevice (device : BlockReader IoError σ) (image : ByteImage) (length : Nat)
    (s : SectorReader σ) : ReaderCall → Prop
  | .read n => ∃ t, read device n s =
        .ok (window image.content s.position (min n (length - s.position))) t ∧
      t.position = s.position + min n (length - s.position)
  | .seek position =>
    (∀ q, position.target length s.position = some q →
      ∃ t, seek position s = .ok q t ∧ t.position = q) ∧
    (position.target length s.position = none → ∃ e, seek position s = .error e s)

theorem seek_eq (s : SectorReader σ) (position : SeekFrom) : seek position s =
    match position.target s.length s.position with
    | none => .error (.invalidInput "invalid seek position") s
    | some q => .ok q { s with position := q } := by
  rw [seek, get_bind_run, seekTarget]
  cases position.target s.length s.position <;> rfl

theorem inv_new {length sectorSize : Nat} (h : new inner length sectorSize = .ok s)
    (hinner : I inner) : Inv content I s := by
  unfold new at h
  split at h
  · cases h
  rename_i hsize
  split at h
  · cases h
  · cases h
    have hpos : sectorSize ≠ 0 := fun hzero => hsize (.inl hzero)
    exact ⟨hinner, Nat.pos_of_ne_zero hpos, fun k hk => by cases hk⟩

theorem geometry_new (h : new inner length size = .ok s) :
    s.sectorSize = size ∧ s.length = length ∧ size ∣ length := by
  unfold new at h
  split at h
  · cases h
  split at h
  · cases h
  · rename_i hdvd
    cases h
    exact ⟨rfl, rfl, Nat.dvd_of_mod_eq_zero (Classical.not_not.mp hdvd)⟩

/-- Over a device that serves an image, every read of a run of seeks and reads returns the bytes of
    the image at the position, and all that the device is asked for are whole sectors. -/
theorem reads_whole_sectors {image : ByteImage} (hdev : device.ServesImage image pos I) {d : σ}
    (hd : I d) (hle : length ≤ image.length) (hlt : length < 2 ^ 64)
    {s : SectorReader (σ × List (Nat × Nat))} (hnew : new (d, []) length size = .ok s)
    (calls : List ReaderCall) :
    Run.Along (reader (logged device pos)).after
        (ReadsDevice (logged device pos) image length) calls s ∧
      ∀ request ∈ (calls.foldl (reader (logged device pos)).after s).inner.2,
        WholeSectors size length request := by
  obtain ⟨hsize, hlength, hdvd⟩ := geometry_new hnew
  let J (s : SectorReader (σ × List (Nat × Nat))) : Prop :=
    Inv image.content (fun s => I s.1 ∧ ∀ request ∈ s.2, WholeSectors size length request) s ∧
      s.sectorSize = size ∧ s.length = length
  have hstep : ∀ s, J s → ∀ call, ReadsDevice (logged device pos) image length s call ∧
      J ((reader (logged device pos)).after s call) := by
    rintro s ⟨hs, hsize, hlength⟩ (n | position)
    · obtain ⟨bs, t, hrun, hpart, htlength, hcount⟩ := ((post_read (readsSectors_logged hdev hle) hs
        (fun _ hin => ⟨hsize, hlength, hdvd, hlt, by omega⟩) n).mono (fun _ _ h => h)
          fun _ _ h => h.2 trivial).exists_ok
      have hbytes := hpart.bytes
      have hposition := hpart.position
      rw [hcount, hlength] at hbytes hposition
      refine ⟨⟨t, by rw [hrun, hbytes], hposition⟩, ?_⟩
      show J (read (logged device pos) n s).state
      rw [hrun]
      exact ⟨hpart.inv, hpart.sectorSize.trans hsize, htlength.trans hlength⟩
    · have hrun := seek_eq s position
      rw [hlength] at hrun
      show ((∀ q, position.target length s.position = some q → _) ∧ (_ → _)) ∧
        J (seek position s).state
      cases htarget : position.target length s.position with
      | none =>
        simp only [htarget] at hrun
        rw [hrun]
        exact ⟨⟨nofun, fun _ => ⟨_, rfl⟩⟩, hs, hsize, hlength⟩
      | some q =>
        simp only [htarget] at hrun
        rw [hrun]
        refine ⟨⟨?_, nofun⟩, { hs with }, hsize, rfl⟩
        rintro _ ⟨⟩
        exact ⟨_, rfl, rfl⟩
  have hstart : J s := ⟨inv_new hnew ⟨hd, nofun⟩, hsize, hlength⟩
  refine ⟨Run.along_of_mem (fun call _ s hs => hstep s hs call) hstart, ?_⟩
  exact (foldlRecOn calls _ hstart fun s hs call _ => (hstep s hs call).2).1.inner.2

theorem reads_whole_sectors_across :
    Run.Along (reader (logged (ByteImage.reader ⟨UInt8.ofNat, 4⟩ (.unexpectedEof "")) id)).after
      (ReadsDevice (logged (ByteImage.reader ⟨UInt8.ofNat, 4⟩ (.unexpectedEof "")) id)
        ⟨UInt8.ofNat, 4⟩ 4)
      [.seek (.start 1), .read 2] ⟨(0, []), 4, 0, 2, zeros 2, none⟩ := by
  have hdev := ByteImage.reader_serves ⟨UInt8.ofNat, 4⟩ (IoError.unexpectedEof "")
  have hnew : new ((0 : Nat), ([] : List (Nat × Nat))) 4 2 =
    .ok ⟨(0, []), 4, 0, 2, zeros 2, none⟩ := rfl
  exact (reads_whole_sectors hdev trivial (Nat.le_refl 4) (by decide) hnew _).1

end Fsmnt.Device.SectorReader
