import Fsmnt.ForStd.Content
import Fsmnt.ForStd.Post
import Fsmnt.ForStd.ReadSeek

/-!
# Readers of a content

A reader reads `content` when every read that succeeds returns the bytes at its position and moves
the position behind them. Nothing is said of where a failing call leaves the position: that is
what the code on top of such a reader has to cope with.
-/

variable {ε σ : Type}

/-- A reader of `content` whose position is `pos`, in the states with `I`; these are not left, also
    when a call fails. -/
structure ReadSeek.Reads (reader : ReadSeek ε σ) (content : Nat → UInt8) (pos : σ → Nat)
    (I : σ → Prop) : Prop where
  read : ∀ n s, I s → EStateM.Post (reader.read n) s
    (fun bs t => I t ∧ bs = Bytes.window content (pos s) bs.length ∧ bs.length ≤ n ∧
      pos t = pos s + bs.length)
    (fun _ t => I t)
  seek_start : ∀ offset s, I s → EStateM.Post (reader.seek (.start offset)) s
    (fun _ t => I t ∧ pos t = offset)
    (fun _ t => I t)

/-- A reader of `content` that can also read exact amounts. -/
structure BlockReader.Reads (reader : BlockReader ε σ) (content : Nat → UInt8) (pos : σ → Nat)
    (I : σ → Prop) : Prop extends ReadSeek.Reads reader.toReadSeek content pos I where
  readExact : ∀ n s, I s → EStateM.Post (reader.readExact n) s
    (fun bs t => I t ∧ bs = Bytes.window content (pos s) n ∧ pos t = pos s + n)
    (fun _ t => I t)

/-! ### Images -/

/-- A byte image of a given length. -/
structure ByteImage where
  content : Nat → UInt8
  length : Nat

/-- A reader of an image, which may fail; what it reads lies inside the image. -/
structure BlockReader.ReadsImage (reader : BlockReader ε σ) (image : ByteImage) (pos : σ → Nat)
    (I : σ → Prop) : Prop extends toBlockReads : BlockReader.Reads reader image.content pos I where
  readExact_le : ∀ n s, I s →
    EStateM.Post (reader.readExact n) s (fun _ _ => pos s + n ≤ image.length) (fun _ _ => True)

/-- A reader of an image that does not fail inside it. -/
structure BlockReader.ServesImage (reader : BlockReader ε σ) (image : ByteImage) (pos : σ → Nat)
    (I : σ → Prop) : Prop extends BlockReader.ReadsImage reader image pos I where
  seek_ok : ∀ offset s, I s →
    EStateM.Post (reader.seek (.start offset)) s (fun _ _ => True) (fun _ _ => False)
  read_ok : ∀ n s, I s → 0 < n → pos s < image.length →
    EStateM.Post (reader.read n) s (fun bs _ => 0 < bs.length) (fun _ _ => False)
  readExact_ok : ∀ n s, I s → pos s + n ≤ image.length →
    EStateM.Post (reader.readExact n) s (fun _ _ => True) (fun _ _ => False)

/-- A reader of an image that does not fail inside it if `total` holds. -/
structure BlockReader.Provides (reader : BlockReader ε σ) (image : ByteImage) (pos : σ → Nat)
    (I : σ → Prop) (total : Prop) : Prop extends BlockReader.ReadsImage reader image pos I where
  serves : total → reader.ServesImage image pos I

namespace BlockReader

variable {reader : BlockReader ε σ} {image : ByteImage} {pos : σ → Nat} {I : σ → Prop}
  {total : Prop} {s : σ}

theorem ServesImage.provides (h : reader.ServesImage image pos I) :
    reader.Provides image pos I True :=
  ⟨h.toReadsImage, fun _ => h⟩

section

variable (h : reader.Provides image pos I total) (hs : I s)

include h hs

theorem Provides.post_seek (position : Nat) :
    EStateM.Post (reader.seek (.start position)) s (fun _ t => I t ∧ pos t = position)
      (fun _ t => I t ∧ ¬ total) := by
  exact ((h.seek_start position s hs).and_of_imp fun htotal =>
    (h.serves htotal).seek_ok position s hs).imp fun _ _ hok => hok.1

/-- An exact read gives the bytes at the position, inside the image. -/
theorem Provides.post_readExact (n : Nat) : EStateM.Post (reader.readExact n) s
      (fun bs t => I t ∧ bs = Bytes.window image.content (pos s) n ∧ pos s + n ≤ image.length)
      (fun _ t => I t ∧ (total → image.length < pos s + n)) := by
  have hread := (h.readExact n s hs).and (h.readExact_le n s hs)
  exact (hread.and_of_imp fun hok : total ∧ pos s + n ≤ image.length =>
    (h.serves hok.1).readExact_ok n s hs hok.2).mono (fun _ _ hbs =>
      ⟨hbs.1.1.1, hbs.1.1.2.1, hbs.1.2⟩)
    fun _ _ hfail => ⟨hfail.1.1, fun htotal => Nat.lt_of_not_le fun hle => hfail.2 ⟨htotal, hle⟩⟩

/-- Reading at a place. A reader that serves the image fails only behind its end. -/
theorem Provides.post_readAt (position n : Nat) :
    EStateM.Post (reader.seek (.start position) >>= fun _ => reader.readExact n) s
      (fun bs t => I t ∧ bs = Bytes.window image.content position n ∧ position + n ≤ image.length)
      (fun _ t => I t ∧ (total → image.length < position + n)) := by
  rw [EStateM.post_bind]
  apply (h.post_seek hs position).mono
  · rintro _ t ⟨ht, rfl⟩
    exact h.post_readExact ht n
  · rintro _ t ⟨ht, hnot⟩
    exact ⟨ht, fun htotal => absurd htotal hnot⟩

end

/-- A reader that serves the image in some of its states, as it is in one state. -/
theorem ReadsImage.exists_provides {H : σ → Prop} (h : reader.ReadsImage image pos I)
    (hserves : reader.ServesImage image pos H) (hsub : ∀ t, H t → I t) (hs : I s) :
    ∃ D : σ → Prop, reader.Provides image pos D (H s) ∧ (∀ t, D t → I t) ∧ D s := by
  by_cases hH : H s
  · exact ⟨H, ⟨hserves.toReadsImage, fun _ => hserves⟩, hsub, hH⟩
  · exact ⟨I, ⟨h, fun hyes => absurd hyes hH⟩, fun _ ht => ht, hs⟩

end BlockReader

namespace ByteImage

open Bytes

/-- The image itself as a reader; its state is the position. -/
def reader (image : ByteImage) (eof : ε) : BlockReader ε Nat where
  read := fun n position =>
    let count := min n (image.length - position)
    .ok (window image.content position count) (position + count)
  seek := fun target position =>
    match target.target image.length position with
    | some new => .ok new new
    | none => .error eof position
  readExact := fun n position =>
    if image.length < position + n then .error eof image.length
    else .ok (window image.content position n) (position + n)

/-- The reader over an image serves it. -/
theorem reader_serves (image : ByteImage) (eof : ε) :
    (image.reader eof).ServesImage image id (fun _ => True) where
  read := fun _ _ _ => ⟨trivial, by rw [length_window]; rfl,
    by rw [length_window]; exact Nat.min_le_left _ _, by rw [length_window]; rfl⟩
  seek_start := fun _ _ _ => ⟨trivial, rfl⟩
  readExact := by
    intro n s _
    simp only [reader, EStateM.Post]
    split
    · rename_i h
      split at h
      · cases h
      · cases h
        exact ⟨trivial, rfl, rfl⟩
    · trivial
  readExact_le := by
    intro n s _
    simp only [reader, EStateM.Post]
    split
    · rename_i h
      split at h
      · cases h
      · rename_i hle
        exact Nat.le_of_not_lt hle
    · trivial
  seek_ok := fun _ _ _ => trivial
  read_ok := by
    intro n s _ hn hs
    show 0 < (window image.content s (min n (image.length - s))).length
    rw [length_window]
    simp only [id] at hs
    omega
  readExact_ok := by
    intro n s _ hle
    simp only [reader, EStateM.Post]
    split
    · trivial
    rename_i h
    split at h
    · simp only [id] at hle
      omega
    · cases h

/-- The image as a reader that fills buffers: what it has left is written when it is too short. -/
def fillReader (image : ByteImage) (eof : ε) : FillReader ε Nat :=
  { image.reader eof with
    written := fun n position =>
      window image.content position (min n (image.length - position)) }

end ByteImage

/-- A `read_exact` writes inside its buffer, also when it fails. -/
def FillReader.WritesInside (reader : FillReader ε σ) : Prop :=
  ∀ n s, (reader.written n s).length ≤ n

theorem ByteImage.fillReader_writesInside (image : ByteImage) (eof : ε) :
    (image.fillReader eof).WritesInside := by
  intro n s
  show (Bytes.window image.content s (min n (image.length - s))).length ≤ n
  rw [Bytes.length_window]
  exact Nat.min_le_left _ _
