import Fsmnt.ForStd.ReadContent
import Fsmnt.Native.Device.Assembly

/-!
# An assembled volume reads the content its layout describes

The content of a volume is given by the contents of its members and by where the layout puts a
logical offset. A read goes through parts that lie in one member each.
-/

namespace Fsmnt.Device

open Bytes List

/-- A linear volume has its members one behind the other. -/
theorem linearLocation_eq_some_iff {lengths : List Nat} {p i off : Nat} :
    linearLocation lengths p = some (i, off) ↔
      off < lengths.getD i 0 ∧ p = (lengths.take i).sum + off := by
  induction lengths generalizing p i with
  | nil => simp [linearLocation]
  | cons length lengths ih =>
    rw [linearLocation]
    split
    · rename_i hlt
      cases i with
      | zero => simp; omega
      | succ i => simp; omega
    cases i with
    | zero => simp; omega
    | succ i =>
      rw [Option.map_eq_some_iff]
      constructor
      · rintro ⟨⟨j, off'⟩, hrest, heq⟩
        cases heq
        obtain ⟨hoff, hp⟩ := ih.mp hrest
        refine ⟨by simpa using hoff, ?_⟩
        simp only [take_succ_cons, sum_cons]
        omega
      · rintro ⟨hoff, hp⟩
        simp only [take_succ_cons, sum_cons] at hp
        exact ⟨(i, off), ih.mpr ⟨by simpa using hoff, by omega⟩, rfl⟩

namespace AssembledVolume

open EStateM

/-- The member that holds a logical offset, and where in the member it is. -/
def location (kind : AssembledVolumeKind) (lengths : List Nat) (p : Nat) : Option (Nat × Nat) :=
  match kind with
  | .linear => linearLocation lengths p
  | .striped stripeSize =>
    some (p / stripeSize % lengths.length,
      p / stripeSize / lengths.length * stripeSize + p % stripeSize)
  | .mirrored => some (0, p)

/-- The byte at a logical offset. -/
def content (contents : Nat → Nat → UInt8) (kind : AssembledVolumeKind) (lengths : List Nat)
    (p : Nat) : UInt8 :=
  match location kind lengths p with
  | some (i, off) => contents i off
  | none => 0

/-- The members of a mirror hold the same bytes. -/
def ReplicasAgree (contents : Nat → Nat → UInt8) (kind : AssembledVolumeKind) (length : Nat) :
    Prop :=
  kind = .mirrored → ∀ i p, p < length → contents i p = contents 0 p

variable {σ : Type} {member : ReadSeek IoError σ} {contents : Nat → Nat → UInt8} {pos : σ → Nat}
  {I : Nat → σ → Prop} {volume s : AssembledVolume σ}

/-- A volume that was assembled as `volume`, with its members in states of their own. -/
structure Inv (I : Nat → σ → Prop) (volume s : AssembledVolume σ) : Prop where
  kind : s.kind = volume.kind
  lengths : s.lengths = volume.lengths
  length : s.length = volume.length
  members : ∀ i m, s.members[i]? = some m → I i m.reader

theorem Inv.setMember (hs : Inv I volume s) {i : Nat} {m : DeviceMember σ} {r : σ}
    (hm : s.members[i]? = some m) (hr : I i r) :
    Inv I volume { s with members := s.members.set i { m with reader := r } } where
  kind := hs.kind
  lengths := by
    rw [← hs.lengths]
    apply ext_getElem?
    intro j
    simp only [AssembledVolume.lengths]
    by_cases hij : i = j
    · cases hij
      obtain ⟨hi, hmi⟩ := List.getElem?_eq_some_iff.mp hm
      simp [hi, hmi]
    · simp [hij]
  length := hs.length
  members := by
    intro j m' hm'
    rw [getElem?_set] at hm'
    split at hm'
    · rename_i hij
      cases hij
      split at hm'
      · cases hm'
        exact hr
      · cases hm'
    · exact hs.members j m' hm'

/-- A call on one member. -/
theorem post_onMember {α : Type} {x : EStateM IoError σ α} {Q : α → σ → Prop} {i : Nat}
    (hs : Inv I volume s) (hx : ∀ m, s.members[i]? = some m →
      Post x m.reader (fun a r => I i r ∧ Q a r) (fun _ r => I i r)) : Post (onMember i x) s
      (fun a t => Inv I volume t ∧ t.position = s.position ∧
        ∃ m, t.members[i]? = some m ∧ Q a m.reader)
      (fun _ t => Inv I volume t ∧ t.position = s.position) := by
  cases hm : s.members[i]? with
  | none =>
    simp only [Post, onMember, hm]
    exact ⟨hs, trivial⟩
  | some m =>
    have hpost := hx m hm
    obtain ⟨hi, -⟩ := List.getElem?_eq_some_iff.mp hm
    cases hrun : x m.reader with
    | ok a r =>
      simp only [Post, hrun] at hpost
      simp only [Post, onMember, hm, hrun]
      refine ⟨hs.setMember hm hpost.1, trivial, { m with reader := r }, ?_, hpost.2⟩
      simp [hi]
    | error e r =>
      simp only [Post, hrun] at hpost
      simp only [Post, onMember, hm, hrun]
      exact ⟨hs.setMember hm hpost, trivial⟩

/-- What a pass of a read does: it returns at most `n` bytes, those at the position, and moves
    behind them. -/
structure PartRead (contents : Nat → Nat → UInt8) (I : Nat → σ → Prop)
    (volume s : AssembledVolume σ)
    (n : Nat) (bs : Bytes) (t : AssembledVolume σ) : Prop where
  inv : Inv I volume t
  bytes : bs = Bytes.window (content contents volume.kind volume.lengths) s.position bs.length
  position : t.position = s.position + bs.length
  length_le : bs.length ≤ n

theorem post_advance (hs : Inv I volume s) (amount : Nat) : Post (advance amount) s
      (fun _ t => Inv I volume t ∧ t.position = s.position + amount)
      (fun _ t => Inv I volume t) := by
  simp only [advance, post_bind, post_get, post_ite, post_throw, post_modify]
  exact ⟨fun _ => hs, fun _ => ⟨{ hs with }, trivial⟩⟩

/-- A located part lies in one member. -/
def Locates (contents : Nat → Nat → UInt8) (I : Nat → σ → Prop) (volume : AssembledVolume σ)
    (locate : AssembledVolume σ → Except IoError MemberPart) : Prop :=
  ∀ s part, Inv I volume s → locate s = .ok part → ∀ k < part.remaining,
    content contents volume.kind volume.lengths (s.position + k) =
      contents part.index (part.offset + k)

theorem PartRead.nothing (hs : Inv I volume s) (n : Nat) : PartRead contents I volume s n [] s :=
  ⟨hs, rfl, rfl, Nat.zero_le n⟩

theorem locates_linearPart (hkind : volume.kind = .linear) :
    Locates contents I volume linearPart := by
  intro s part hs hpart k hk
  unfold linearPart at hpart
  split at hpart
  · cases hpart
  rename_i index offset hloc
  cases hpart
  rw [hs.lengths] at hloc hk
  obtain ⟨hoff, hp⟩ := linearLocation_eq_some_iff.mp hloc
  have hnext : linearLocation volume.lengths (s.position + k) = some (index, offset + k) :=
    linearLocation_eq_some_iff.mpr ⟨by simp only at hk; omega, by omega⟩
  simp only [content, location, hkind, hnext]

theorem locates_stripedPart {stripeSize : Nat} (hkind : volume.kind = .striped stripeSize) :
    Locates contents I volume (stripedPart stripeSize) := by
  intro s part hs hpart k hk
  unfold stripedPart at hpart
  simp only at hpart
  split at hpart
  · cases hpart
  cases hpart
  have hcount : s.members.length = volume.lengths.length := by
    rw [← hs.lengths, lengths, length_map]
  simp only at hk
  have hdm := Nat.div_add_mod s.position stripeSize
  have hdiv : (s.position + k) / stripeSize = s.position / stripeSize := by
    apply Nat.div_eq_of_lt_le
    · rw [Nat.mul_comm]
      omega
    · rw [Nat.add_mul, Nat.mul_comm]
      omega
  have hmod' : (s.position + k) % stripeSize = s.position % stripeSize + k := by
    have hdm' := Nat.div_add_mod (s.position + k) stripeSize
    rw [hdiv] at hdm'
    omega
  simp only [content, location, hkind, hdiv, hmod', hcount, Nat.add_assoc]

section

variable (hdev : ∀ i, member.Reads (contents i) pos (I i))
  {locate : AssembledVolume σ → Except IoError MemberPart} {ended : String}

include hdev

theorem post_seekMember (hs : Inv I volume s) (i offset : Nat) :
    Post (onMember i (member.seek (.start offset))) s
      (fun _ t => Inv I volume t ∧ t.position = s.position ∧
        ∃ m, t.members[i]? = some m ∧ pos m.reader = offset)
      (fun _ t => Inv I volume t ∧ t.position = s.position) :=
  post_onMember (Q := fun _ r => pos r = offset) hs fun m hm =>
    (hdev i).seek_start offset m.reader (hs.members i m hm)

/-- A read of a member that was moved to an offset. -/
theorem post_readMember (hs : Inv I volume s) {i offset : Nat}
    (hpos : ∃ m, s.members[i]? = some m ∧ pos m.reader = offset) (amount : Nat) :
    Post (onMember i (member.read amount)) s
      (fun bs t => Inv I volume t ∧ t.position = s.position ∧ bs.length ≤ amount ∧
        bs = window (contents i) offset bs.length)
      (fun _ t => Inv I volume t ∧ t.position = s.position) := by
  refine (post_onMember (Q := fun bs _ => bs.length ≤ amount ∧
    bs = window (contents i) offset bs.length) hs ?_).imp ?_
  · intro m hm
    obtain ⟨m', hm', hpos⟩ := hpos
    cases hm.symm.trans hm'
    refine ((hdev i).read amount m.reader (hs.members i m hm)).imp ?_
    rintro bs r ⟨hr, hbs, hle, -⟩
    rw [hpos] at hbs
    exact ⟨hr, hle, hbs⟩
  · rintro bs t ⟨ht, htposition, -, -, hle, hbs⟩
    exact ⟨ht, htposition, hle, hbs⟩

/-- One part is read from the member that holds it. -/
theorem post_readPart {n : Nat} (hlocate : Locates contents I volume locate) (hs : Inv I volume s) :
    Post (readPart member locate ended n) s (PartRead contents I volume s n)
      (fun _ t => Inv I volume t) := by
  rw [readPart, post_bind, post_get]
  cases hpart : locate s with
  | error e => exact hs
  | ok part =>
    simp only [post_bind, post_ite, post_throw, post_pure]
    refine (post_seekMember hdev hs _ _).mono ?_ fun _ _ h => h.1
    rintro _ t ⟨ht, htposition, hpos⟩
    refine (post_readMember hdev ht hpos _).mono ?_ fun _ _ h => h.1
    rintro bs u ⟨hu, huposition, hle, hbs⟩
    refine ⟨fun _ => hu, fun _ => ?_⟩
    refine (post_advance hu _).imp ?_
    rintro _ v ⟨hv, hvposition⟩
    refine ⟨hv, ?_, by rw [hvposition, huposition, htposition], by omega⟩
    refine hbs.trans (window_inj.mpr ?_)
    intro k hk
    exact (hlocate s part hs hpart k (by omega)).symm

theorem post_readParts (hlocate : Locates contents I volume locate) (passes n : Nat)
    (hs : Inv I volume s) :
    Post (readParts member locate ended passes n) s (PartRead contents I volume s n)
      (fun _ t => Inv I volume t) := by
  induction passes generalizing n s with
  | zero => exact .nothing hs n
  | succ passes ih =>
    simp only [readParts, post_bind, post_get, post_ite, post_pure]
    refine ⟨fun _ => .nothing hs n, fun _ => ?_⟩
    refine (post_readPart hdev hlocate hs).imp ?_
    intro bs t hbs
    refine (ih _ hbs.inv).imp ?_
    intro rest u hrest
    have hle := hbs.length_le
    have hle' := hrest.length_le
    refine ⟨hrest.inv, ?_, ?_, ?_⟩
    · rw [length_append, ← window_append, ← hbs.position, ← hbs.bytes, ← hrest.bytes]
    · rw [hrest.position, hbs.position, length_append, Nat.add_assoc]
    · rw [length_append]
      omega

/-- Any replica that answers gives the bytes of the volume. -/
theorem post_readReplicas {amount : Nat} (hkind : volume.kind = .mirrored)
    (hagree : ReplicasAgree contents volume.kind volume.length) (indices : List Nat)
    (lastError : IoError) (hs : Inv I volume s) (hamount : s.position + amount ≤ volume.length) :
    Post (readReplicas member amount lastError indices) s (PartRead contents I volume s amount)
      (fun _ t => Inv I volume t) := by
  induction indices generalizing lastError s with
  | nil => exact hs
  | cons i indices ih =>
    -- whatever fails at this member leaves the position to the next one
    have hnext : ∀ e t, Inv I volume t ∧ t.position = s.position →
        Post (readReplicas member amount e indices) t (PartRead contents I volume s amount)
          (fun _ t => Inv I volume t) := by
      rintro e t ⟨ht, htposition⟩
      exact (ih e ht (by omega)).imp (fun _ _ h => ⟨h.inv, htposition ▸ h.bytes,
        htposition ▸ h.position, h.length_le⟩)
    simp only [readReplicas, post_bind, post_get, post_attempt]
    refine (post_seekMember hdev hs i s.position).mono ?_ hnext
    rintro _ t ⟨ht, htposition, hpos⟩
    refine (post_readMember hdev ht hpos amount).mono ?_ fun e u hu =>
      hnext e u ⟨hu.1, hu.2.trans htposition⟩
    rintro bs u ⟨hu, huposition, hle, hbs⟩
    cases bs with
    | nil => exact hnext _ u ⟨hu, huposition.trans htposition⟩
    | cons b bs =>
      simp only [post_bind, post_pure]
      refine (post_advance hu _).imp ?_
      rintro _ v ⟨hv, hvposition⟩
      refine ⟨hv, ?_, by rw [hvposition, huposition, htposition], hle⟩
      refine hbs.trans (window_inj.mpr ?_)
      intro k hk
      simp only [hkind]
      exact hagree hkind i (s.position + k) (by omega)

/-- A read of the volume gives its bytes, whatever its layout. -/
theorem post_read (hagree : ReplicasAgree contents volume.kind volume.length) (hs : Inv I volume s)
    (n : Nat) :
    Post (read member n) s (PartRead contents I volume s n) (fun _ t => Inv I volume t) := by
  simp only [read, post_bind, post_get, post_ite, post_pure]
  refine ⟨fun _ => .nothing hs n, fun hlt => ?_⟩
  rw [hs.kind]
  cases hkind : volume.kind with
  | linear => exact post_readParts hdev (locates_linearPart hkind) n n hs
  | striped stripeSize => exact post_readParts hdev (locates_stripedPart hkind) n n hs
  | mirrored =>
    have hlength := hs.length
    refine (post_readReplicas hdev hkind hagree _ _ hs (by omega)).imp ?_
    intro bs t h
    have hle := h.length_le
    exact { h with length_le := by omega }

/-- A volume assembled of members reads the content that its layout gives it. -/
theorem reads (hagree : ReplicasAgree contents volume.kind volume.length) :
    (reader member).Reads (content contents volume.kind volume.lengths) AssembledVolume.position
      (Inv I volume) where
  read := fun n _ hs => (post_read hdev hagree hs n).imp
    (fun _ _ h => ⟨h.inv, h.bytes, h.length_le, h.position⟩)
  seek_start := fun _ _ hs => ⟨{ hs with }, rfl⟩

end

/-- An assembled volume satisfies the invariant. -/
theorem inv_assemble {devices : DeviceSet σ} {layout : RawVolumeLayout}
    (h : assembleRawVolume devices layout = .ok volume)
    (hmembers : ∀ i m, devices.intoMembers[i]? = some m → I i m.reader) : Inv I volume volume := by
  refine ⟨rfl, rfl, rfl, ?_⟩
  have hvolume : volume.members = devices.intoMembers := by
    unfold assembleRawVolume at h
    split at h
    · cases h
    cases layout with
    | linear =>
      simp only at h
      split at h
      · cases h
      · cases h
        rfl
    | striped stripeSize length =>
      simp only at h
      split at h
      · cases h
      split at h
      · cases h
      split at h
      · cases h
      · cases h
        rfl
    | mirrored length =>
      simp only at h
      split at h
      · cases h
      · cases h
        rfl
  rwa [hvolume]

end AssembledVolume

end Fsmnt.Device
