import Fsmnt.ForStd.Mirrors
import Fsmnt.Native.FsFat.Value
import Fsmnt.Spec.ParserCore.BlockCache

/-!
# Reading along a cluster chain

The position of the stream and the current cluster belong together: the cluster is the one of the
chain that holds the position, or the position is at its end. Reads keep this, also those that fail.
A seek moves the stream before each step of the chain, so a step that fails leaves the stream one
cluster ahead; and a seek right behind a read that failed to step takes the old cluster for the
next.
-/

namespace Fsmnt.FsFat

open EStateM ParserCore Bytes FatFileGeometry

variable {k target cluster : Nat}

namespace FatFileGeometry

/-- The cluster that follows, as the image has it; none at the end of the chain or where it breaks.
    -/
def nextCluster (geometry : FatFileGeometry) (image : ByteImage) (cluster : Nat) : Option Nat :=
  if geometry.validCluster cluster then
    match decodeEntry geometry.kind cluster (window image.content
      (geometry.entryOffset cluster) (geometry.entryAt cluster).2) with
    | .ok next => next
    | .error _ => none
  else none

/-- The clusters of a chain. -/
def chain (geometry : FatFileGeometry) (image : ByteImage) (first : Option Nat) : Nat → Option Nat
  | 0 => first
  | i + 1 => (chain geometry image first i).bind (geometry.nextCluster image)

/-- The table can be followed from a cluster: its entry is in the image and does not mark a bad
    cluster. -/
structure StepOk (geometry : FatFileGeometry) (image : ByteImage) (cluster : Nat) : Prop where
  valid : geometry.validCluster cluster
  inside : BlockCache.BlocksInside image geometry.sectorSize (geometry.entryOffset cluster)
    (geometry.entryAt cluster).2
  entry : (decodeEntry geometry.kind cluster (window image.content
    (geometry.entryOffset cluster) (geometry.entryAt cluster).2)).isOk

variable {σ : Type} {fs : BlockReader FatError σ} {geometry : FatFileGeometry} {image : ByteImage}
  {pos : σ → Nat} {D : σ → Prop} {total : Prop} {first : Option Nat}

theorem chain_none {i j : Nat} (h : geometry.chain image first i = none) (hle : i ≤ j) :
    geometry.chain image first j = none := by
  induction hle with
  | refl => exact h
  | step _ ih =>
    rw [chain, ih]
    rfl

/-- A step of the table is a step of the chain. -/
theorem post_nextClusterCached (hfs : fs.Provides image pos D total) {s : Attached σ BlockCache}
    (h : BlockCache.Inv image D geometry.sectorSize s) (cluster : Nat) :
    Post (geometry.nextClusterCached fs cluster) s
      (fun next t => BlockCache.Inv image D geometry.sectorSize t ∧
        next = geometry.nextCluster image cluster)
      (fun _ t => BlockCache.Inv image D geometry.sectorSize t ∧
        (total → ¬ geometry.StepOk image cluster)) := by
  simp only [nextClusterCached, post_ite, post_bind, post_throw]
  refine ⟨fun hvalid => ?_, fun hnot => ⟨h, fun _ hok => hnot hok.valid⟩⟩
  apply (BlockCache.post_readExactAt hfs geometry.sectorSize_pos h _ _).mono
  · rintro bytes t ⟨ht, rfl⟩
    cases hentry : decodeEntry geometry.kind cluster (window image.content
        (geometry.entryOffset cluster) (geometry.entryAt cluster).2) with
    | ok next =>
      refine ⟨ht, ?_⟩
      rw [nextCluster, if_pos hvalid, hentry]
    | error e =>
      refine ⟨ht, fun _ hok => ?_⟩
      have hentry' := hok.entry
      rw [hentry] at hentry'
      cases hentry'
  · rintro e t ⟨ht, hnot⟩
    exact ⟨ht, fun htotal hok => hnot htotal hok.inside⟩

end FatFileGeometry

namespace FatFileValue

variable {σ : Type} {fs : BlockReader FatError σ} {pos : σ → Nat} {I H D : σ → Prop}
  {total : Prop} {s : Attached σ FatFileValue} {position : SeekFrom} {d : σ}

/-- A file as its volume has it. -/
structure VolumeFile extends FatFileGeometry where
  image : ByteImage
  first : Option Nat
  size : Nat

variable {file : VolumeFile}

/-- What no call changes, and what holds of the cached sector. -/
structure Params (file : VolumeFile) (D : σ → Prop) (s : Attached σ FatFileValue) : Prop where
  geometry_eq : s.value.geometry = file.toFatFileGeometry
  firstCluster : s.value.firstCluster = file.first
  dataSize : s.value.dataSize = file.size
  cache : BlockCache.Inv file.image D file.sectorSize ⟨s.fs, s.value.fatCache⟩
  position_le : s.value.positionInCluster ≤ file.clusterSize

/-- The current cluster is number `k` of the chain. -/
structure At (file : VolumeFile) (value : FatFileValue) (k cluster : Nat) : Prop where
  current : value.currentCluster = some cluster
  chain : file.chain file.image file.first k = some cluster
  traversed : value.clustersTraversed = k

/-- The stream is in the current cluster, or at its end. -/
structure InCluster (file : VolumeFile) (value : FatFileValue) (k cluster : Nat) : Prop
    extends At file value k cluster where
  stream : value.streamPosition = k * file.clusterSize + value.positionInCluster

/-- The chain has ended at or before the position. -/
def Ended (file : VolumeFile) (value : FatFileValue) (position : Nat) : Prop :=
  value.currentCluster = none ∧ ∃ k, file.chain file.image file.first k = none ∧
    k * file.clusterSize ≤ position

/-- The stream and the current cluster belong together. -/
structure Synced (file : VolumeFile) (D : σ → Prop) (s : Attached σ FatFileValue) : Prop where
  params : Params file D s
  cluster : (∃ k cluster, InCluster file s.value k cluster) ∨
    Ended file s.value s.value.streamPosition

/-- At the end of its cluster the stream is where the next one starts. -/
theorem InCluster.stream_succ {value : FatFileValue} (h : InCluster file value k cluster)
    (hfull : value.positionInCluster = file.clusterSize) :
    value.streamPosition = (k + 1) * file.clusterSize := by
  rw [h.stream, hfull, Nat.succ_mul]

/-- Another state of the device. -/
theorem Params.withFs (h : Params file D s) (hd : H d) : Params file H { s with fs := d } :=
  { h with cache := { h.cache with fs := hd } }

/-- At the start of the chain. -/
theorem Params.synced_start (h : Params file D s) (hcurrent : s.value.currentCluster = file.first)
    (htraversed : s.value.clustersTraversed = 0) (hposition : s.value.positionInCluster = 0)
    (hstream : s.value.streamPosition = 0) :
    Synced file D s := by
  refine ⟨h, ?_⟩
  cases hfirst : file.first with
  | none =>
    refine .inr ⟨hcurrent.trans hfirst, 0, hfirst, ?_⟩
    rw [Nat.zero_mul]
    exact Nat.zero_le _
  | some cluster =>
    refine .inl ⟨0, cluster, ⟨hcurrent.trans hfirst, hfirst, htraversed⟩, ?_⟩
    rw [Nat.zero_mul, hposition, hstream]

/-- One step of the chain. When it fails, nothing but the cached sector has changed. -/
theorem post_advanceCluster (hfs : fs.Provides file.image pos D total) (h : Params file D s)
    (hat : At file s.value k cluster)
    (hstream : s.value.streamPosition = (k + 1) * file.clusterSize) :
    Post (advanceCluster fs) s
      (fun more t => Params file D t ∧ t.value.streamPosition = s.value.streamPosition ∧
        (more = true ∧ t.value.positionInCluster = 0 ∧
            (∃ next, InCluster file t.value (k + 1) next) ∨
          more = false ∧ Ended file t.value s.value.streamPosition))
      (fun _ t => Params file D t ∧
        (InCluster file s.value k cluster → InCluster file t.value k cluster) ∧
        (total → ¬ (k < file.clusterCount ∧ file.StepOk file.image cluster))) := by
  simp only [advanceCluster, post_bind, post_get, hat.current, post_ite, post_throw, onCache,
    post_zoom]
  rw [h.geometry_eq, hat.traversed]
  refine ⟨fun hloop => ⟨h, id, fun _ hok => by omega⟩, fun _ => ?_⟩
  have hnext : file.chain file.image file.first (k + 1) =
      file.nextCluster file.image cluster := by
    rw [chain, hat.chain]
    rfl
  apply (post_nextClusterCached hfs h.cache cluster).mono
  · rintro next t ⟨ht, rfl⟩
    cases hcase : file.nextCluster file.image cluster with
    | some next =>
      simp only [follow, post_bind, post_modify, post_pure]
      exact ⟨⟨rfl, h.firstCluster, h.dataSize, ht, Nat.zero_le _⟩, rfl,
        .inl ⟨trivial, rfl, next, ⟨rfl, hnext.trans hcase, rfl⟩, hstream⟩⟩
    | none =>
      simp only [follow, post_bind, post_modify, post_pure]
      exact ⟨⟨rfl, h.firstCluster, h.dataSize, ht, h.position_le⟩, rfl,
        .inr ⟨trivial, rfl, k + 1, hnext.trans hcase, Nat.le_of_eq hstream.symm⟩⟩
  · rintro e t ⟨ht, hnot⟩
    exact ⟨⟨rfl, h.firstCluster, h.dataSize, ht, h.position_le⟩,
      fun hin => ⟨⟨rfl, hat.chain, rfl⟩, hin.stream⟩, fun htotal hok => hnot htotal hok.2⟩

/-! ### Reads -/

/-- The bytes are those of the chain from `position` on. -/
def BytesAt (geometry : FatFileGeometry) (image : ByteImage) (first : Option Nat) (position : Nat)
    (bytes : Bytes) : Prop :=
  ∀ i b, bytes[i]? = some b → ∃ cluster offset,
    geometry.chain image first ((position + i) / geometry.clusterSize) = some cluster ∧
    geometry.clusterOffset cluster = .ok offset ∧
    b = image.content (offset + (position + i) % geometry.clusterSize)

/-- The cluster of a position is there and lies in the image. -/
def DataAt (geometry : FatFileGeometry) (image : ByteImage) (first : Option Nat) (position : Nat) :
    Prop :=
  ∃ cluster offset, geometry.chain image first (position / geometry.clusterSize) = some cluster ∧
    geometry.clusterOffset cluster = .ok offset ∧ offset + geometry.clusterSize ≤ image.length

/-- What a read of `n` bytes at `position` may return: bytes of the chain inside the file; and some
    where there are any, if the device serves the image. -/
structure Right (geometry : FatFileGeometry) (image : ByteImage) (first : Option Nat)
    (size position n : Nat) (total : Prop) (bytes : Bytes) : Prop where
  length_le : bytes.length ≤ min n (size - position)
  bytesAt : BytesAt geometry image first position bytes
  nonempty : total → 0 < n → position < size → DataAt geometry image first position → bytes ≠ []

/-- A position inside a cluster of the chain. -/
theorem div_mod_cluster {geometry : FatFileGeometry} {r : Nat} (h : r < geometry.clusterSize) :
    (k * geometry.clusterSize + r) / geometry.clusterSize = k ∧
      (k * geometry.clusterSize + r) % geometry.clusterSize = r := by
  constructor
  · rw [Nat.mul_comm, Nat.mul_add_div geometry.clusterSize_pos, Nat.div_eq_of_lt h, Nat.add_zero]
  · rw [Nat.mul_comm, Nat.mul_add_mod, Nat.mod_eq_of_lt h]

/-- Where the chain has ended there is no data. -/
theorem Ended.not_dataAt {value : FatFileValue} {position : Nat} (h : Ended file value position) :
    ¬ DataAt file.toFatFileGeometry file.image file.first position := by
  rintro ⟨cluster, offset, hchain, -, -⟩
  obtain ⟨-, k, hnone, hle⟩ := h
  have hk : k ≤ position / file.clusterSize :=
    (Nat.le_div_iff_mul_le file.clusterSize_pos).mpr hle
  rw [chain_none hnone hk] at hchain
  cases hchain

section

variable (hfs : fs.Provides file.image pos D total)

include hfs

/-- The step behind a read; whichever way it ends, stream and cluster belong together. -/
theorem post_stepAtEnd (h : Params file D s) (hin : InCluster file s.value k cluster) :
    Post (stepAtEnd fs) s (fun _ t => Synced file D t) (fun _ t => Synced file D t) := by
  simp only [stepAtEnd, post_bind, post_get, post_ite, post_pure]
  refine ⟨fun hend => ?_, fun _ => ⟨h, .inl ⟨k, cluster, hin⟩⟩⟩
  rw [h.geometry_eq] at hend
  have hnext := hin.stream_succ (Nat.le_antisymm h.position_le hend)
  apply (post_advanceCluster hfs h hin.toAt hnext).mono
  · rintro more t ⟨ht, hpos, ⟨-, -, next, hin'⟩ | ⟨-, hended⟩⟩
    · exact ⟨ht, .inl ⟨k + 1, next, hin'⟩⟩
    · exact ⟨ht, .inr (hpos ▸ hended)⟩
  · rintro e t ⟨ht, hkeep, -⟩
    exact ⟨ht, .inl ⟨k, cluster, hkeep hin⟩⟩

/-- Reading inside a cluster. -/
theorem post_readHere (h : Params file D s) {n : Nat} (hat : InCluster file s.value k cluster)
    (hin : s.value.positionInCluster < file.clusterSize) :
    Post (readHere fs n) s
      (fun bs t => Synced file D t ∧
        Right file.toFatFileGeometry file.image file.first file.size s.value.streamPosition n
          total bs)
      (fun _ t => Synced file D t) := by
  simp only [readHere, post_bind, post_get, hat.current, h.geometry_eq]
  cases hoffset : file.clusterOffset cluster with
  | error e =>
    exact ⟨h, .inl ⟨k, cluster, hat⟩⟩
  | ok offset =>
    simp only [post_bind, Attached.onFs, post_zoom, post_modify, post_pure]
    have hfail : ∀ d, D d → Synced file D { s with fs := d } :=
      fun d hd => ⟨h.withFs hd, .inl ⟨k, cluster, { hat with }⟩⟩
    apply (hfs.seek_start _ s.fs h.cache.fs).mono _ fun _ d hd => hfail d hd
    rintro _ d ⟨hd, hat_d⟩
    have hread : Post (fs.read (s.value.toRead n)) d
        (fun bs d' => D d' ∧ bs = window file.image.content (pos d) bs.length ∧
          bs.length ≤ s.value.toRead n ∧
          (total → 0 < s.value.toRead n → pos d < file.image.length → bs ≠ []))
        (fun _ d' => D d') := by
      refine ((hfs.read _ d hd).and_of_imp fun hok : total ∧ 0 < s.value.toRead n ∧
        pos d < file.image.length => (hfs.serves hok.1).read_ok _ d hd hok.2.1 hok.2.2).mono ?_
        fun _ _ hno => hno.1
      rintro bs d' ⟨⟨hd', hbs, hle, -⟩, hpos⟩
      exact ⟨hd', hbs, hle, fun h1 h2 h3 => List.length_pos_iff.mp (hpos ⟨h1, h2, h3⟩)⟩
    apply hread.mono _ fun _ d' hd' => hfail d' hd'
    rintro bs d' ⟨hd', hbs, hle, hnonempty⟩
    -- a read does not cross the end of the cluster or of the file
    have hroom : bs.length ≤ file.clusterSize - s.value.positionInCluster ∧
        bs.length ≤ n ∧ bs.length ≤ s.value.dataSize - s.value.streamPosition := by
      simp only [toRead, remaining, h.geometry_eq] at hle
      omega
    have hright : Right file.toFatFileGeometry file.image file.first file.size
        s.value.streamPosition n total bs := by
      refine ⟨?_, ?_, ?_⟩
      · rw [← h.dataSize]
        omega
      · intro i b hb
        have hi : i < bs.length := (List.getElem?_eq_some_iff.mp hb).1
        have hbelow : s.value.positionInCluster + i < file.clusterSize := by omega
        have hplace := div_mod_cluster (k := k) hbelow
        refine ⟨cluster, offset, ?_, hoffset, ?_⟩
        · rw [hat.stream, Nat.add_assoc, hplace.1]
          exact hat.chain
        · rw [hbs, getElem?_window, if_pos hi, Option.some.injEq] at hb
          rw [← hb, hat_d, hat.stream, Nat.add_assoc (k * _), hplace.2, Nat.add_assoc]
      · rintro htotal hn hlt ⟨cluster', offset', hchain', hoffset', hinside⟩
        have hplace := div_mod_cluster (k := k) hin
        rw [hat.stream, hplace.1, hat.chain, Option.some.injEq] at hchain'
        obtain rfl := hchain'
        rw [hoffset, Except.ok.injEq] at hoffset'
        apply hnonempty htotal
        · simp only [toRead, remaining, h.dataSize, h.geometry_eq]
          omega
        · omega
    apply (post_stepAtEnd hfs ?_ (?_ : InCluster _ _ k cluster)).imp fun _ t ht => ⟨ht, hright⟩
    · refine ⟨h.geometry_eq, h.firstCluster, h.dataSize,
        ⟨hd', h.cache.blockSize, h.cache.truthful⟩, ?_⟩
      show s.value.positionInCluster + bs.length ≤ _
      omega
    · refine { hat.toAt with stream := ?_ }
      show s.value.streamPosition + bs.length = _ + (s.value.positionInCluster + bs.length)
      rw [hat.stream, Nat.add_assoc]

/-- A read of a value whose stream and cluster belong together, however it ends. -/
theorem post_read (h : Synced file D s) (n : Nat) : Post (read fs n) s
      (fun bs t => Synced file D t ∧
        Right file.toFatFileGeometry file.image file.first file.size s.value.streamPosition n total
          bs)
      (fun _ t => Synced file D t) := by
  simp only [read, post_bind, post_get, post_ite, post_pure]
  have hnil : (total → 0 < n → s.value.streamPosition < file.size →
      ¬ DataAt file.toFatFileGeometry file.image file.first s.value.streamPosition) →
      Right file.toFatFileGeometry file.image file.first file.size s.value.streamPosition n total
        [] :=
    fun hno => ⟨Nat.zero_le _, (fun _ _ hb => by cases hb), fun h1 h2 h3 h4 =>
      absurd h4 (hno h1 h2 h3)⟩
  refine ⟨fun hdone => ⟨h, hnil fun _ hn hlt => ?_⟩, fun hmore => ⟨fun hnone => ⟨h, hnil ?_⟩,
    fun hsome => ?_⟩⟩
  · have hsize := h.params.dataSize
    simp only [remaining] at hdone
    omega
  · intro _ _ _
    obtain ⟨k, cluster, hin⟩ | hended := h.cluster
    · rw [hin.current] at hnone
      cases hnone
    · exact hended.not_dataAt
  obtain ⟨k, cluster, hin⟩ | ⟨hnone, -⟩ := h.cluster
  swap
  · exact absurd hnone hsome
  have hgeometry := h.params.geometry_eq
  refine ⟨fun hzero => ?_, fun hpos => ?_⟩
  · -- the position is at the end of the cluster, so the chain is followed first
    have hfull : s.value.positionInCluster = file.clusterSize := by
      have hle := h.params.position_le
      simp only [toRead, hgeometry] at hzero hmore
      omega
    apply (post_advanceCluster hfs h.params hin.toAt (hin.stream_succ hfull)).mono
    · rintro more t ⟨ht, hpos, ⟨rfl, hzero', next, hin'⟩ | ⟨rfl, hended⟩⟩
      · rw [← hpos]
        refine ⟨fun _ => post_readHere hfs ht hin' ?_, fun hfalse => absurd rfl hfalse⟩
        rw [hzero']
        exact file.clusterSize_pos
      · exact ⟨fun htrue => absurd htrue Bool.false_ne_true,
          fun _ => ⟨⟨ht, .inr (hpos ▸ hended)⟩, hnil fun _ _ _ => hended.not_dataAt⟩⟩
    · rintro e t ⟨ht, hkeep, -⟩
      exact ⟨ht, .inl ⟨k, cluster, hkeep hin⟩⟩
  · apply post_readHere hfs h.params hin
    simp only [toRead, hgeometry] at hpos
    omega

/-! ### Seeks -/

/-- The target of a seek, cut at the size of the file. -/
def targetPos (value : FatFileValue) (position : SeekFrom) : Nat :=
  min (value.seekTarget position) value.dataSize

/-- The clusters that a seek leaves behind, apart from those before the current one. -/
def Walks (value : FatFileValue) (target i : Nat) : Prop :=
  i < target / value.geometry.clusterSize ∧
    (target < value.streamPosition ∨ value.streamPosition < (i + 1) * value.geometry.clusterSize ∨
      value.positionInCluster = value.geometry.clusterSize ∧
        value.streamPosition = (i + 1) * value.geometry.clusterSize)

/-- What a call needs. A read needs nothing. A seek needs every step of the chain that it takes to
    succeed; and it must not go into the cluster behind the current one when the stream is already
    there, which is so after a read that failed to step. -/
def CallSafe (image : ByteImage) (H : σ → Prop) (s : Attached σ FatFileValue) : ReaderCall → Prop
  | .read _ => True
  | .seek position =>
    let target := s.value.targetPos position
    (∀ i cluster, Walks s.value target i →
      s.value.geometry.chain image s.value.firstCluster i = some cluster →
      H s.fs ∧ i < s.value.geometry.clusterCount ∧ s.value.geometry.StepOk image cluster) ∧
    ¬ (s.value.positionInCluster = s.value.geometry.clusterSize ∧ s.value.currentCluster ≠ none ∧
      s.value.streamPosition ≤ target ∧
      target / s.value.geometry.clusterSize = s.value.streamPosition / s.value.geometry.clusterSize)

/-- Where the loop of a seek stands: in a cluster of the chain, not behind the target, or behind the
    end of the chain. -/
structure Seeking (file : VolumeFile) (D : σ → Prop) (target : Nat) (s : Attached σ FatFileValue)
    (k cluster : Nat) : Prop where
  params : Params file D s
  in_cluster : InCluster file s.value k cluster
  le_target : k ≤ target / file.clusterSize
  before_end : s.value.positionInCluster = file.clusterSize →
    k + 1 < target / file.clusterSize

/-- What the loop of a seek leads to. -/
def Found (file : VolumeFile) (D : σ → Prop) (target : Nat) (t : Attached σ FatFileValue) : Prop :=
  Params file D t ∧
    ((∃ cluster, At file t.value (target / file.clusterSize) cluster) ∨
      Ended file t.value target)

theorem post_seekLoop (passes : Nat) {k cluster : Nat} {s : Attached σ FatFileValue}
    (h : Seeking file D target s k cluster)
    (hpasses : target / file.clusterSize - k ≤ passes)
    (htotal : k < target / file.clusterSize → total)
    (hsteps : ∀ i c, k ≤ i → i < target / file.clusterSize →
      file.chain file.image file.first i = some c → i < file.clusterCount ∧
        file.StepOk file.image c) :
    Post (seekLoop fs (target / file.clusterSize) passes) s
      (fun _ t => Found file D target t) (fun _ _ => False) := by
  induction passes generalizing k cluster s with
  | zero =>
    have hk : k = target / file.clusterSize := Nat.le_antisymm h.le_target (by omega)
    rw [hk] at h
    exact ⟨h.params, .inl ⟨cluster, h.in_cluster.toAt⟩⟩
  | succ passes ih =>
    have hgeometry := h.params.geometry_eq
    simp only [seekLoop, post_bind, post_get, post_ite, post_pure, post_modify, hgeometry]
    have hdiv : s.value.streamPosition / file.clusterSize = k ∨
        s.value.streamPosition / file.clusterSize = k + 1 ∧ k + 1 < target / file.clusterSize := by
      by_cases hfull : s.value.positionInCluster = file.clusterSize
      · refine .inr ⟨?_, h.before_end hfull⟩
        rw [h.in_cluster.stream_succ hfull, Nat.mul_div_cancel _ file.clusterSize_pos]
      · have hin := Nat.lt_of_le_of_ne h.params.position_le hfull
        rw [h.in_cluster.stream]
        exact .inl (div_mod_cluster hin).1
    have hle := h.le_target
    refine ⟨fun hmore => ?_, fun hstop => ?_⟩
    · -- the stream is moved first, and only then the chain is followed
      have hlt : k + 1 ≤ target / file.clusterSize := by omega
      have hstream : (onValue stepStream s).value.streamPosition = (k + 1) * file.clusterSize := by
        have hposition := h.params.position_le
        show s.value.streamPosition + (s.value.geometry.clusterSize - _) = _
        rw [hgeometry, h.in_cluster.stream, Nat.succ_mul]
        omega
      have hparams : Params file D (onValue stepStream s) :=
        { h.params with geometry_eq := hgeometry }
      have hat : At file (onValue stepStream s).value k cluster := { h.in_cluster.toAt with }
      apply (post_advanceCluster hfs hparams hat hstream).mono
      · rintro more t ⟨ht, -, ⟨rfl, hzero, next, hin⟩ | ⟨rfl, hnone, i, hchain, hi⟩⟩
        · refine ⟨fun _ => ?_, fun hfalse => absurd rfl hfalse⟩
          apply ih
          · refine ⟨ht, hin, hlt, fun hfull => ?_⟩
            have hsize := file.clusterSize_pos
            omega
          · omega
          · intro _
            exact htotal (by omega)
          · intro i c hi
            exact hsteps i c (by omega)
        · refine ⟨fun htrue => absurd htrue Bool.false_ne_true,
            fun _ => ⟨ht, .inr ⟨hnone, i, hchain, Nat.le_trans hi ?_⟩⟩⟩
          rw [hstream]
          exact (Nat.le_div_iff_mul_le file.clusterSize_pos).mp hlt
      · -- a safe step does not fail
        rintro e t ⟨-, -, hnot⟩
        exact hnot (htotal (by omega))
          (hsteps k cluster (Nat.le_refl k) (by omega) hat.chain)
    · have hk : k = target / file.clusterSize := by omega
      rw [hk] at h
      exact ⟨h.params, .inl ⟨cluster, h.in_cluster.toAt⟩⟩

end

/-- Where the chain has ended, the loop of a seek does not touch the device. -/
theorem post_seekLoop_of_ended (h : Params file D s) (hended : Ended file s.value target)
    (passes : Nat) :
    Post (seekLoop fs (target / file.clusterSize) passes) s
      (fun _ t => Found file D target t) (fun _ _ => False) := by
  cases passes with
  | zero => exact ⟨h, .inr hended⟩
  | succ passes =>
    simp only [seekLoop, post_bind, post_get, post_ite, post_pure, post_modify]
    refine ⟨fun _ => ?_, fun _ => ⟨h, .inr hended⟩⟩
    simp only [advanceCluster, post_bind, post_get]
    split
    · simp only [post_pure]
      refine ⟨fun htrue => absurd htrue Bool.false_ne_true, fun _ => ⟨?_, .inr hended⟩⟩
      exact { h with }
    rename_i current hcurrent
    have hnone : s.value.currentCluster = none := hended.1
    rw [show (onValue stepStream s).value.currentCluster = s.value.currentCluster from rfl,
      hnone] at hcurrent
    cases hcurrent

/-- The end of a seek puts the stream where the cluster is. -/
theorem Found.synced {t : Attached σ FatFileValue} (h : Found file D target t) :
    Synced file D (onValue (setPosition target) t) := by
  obtain ⟨hparams, hfound⟩ := h
  have hmod : (onValue (setPosition target) t).value.positionInCluster =
      target % file.clusterSize := by
    show target % t.value.geometry.clusterSize = _
    rw [hparams.geometry_eq]
  refine ⟨{ hparams with position_le := ?_ }, ?_⟩
  · rw [hmod]
    exact Nat.le_of_lt (Nat.mod_lt _ file.clusterSize_pos)
  · obtain ⟨cluster, hat⟩ | hended := hfound
    · refine .inl ⟨_, cluster, { hat with stream := ?_ }⟩
      rw [hmod, Nat.mul_comm]
      exact (Nat.div_add_mod target file.clusterSize).symm
    · exact .inr hended

theorem rewindFor_of_not_lt (h : ¬ target < s.value.streamPosition) :
    onValue (rewindFor target) s = s := by
  simp only [onValue, rewindFor, if_neg h]

/-- A rewind leads to the start of the chain. -/
theorem synced_rewindFor (h : Synced file D s) (target : Nat) :
    Synced file D (onValue (rewindFor target) s) ∧
      (onValue (rewindFor target) s).value.streamPosition ≤ target := by
  have hp := h.params
  by_cases hback : target < s.value.streamPosition
  · have hval : onValue (rewindFor target) s = onValue rewind s := by
      simp only [onValue, rewindFor, if_pos hback]
    rw [hval]
    have hstart : Params file D (onValue rewind s) :=
      { hp with position_le := Nat.zero_le _ }
    exact ⟨hstart.synced_start hp.firstCluster rfl rfl rfl, Nat.zero_le _⟩
  · rw [rewindFor_of_not_lt hback]
    exact ⟨h, Nat.le_of_not_lt hback⟩

/-- The clusters behind the one where the loop starts are walked. -/
theorem walks_of_le {i : Nat} (h : Synced file D s)
    (hin : InCluster file (onValue (rewindFor target) s).value k cluster) (hki : k ≤ i)
    (hi : i < target / file.clusterSize) : Walks s.value target i := by
  have hgeometry := h.params.geometry_eq
  refine ⟨by rw [hgeometry]; exact hi, ?_⟩
  by_cases hback : target < s.value.streamPosition
  · exact .inl hback
  rw [rewindFor_of_not_lt hback] at hin
  have hstream := hin.stream
  have hle := h.params.position_le
  have hmul : (k + 1) * file.clusterSize ≤ (i + 1) * file.clusterSize :=
    Nat.mul_le_mul_right _ (by omega)
  have hsucc := Nat.add_one_mul k file.clusterSize
  rw [hgeometry]
  by_cases hfull : s.value.positionInCluster = file.clusterSize
  · obtain rfl | hlt := Nat.eq_or_lt_of_le hki
    · exact .inr (.inr ⟨hfull, by omega⟩)
    · have hmul' : (k + 1 + 1) * file.clusterSize ≤ (i + 1) * file.clusterSize :=
        Nat.mul_le_mul_right _ (by omega)
      have hsucc' := Nat.add_one_mul (k + 1) file.clusterSize
      have hpos := file.clusterSize_pos
      exact .inr (.inl (by omega))
  · exact .inr (.inl (by omega))

/-- A seek that is safe succeeds, and stream and cluster belong together behind it. -/
theorem post_seek (hfs : fs.ReadsImage file.image pos I) (hserves : fs.ServesImage file.image pos H)
    (hsub : ∀ d, H d → I d) (h : Synced file I s)
    (hsafe : CallSafe file.image H s (.seek position)) :
    Post (seek fs position) s (fun _ t => Synced file I t)
      (fun _ _ => False) := by
  obtain ⟨hwalk, hstall⟩ := hsafe
  obtain ⟨hsynced, hle⟩ := synced_rewindFor h (s.value.targetPos position)
  have hgeometry := h.params.geometry_eq
  simp only [seek, seekToPosition, post_bind, post_get, post_modify, post_pure]
  rw [show min (s.value.seekTarget position) s.value.dataSize = s.value.targetPos position from rfl,
    hgeometry]
  generalize s.value.targetPos position = target at *
  have hfound : Post (seekLoop fs (target / file.clusterSize)
      (target / file.clusterSize + 1)) (onValue (rewindFor target) s)
      (fun _ t => Found file I target t) (fun _ _ => False) := by
    obtain ⟨k, cluster, hin⟩ | ⟨hnone, k, hchain, hk⟩ := hsynced.cluster
    · have hstream := hin.stream
      have hk : k ≤ target / file.clusterSize :=
        (Nat.le_div_iff_mul_le file.clusterSize_pos).mpr (by omega)
      have hend : (onValue (rewindFor target) s).value.positionInCluster = file.clusterSize →
          k + 1 < target / file.clusterSize := by
        intro hfull
        by_cases hback : target < s.value.streamPosition
        · -- behind a rewind the position is zero
          have hzero : (onValue (rewindFor target) s).value.positionInCluster = 0 := by
            simp only [onValue, rewindFor, if_pos hback, rewind]
          have hpos := file.clusterSize_pos
          omega
        rw [rewindFor_of_not_lt hback] at hfull hin
        have hnext := hin.stream_succ hfull
        have hge : k + 1 ≤ target / file.clusterSize :=
          (Nat.le_div_iff_mul_le file.clusterSize_pos).mpr (by omega)
        refine Nat.lt_of_le_of_ne hge fun heq => hstall ⟨?_, ?_, Nat.le_of_not_lt hback, ?_⟩
        · rw [hgeometry]
          exact hfull
        · rw [hin.current]
          exact Option.some_ne_none cluster
        · rw [hgeometry, hnext, Nat.mul_div_cancel _ file.clusterSize_pos, heq]
      have hsteps : ∀ i c, k ≤ i → i < target / file.clusterSize →
          file.chain file.image file.first i = some c →
          H s.fs ∧ i < file.clusterCount ∧ file.StepOk file.image c := by
        intro i c hki hi hc
        have hstep := hwalk i c (walks_of_le h hin hki hi)
        rw [hgeometry, h.params.firstCluster] at hstep
        exact hstep hc
      by_cases hmore : k < target / file.clusterSize
      · -- there is a step to take, so the device is asked
        have hH : H s.fs := (hsteps k cluster (Nat.le_refl k) hmore hin.chain).1
        have hseeking : Seeking file H target (onValue (rewindFor target) s) k cluster :=
          ⟨hsynced.params.withFs hH, hin, hk, hend⟩
        apply (post_seekLoop hserves.provides _ hseeking (by omega)
          (fun _ => trivial) fun i c hki hi hc => (hsteps i c hki hi hc).2).imp _
        rintro _ t ⟨ht, hfound⟩
        exact ⟨ht.withFs (hsub _ ht.cache.fs), hfound⟩
      · exact post_seekLoop ⟨hfs, False.elim⟩ _
          ⟨hsynced.params, hin, hk, hend⟩ (by omega) (fun hlt => absurd hlt hmore)
          fun i c hki hi hc => (hsteps i c hki hi hc).2
    · exact post_seekLoop_of_ended hsynced.params ⟨hnone, k, hchain, by omega⟩ _
  apply hfound.imp _
  intro _ t ht
  exact ht.synced

/-! ### Runs -/

/-- A read that succeeds returns bytes of the chain at the position of the stream. -/
def ReadRight (fs : BlockReader FatError σ) (image : ByteImage) (H : σ → Prop)
    (s : Attached σ FatFileValue) : ReaderCall → Prop
  | .read n => ∀ bs t, read fs n s = .ok bs t →
    Right s.value.geometry image s.value.firstCluster s.value.dataSize s.value.streamPosition n
      (H s.fs) bs
  | .seek _ => True

theorem Synced.mono (hsub : ∀ d, H d → I d) (h : Synced file H s) : Synced file I s :=
  ⟨h.params.withFs (hsub _ h.params.cache.fs), h.cluster⟩

/-- One call. -/
theorem readRight_step (hfs : fs.ReadsImage file.image pos I)
    (hserves : fs.ServesImage file.image pos H) (hsub : ∀ d, H d → I d)
    (s : Attached σ FatFileValue) (call : ReaderCall) (h : Synced file I s)
    (hcall : CallSafe file.image H s call) :
    ReadRight fs file.image H s call ∧ Synced file I ((reader fs).after s call) := by
  match call with
  | .read n =>
    obtain ⟨D, hfsD, hsubD, hd⟩ := hfs.exists_provides hserves hsub h.params.cache.fs
    have hpost := post_read hfsD ⟨h.params.withFs hd, h.cluster⟩ n
    constructor
    · intro bs t hrun
      rw [h.params.geometry_eq, h.params.firstCluster, h.params.dataSize]
      exact (hpost.of_ok hrun).2
    · exact (hpost.mono (fun _ _ ht => ht.1.mono hsubD) fun _ _ ht => ht.mono hsubD).state
  | .seek position =>
    refine ⟨trivial, ?_⟩
    exact ((post_seek hfs hserves hsub h hcall).mono (fun _ _ ht => ht) fun _ _ hno =>
      hno.elim).state

theorem synced_new (hd : D d) (file : VolumeFile) :
    Synced file D ⟨d, new file.toFatFileGeometry file.first file.size⟩ := by
  have hparams : Params file D ⟨d, new file.toFatFileGeometry file.first file.size⟩ :=
    ⟨rfl, rfl, rfl, BlockCache.inv_new hd, Nat.zero_le _⟩
  exact hparams.synced_start rfl rfl rfl rfl

/-- For every volume, every file and every run of calls, including calls that fail: as long as every
    seek is safe, every read that succeeds returns bytes of the chain at the position of the stream.
    -/
theorem reads_chain_along (fs : BlockReader FatError σ) (image : ByteImage) (pos : σ → Nat)
    (I H : σ → Prop) (hfs : fs.ReadsImage image pos I) (hserves : fs.ServesImage image pos H)
    (hsub : ∀ d, H d → I d) (d : σ) (hd : I d) (geometry : FatFileGeometry) (first : Option Nat)
    (size : Nat) (calls : List ReaderCall)
    (hcalls : Run.Along (reader fs).after (CallSafe image H) calls ⟨d, new geometry first size⟩) :
    Run.Along (reader fs).after (ReadRight fs image H) calls ⟨d, new geometry first size⟩ :=
  Run.along_of_along (readRight_step hfs hserves hsub) 
    (synced_new hd ⟨geometry, image, first, size⟩) hcalls

/-- A small FAT12 volume: the table is in the second sector and the clusters of one sector follow
    it. -/
def smallVolume : FatFileGeometry where
  kind := .fat12
  clusterSize := 512
  sectorSize := 512
  tableStartSector := 1
  dataStartSector := 2
  clusterCount := 8
  clusterSize_pos := by decide
  sectorSize_pos := by decide

/-- The entry of cluster 2 marks a bad cluster; each sector is filled with its number. -/
def badEntryImage : ByteImage where
  content := fun i => if i = 515 then 0xf7 else if i = 516 then 0x0f else UInt8.ofNat (i / 512)
  length := 8192

/-- A file of two clusters that starts with cluster 2. -/
def badEntryFile : Attached Nat FatFileValue := ⟨0, new smallVolume (some 2) 1024⟩

/-- A seek inside the first cluster takes no step. -/
theorem callSafe_first_cluster {s : Attached Nat FatFileValue}
    (hsize : s.value.geometry.clusterSize = 512) (htarget : s.value.targetPos position < 512)
    (hpos : s.value.positionInCluster < 512) :
    CallSafe badEntryImage (fun _ => True) s (.seek position) := by
  refine ⟨fun i cluster hwalk _ => ?_, fun hstall => ?_⟩
  · have hzero : s.value.targetPos position / s.value.geometry.clusterSize = 0 := by
      rw [hsize]
      exact Nat.div_eq_of_lt htarget
    have hlt := hwalk.1
    omega
  · have hfull := hstall.1
    omega

/-- Reading in the first cluster, with a seek back. -/
theorem reads_chain_along_first_cluster : Run.Along (reader (badEntryImage.reader .io)).after
      (ReadRight (badEntryImage.reader .io) badEntryImage fun _ => True)
      [.read 3, .seek (.start 1), .read 600] badEntryFile := by
  apply reads_chain_along (badEntryImage.reader .io) badEntryImage id (fun _ => True)
    (fun _ => True) (badEntryImage.reader_serves _).toReadsImage (badEntryImage.reader_serves _)
    (fun _ h => h) 0 trivial
  refine ⟨trivial, callSafe_first_cluster ?_ ?_ ?_, trivial, trivial⟩
  all_goals decide +kernel

/-- The state behind the two seeks. -/
def badEntryState : Attached Nat FatFileValue :=
  (reader (badEntryImage.reader .io)).after
    ((reader (badEntryImage.reader .io)).after badEntryFile (.seek (.start 512)))
      (.seek (.start 512))

/-- The seek fails at the bad entry; the same seek then succeeds, and the read behind it returns the
    bytes of the first cluster, where the chain has no second one. -/
theorem stale_cluster_bad_entry : ¬ Run.Along (reader (badEntryImage.reader .io)).after
      (ReadRight (badEntryImage.reader .io) badEntryImage fun _ => True)
      [.seek (.start 512), .seek (.start 512), .read 1] badEntryFile := by
  have hread : result? (read (badEntryImage.reader .io) 1) badEntryState = some [2] := by
    decide +kernel
  have hchain : badEntryState.value.geometry.chain badEntryImage badEntryState.value.firstCluster
      ((badEntryState.value.streamPosition + 0) / badEntryState.value.geometry.clusterSize) =
        none := by decide +kernel
  rintro ⟨-, -, h, -⟩
  obtain ⟨t, ht⟩ := result?_eq_some_iff.mp hread
  have hlast : ReadRight (badEntryImage.reader .io) badEntryImage (fun _ => True) badEntryState
      (.read 1) := h
  obtain ⟨cluster, offset, hsome, -, -⟩ := (hlast [2] t ht).bytesAt 0 2 rfl
  rw [hchain] at hsome
  cases hsome

end FatFileValue

end Fsmnt.FsFat
