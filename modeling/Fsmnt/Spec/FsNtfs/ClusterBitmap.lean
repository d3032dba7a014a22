import Fsmnt.ForStd.Mirrors
import Fsmnt.Native.FsNtfs.ClusterBitmap

/-!
# The cluster bitmap and its history

The cached cluster of the bitmap is overwritten by a read that may fail half way, and then the tag
still names the cluster that was there before.
-/

namespace Fsmnt.FsNtfs.ClusterBitmap

open Bytes EStateM

variable {σ : Type} {fs : FillReader NtfsError σ} {image : ByteImage} {pos : σ → Nat}
  {I H D : σ → Prop} {total : Prop} {made : ClusterBitmap} {s t : Attached σ ClusterBitmap}
  {k : Nat} {d : σ}

/-- The cluster of the bitmap as the image has it; none if it is not inside the image. -/
def idealCache (image : ByteImage) (bitmap : ClusterBitmap) (k : Nat) : Option Bytes :=
  match bitmap.diskPosition k with
  | some position =>
    if position + bitmap.clusterSize ≤ image.length then
      some (Bytes.window image.content position bitmap.clusterSize)
    else none
  | none => some (Bytes.zeros bitmap.clusterSize)

/-- What the queries do not change is as `made` has it, and the cache holds what the tag names. -/
structure Inv (image : ByteImage) (D : σ → Prop) (made : ClusterBitmap)
    (t : Attached σ ClusterBitmap) : Prop where
  fs : D t.fs
  map : t.value.map = made.map
  totalClusters : t.value.totalClusters = made.totalClusters
  clusterSize : t.value.clusterSize = made.clusterSize
  length : t.value.cache.length = made.clusterSize
  truthful : ∀ k, t.value.cachedCluster = some k → idealCache image made k = some t.value.cache

theorem inv_load (hd : D d) (map : DataRunMap) (totalClusters clusterSize : Nat) :
    Inv image D (load map totalClusters clusterSize) ⟨d, load map totalClusters clusterSize⟩ where
  fs := hd
  map := rfl
  totalClusters := rfl
  clusterSize := rfl
  length := length_zeros clusterSize
  truthful := by rintro k ⟨⟩

/-- Filling the cluster cannot fail: it is a hole, or the device does not fail and has it. -/
def Stable (image : ByteImage) (total : Prop) (bitmap : ClusterBitmap) (k : Nat) : Prop :=
  bitmap.diskPosition k = none ∨ total ∧ (idealCache image bitmap k).isSome

theorem Inv.withFs (h : Inv image D made t) (hd : D d) :
    Inv image D made { t with fs := d } :=
  { h with fs := hd }

theorem Inv.setCache (h : Inv image D made t) (hd : D d) {cache : Bytes}
    (hcache : idealCache image made k = some cache) (hlen : cache.length = made.clusterSize) :
    Inv image D made (setCache k cache { t with fs := d }) where
  fs := hd
  map := h.map
  totalClusters := h.totalClusters
  clusterSize := h.clusterSize
  length := hlen
  truthful := by
    rintro _ ⟨⟩
    exact hcache

section

variable (hfs : fs.Provides image pos D total)
  (hwrites : fs.WritesInside) {t : Attached σ ClusterBitmap} {cluster : Nat}

include hfs hwrites

/-- The read that fills the cache, from the position of the cluster. -/
theorem post_fillCache (h : Inv image D made t) {position : Nat}
    (hposition : made.diskPosition k = some position) (hat : pos t.fs = position)
    (hsafe : Stable image total made k ∨ t.value.cachedCluster = none) : Post (fillCache fs k) t
      (fun _ u => Inv image D made u ∧ u.value.cachedCluster = some k ∧
        idealCache image made k = some u.value.cache)
      (fun _ u => Inv image D made u ∧ (total → idealCache image made k = none)) := by
  subst hat
  have hideal : idealCache image made k = if pos t.fs + made.clusterSize ≤ image.length then
      some (window image.content (pos t.fs) made.clusterSize) else none := by
    rw [idealCache, hposition]
  simp only [fillCache, post_bind, post_get, post_attempt, Attached.onFs, post_zoom, h.length]
  refine (hfs.post_readExact h.fs made.clusterSize).mono ?_ ?_
  · rintro bs d ⟨hd, rfl, hle⟩
    rw [if_pos hle] at hideal
    exact ⟨h.setCache hd hideal length_window, rfl, hideal⟩
  rintro e d ⟨hd, hlt⟩
  have hnone : total → idealCache image made k = none := fun htotal =>
    hideal.trans (if_neg (Nat.not_le.mpr (hlt htotal)))
  -- only a cluster that is not stable can fail, so there was no tag, and there still is none
  have htag : t.value.cachedCluster = none := by
    obtain (hhole | ⟨htotal, hsome⟩) | htag := hsafe
    · rw [hposition] at hhole
      cases hhole
    · rw [hnone htotal] at hsome
      cases hsome
    · exact htag
  refine ⟨⟨hd, h.map, h.totalClusters, h.clusterSize, ?_, fun j hj => ?_⟩, hnone⟩
  · show (t.value.cache.splice 0 _).length = _
    rw [length_splice, h.length]
    rw [Nat.zero_add, h.length]
    exact hwrites _ _
  · simp only [spoilCache, htag] at hj
    cases hj

/-- One fill. When it fails, the tag is still true if the cluster is stable or there is no tag. -/
theorem post_ensureCached (h : Inv image D made t)
    (hsafe : Stable image total made k ∨ t.value.cachedCluster = none ∨ t.value.cachedCluster =
      some k) : Post (ensureCached fs k) t
      (fun _ u => Inv image D made u ∧ u.value.cachedCluster = some k ∧
        idealCache image made k = some u.value.cache)
      (fun _ u => Inv image D made u ∧ (total → idealCache image made k = none)) := by
  simp only [ensureCached, post_bind, post_get, post_ite, post_pure]
  refine ⟨fun hhit => ⟨h, hhit, h.truthful k hhit⟩, fun hmiss => ?_⟩
  have hsafe' : Stable image total made k ∨ t.value.cachedCluster = none := by
    obtain hstable | hnone | hhit := hsafe
    · exact .inl hstable
    · exact .inr hnone
    · exact absurd hhit hmiss
  rw [show t.value.diskPosition k = made.diskPosition k by
    rw [diskPosition, diskPosition, h.map, h.clusterSize]]
  cases hposition : made.diskPosition k with
  | none =>
    have hcache : idealCache image made k = some (zeros t.value.cache.length) := by
      rw [idealCache, hposition, h.length]
    refine ⟨h.setCache h.fs hcache ?_, rfl, hcache⟩
    rw [length_zeros, h.length]
  | some position =>
    simp only [post_bind, Attached.onFs, post_zoom]
    refine (hfs.post_seek h.fs position).mono ?_ ?_
    · rintro _ d ⟨hd, hat⟩
      exact post_fillCache hfs hwrites (h.withFs hd) hposition hat hsafe'
    · rintro e d ⟨hd, hnot⟩
      exact ⟨h.withFs hd, fun htotal => absurd htotal hnot⟩

/-- The bit of a cluster in the image. -/
def idealBit (image : ByteImage) (bitmap : ClusterBitmap) (cluster : Nat) : Option Bool :=
  (idealCache image bitmap (cluster / (bitmap.clusterSize * 8))).bind fun cache =>
    (cachedBit cache (cluster % (bitmap.clusterSize * 8))).toOption

/-- One answer over a safe cluster. -/
theorem post_isAllocated (h : Inv image D made t)
    (hsafe : Stable image total made (cluster / (made.clusterSize * 8)) ∨ t.value.cachedCluster =
      none ∨ t.value.cachedCluster = some (cluster / (made.clusterSize * 8))) :
    Post (isAllocated fs cluster) t (fun bit u => Inv image D made u ∧
        u.value.cachedCluster = some (cluster / (made.clusterSize * 8)) ∧
        cluster < made.totalClusters ∧ idealBit image made cluster = some bit)
      (fun _ u => Inv image D made u ∧
        (total → cluster < made.totalClusters → idealBit image made cluster = none)) := by
  simp only [isAllocated, post_bind, post_get, post_ite, post_throw, h.totalClusters, h.clusterSize]
  refine ⟨fun hge => ⟨h, fun _ hlt => absurd hlt (Nat.not_lt.mpr hge)⟩, fun hlt => ?_⟩
  refine (post_ensureCached hfs hwrites h hsafe).mono ?_ ?_
  · rintro _ u ⟨hu, htag, hcache⟩
    have hbit : idealBit image made cluster =
        (cachedBit u.value.cache (cluster % (made.clusterSize * 8))).toOption := by
      rw [idealBit, hcache, Option.bind_some]
    cases hcached : cachedBit u.value.cache (cluster % (made.clusterSize * 8)) with
    | error e =>
      exact ⟨hu, fun _ _ => by rw [hbit, hcached]; rfl⟩
    | ok bit =>
      exact ⟨hu, htag, Nat.not_le.mp hlt, by rw [hbit, hcached]; rfl⟩
  · rintro e u ⟨hu, hnone⟩
    exact ⟨hu, fun htotal _ => by rw [idealBit, hnone htotal]; rfl⟩

/-! ### Queries -/

/-- The clusters of the bitmap from `first` on can be filled one after another: each is stable,
    apart from the first one if it is cached or nothing is. -/
def RunSafe (image : ByteImage) (total : Prop) (made : ClusterBitmap) (tag : Option Nat)
    (first k : Nat) : Prop :=
  Stable image total made k ∨ k = first ∧ (tag = none ∨ tag = some first)

theorem inv_countRange (count : Nat) {status : ClusterRangeStatus} (ht : Inv image D made t)
    (hsafe : ∀ c, cluster ≤ c → c < cluster + count →
      RunSafe image total made t.value.cachedCluster (cluster / (made.clusterSize * 8))
      (c / (made.clusterSize * 8))) :
    Post (countRange fs count cluster status) t (fun _ u => Inv image D made u)
      (fun _ u => Inv image D made u) := by
  induction count generalizing cluster status t with
  | zero =>
    exact ht
  | succ count ih =>
    simp only [countRange, post_bind]
    have hfirst := (hsafe cluster (Nat.le_refl _) (by omega)).imp_right And.right
    refine (post_isAllocated hfs hwrites ht hfirst).mono ?_ fun _ _ hu => hu.1
    rintro bit u ⟨hu, htag, -, -⟩
    have hrest : ∀ c, cluster + 1 ≤ c → c < cluster + 1 + count →
        RunSafe image total made u.value.cachedCluster ((cluster + 1) / (made.clusterSize * 8))
          (c / (made.clusterSize * 8)) := by
      intro c hc hc'
      obtain hstable | ⟨heq, -⟩ := hsafe c (by omega) (by omega)
      · exact .inl hstable
      -- the queries go up, so that all between the two are in the cluster that is now cached
      have hle := Nat.div_le_div_right (c := made.clusterSize * 8) (Nat.le_succ cluster)
      have hge := Nat.div_le_div_right (c := made.clusterSize * 8) hc
      have hmid : (cluster + 1) / (made.clusterSize * 8) = cluster / (made.clusterSize * 8) :=
        Nat.le_antisymm (heq ▸ hge) hle
      exact .inr ⟨by rw [heq, hmid], .inr (by rw [htag, hmid])⟩
    rw [post_ite]
    exact ⟨fun _ => ih hu hrest, fun _ => ih hu hrest⟩

theorem inv_countAllocated (clusters : Nat) (rest : Nat) {allocated : Nat} (ht : Inv image D made t)
    (hsafe : ∀ j, k ≤ j → j < k + rest → RunSafe image total made t.value.cachedCluster k j) :
    Post (countAllocated fs clusters rest k allocated) t (fun _ u => Inv image D made u)
      (fun _ u => Inv image D made u) := by
  induction rest generalizing k allocated t with
  | zero =>
    exact ht
  | succ rest ih =>
    simp only [countAllocated, post_bind, post_get]
    have hfirst := (hsafe k (Nat.le_refl _) (by omega)).imp_right And.right
    refine (post_ensureCached hfs hwrites ht hfirst).mono ?_ fun _ _ hu => hu.1
    rintro _ u ⟨hu, -, -⟩
    apply ih hu
    intro j hj hj'
    obtain hstable | ⟨heq, -⟩ := hsafe j (by omega) (by omega)
    · exact .inl hstable
    · omega

/-- Where the clusters of a range end that are on the volume. -/
def rangeStop (bitmap : ClusterBitmap) (start count : Nat) : Nat :=
  min (min (start + count) (2 ^ 64 - 1)) bitmap.totalClusters

/-- How many clusters the bitmap itself has. -/
def bitmapClusters (bitmap : ClusterBitmap) : Nat :=
  (bitmap.totalClusters + bitmap.clusterSize * 8 - 1) / (bitmap.clusterSize * 8)

/-- What a query needs of the clusters of the bitmap it looks at. -/
def CallSafe (image : ByteImage) (H : σ → Prop) (made : ClusterBitmap)
    (s : Attached σ ClusterBitmap) : Query → Prop
  | .isAllocated cluster => RunSafe image (H s.fs) made s.value.cachedCluster
      (cluster / (made.clusterSize * 8)) (cluster / (made.clusterSize * 8))
  | .rangeStatus start count => ∀ c, start ≤ c → c < made.rangeStop start count →
      RunSafe image (H s.fs) made s.value.cachedCluster
        (start / (made.clusterSize * 8)) (c / (made.clusterSize * 8))
  | .freeClusters => ∀ k < made.bitmapClusters,
      RunSafe image (H s.fs) made s.value.cachedCluster 0 k

/-- A query for a cluster that succeeds returns what a bitmap that has just been loaded returns. -/
def SameAsFresh (fs : FillReader NtfsError σ) (image : ByteImage) (made : ClusterBitmap)
    (s : Attached σ ClusterBitmap) : Query → Prop
  | .isAllocated cluster => ∀ bit t, isAllocated fs cluster s = .ok bit t →
    ∃ u, isAllocated (image.fillReader .unexpectedEof) cluster ⟨0, made⟩ = .ok bit u
  | _ => True

omit hfs hwrites in
/-- A bitmap that has just been loaded returns the bit of the image. -/
theorem isAllocated_fresh {map : DataRunMap} {totalClusters clusterSize : Nat} {bit : Bool}
    (hlt : cluster < totalClusters)
    (hbit : idealBit image (load map totalClusters clusterSize) cluster = some bit) :
    ∃ u, isAllocated (image.fillReader .unexpectedEof) cluster
      ⟨0, load map totalClusters clusterSize⟩ = .ok bit u := by
  have hserves : (image.fillReader NtfsError.unexpectedEof).ServesImage image id (fun _ => True) :=
    image.reader_serves _
  have hinv : Inv image (fun _ : Nat => True) (load map totalClusters clusterSize)
      ⟨0, load map totalClusters clusterSize⟩ := inv_load trivial _ _ _
  have hpost : Post (isAllocated (image.fillReader .unexpectedEof) cluster)
      ⟨0, load map totalClusters clusterSize⟩
      (fun bit' _ => idealBit image (load map totalClusters clusterSize) cluster = some bit')
      (fun _ _ => False) := by
    apply (post_isAllocated hserves.provides
      (image.fillReader_writesInside _) hinv (.inr (.inl rfl))).mono
    · rintro bit' u ⟨-, -, -, hbit'⟩
      exact hbit'
    · rintro e u ⟨-, hnone⟩
      rw [hnone trivial hlt] at hbit
      cases hbit
  obtain ⟨bit', u, hu, hbit'⟩ := hpost.exists_ok
  rw [hbit, Option.some.injEq] at hbit'
  exact ⟨u, by rw [hu, hbit']⟩

/-- One query keeps the invariant, over the states `D` of the device. -/
theorem inv_query (h : Inv image D made s) (htotal : H s.fs → total) (query : Query)
    (hcall : CallSafe image H made s query) : Inv image D made (after fs s query) := by
  have hrun : ∀ {first k : Nat}, RunSafe image (H s.fs) made s.value.cachedCluster first k →
      RunSafe image total made s.value.cachedCluster first k := by
    rintro first k ((hhole | ⟨hH, hsome⟩) | hfirst)
    · exact .inl (.inl hhole)
    · exact .inl (.inr ⟨htotal hH, hsome⟩)
    · exact .inr hfirst
  match query with
  | .isAllocated cluster =>
    have hsafe := (hrun hcall).imp_right And.right
    exact ((post_isAllocated hfs hwrites h hsafe).mono (fun _ _ hu => hu.1)
      fun _ _ hu => hu.1).state
  | .rangeStatus start count =>
    show Inv image D made (rangeStatus fs start count s).state
    apply Post.state
    apply inv_countRange hfs hwrites _ h
    intro c hc hc'
    apply hrun
    apply hcall c hc
    rw [rangeStop, ← h.totalClusters]
    omega
  | .freeClusters =>
    show Inv image D made (freeClusters fs s).state
    apply Post.state
    simp only [freeClusters, post_bind, post_get, post_pure]
    apply inv_countAllocated hfs hwrites _ _ h
    intro k _ hk
    apply hrun
    apply hcall k
    rw [bitmapClusters, ← h.totalClusters, ← h.clusterSize]
    omega

end

/-- One query. -/
theorem sameAsFresh_step (hfs : fs.ReadsImage image pos I) (hserves : fs.ServesImage image pos H)
    (hsub : ∀ d, H d → I d) (hwrites : fs.WritesInside) {map : DataRunMap}
    {totalClusters clusterSize : Nat} (hmade : made = load map totalClusters clusterSize)
    (s : Attached σ ClusterBitmap) (query : Query) (h : Inv image I made s)
    (hcall : CallSafe image H made s query) :
    SameAsFresh fs image made s query ∧ Inv image I made (after fs s query) := by
  obtain ⟨D, hfsD, hsubD, hd⟩ := hfs.exists_provides hserves hsub h.fs
  have hinv : Inv image D made s := { h with fs := hd }
  constructor
  · match query with
    | .isAllocated cluster =>
      intro bit t hrun
      -- a success says what the bit is, whether the device is sound or not
      have hbit := ((post_isAllocated hfsD hwrites hinv
        (hcall.imp_right And.right)).of_ok hrun).2.2
      subst hmade
      exact isAllocated_fresh hbit.1 hbit.2
    | .rangeStatus _ _ => trivial
    | .freeClusters => trivial
  · have hnext := inv_query hfsD hwrites hinv (fun hH => hH) query hcall
    exact { hnext with fs := hsubD _ hnext.fs }

end Fsmnt.FsNtfs.ClusterBitmap
