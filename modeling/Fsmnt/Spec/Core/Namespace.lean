import Mathlib.Data.List.TakeWhile
import Fsmnt.ForStd.TreeMap
import Fsmnt.Spec.Core.FileTree

/-!
# The tree of a mount namespace

Routing, mounted descendants and mount children are facts about component lists. With them the
operations of a namespace describe one tree, the overlay of the attached filesystems' trees,
as long as no path above a mount point goes to a file.
-/

namespace Fsmnt.Core.MountNamespace

open List Std

variable {κ : Type} {ns : MountNamespace κ} {cs m mp rel : List Path} {n : Path}

variable {parent mountPoint exact path k : Path} {children : Std.TreeMap Path (Option Path)}
  {r mountPoints : List Path} {entries : List FsEntry}

/-- Every mount point is a canonical path other than the root. -/
def Canonical (ns : MountNamespace κ) : Prop :=
  ∀ mountPoint ∈ ns.mounts, ∃ m, m ≠ [] ∧ Components m ∧ mountPoint = pathText m

/-- A filesystem is attached at the components `m`. -/
structure Mounted (ns : MountNamespace κ) (m : List Path) : Prop where
  ne_nil : m ≠ []
  components : Components m
  mem : pathText m ∈ ns.mounts

theorem Canonical.exists_mounted (h : ns.Canonical) (hmem : mountPoint ∈ ns.mounts) :
    ∃ m, ns.Mounted m ∧ mountPoint = pathText m := by
  obtain ⟨m, hne, hcomp, rfl⟩ := h mountPoint hmem
  exact ⟨m, ⟨hne, hcomp, hmem⟩, rfl⟩

/-- The filesystem attached at `mp`; the root for the empty list. -/
def filesystemAt (ns : MountNamespace κ) (mp : List Path) : TargetFilesystem κ :=
  ns.filesystem (if mp = [] then none else some (pathText mp))

/-- A path of the components `cs` goes to `rel` in the filesystem at `mp`. -/
structure RoutesTo (ns : MountNamespace κ) (cs mp rel : List Path) : Prop where
  eq_append : cs = mp ++ rel
  mounted : mp ≠ [] → ns.Mounted mp
  longest : ∀ m, ns.Mounted m → m <+: cs → m.length ≤ mp.length

/-- A descendant is a mount whose components extend the path. -/
theorem hasMountedDescendant_pathText (h : ns.Canonical) (hc : Components cs) :
    ns.hasMountedDescendant (pathText cs) = true ↔
      ∃ m, ns.Mounted m ∧ ∃ r, r ≠ [] ∧ m = cs ++ r := by
  simp only [hasMountedDescendant, any_eq_true, Bool.or_eq_true, decide_eq_true_eq,
    pathText_eq_nil_iff hc, TreeMap.mem_keys]
  constructor
  · rintro ⟨mountPoint, hmem, hbelow⟩
    obtain ⟨m, hm, rfl⟩ := h.exists_mounted hmem
    by_cases hnil : cs = []
    · exact ⟨m, hm, m, hm.ne_nil, by rw [hnil, nil_append]⟩
    · have hbelow := hbelow.resolve_left hnil
      exact ⟨m, hm, (isBelow_pathText hm.components hc hnil).mp hbelow⟩
  · rintro ⟨m, hm, r, hr, heq⟩
    refine ⟨pathText m, hm.mem, ?_⟩
    by_cases hnil : cs = []
    · exact .inl hnil
    · exact .inr ((isBelow_pathText hm.components hc hnil).mpr ⟨r, hr, heq⟩)

/-! ## Routing -/

/-- A path is routed to one mount. -/
theorem RoutesTo.unique {mp' rel' : List Path} (h : ns.RoutesTo cs mp rel)
    (h' : ns.RoutesTo cs mp' rel') : mp = mp' ∧ rel = rel' := by
  have hle : ∀ {a b ra rb}, ns.RoutesTo cs a ra → ns.RoutesTo cs b rb → a.length ≤ b.length := by
    intro a b ra rb ha hb
    by_cases hnil : a = []
    · simp [hnil]
    · exact hb.longest a (ha.mounted hnil) ⟨ra, ha.eq_append.symm⟩
  exact append_inj (h.eq_append.symm.trans h'.eq_append) (Nat.le_antisymm (hle h h') (hle h' h))

/-- `route` on canonical paths: the longest mount point at or above the path. -/
theorem exists_routesTo (h : ns.Canonical) (hc : Components cs) : ∃ mp rel, ns.RoutesTo cs mp rel ∧
      ns.route (pathText cs) =
        { mountPoint := if mp = [] then none else some (pathText mp),
          relative := pathText rel } := by
  have hmem : ∀ m, ns.Mounted m → m <+: cs →
      pathText m ∈ ns.mounts.keys.filter (isAtOrBelow (pathText cs) ·) := by
    intro m hm hpre
    rw [mem_filter, TreeMap.mem_keys]
    exact ⟨hm.mem, (isAtOrBelow_pathText hc hm.components hm.ne_nil).mpr hpre⟩
  unfold route
  cases hmax : (ns.mounts.keys.filter (isAtOrBelow (pathText cs) ·)).argmax length with
  | none =>
    rw [argmax_eq_none] at hmax
    refine ⟨[], cs, ⟨rfl, absurd rfl, ?_⟩, rfl⟩
    intro m hm hpre
    have := hmem m hm hpre
    rw [hmax] at this
    exact absurd this not_mem_nil
  | some mountPoint =>
    have hmax' := Option.mem_def.mpr hmax
    have hin := argmax_mem hmax'
    rw [mem_filter, TreeMap.mem_keys] at hin
    obtain ⟨mp, hmp, rfl⟩ := h.exists_mounted hin.1
    obtain ⟨rel, rfl⟩ := (isAtOrBelow_pathText hc hmp.components hmp.ne_nil).mp hin.2
    have hlen : ∀ m, ns.Mounted m → m <+: mp ++ rel → m.length ≤ mp.length := by
      -- a longer list of components has a longer text
      intro m hm hpre
      by_contra hlt
      have hpre' : mp <+: m := prefix_of_prefix_length_le (prefix_append mp rel) hpre (by omega)
      obtain ⟨r, rfl⟩ := hpre'
      have hr : r ≠ [] := by
        rintro rfl
        simp at hlt
      have hle := le_of_mem_argmax (hmem _ hm hpre) hmax'
      rw [pathText_append hmp.ne_nil hr, length_append, length_cons] at hle
      omega
    refine ⟨mp, rel, ⟨rfl, fun _ => hmp, hlen⟩, ?_⟩
    dsimp only
    rw [if_neg hmp.ne_nil]
    by_cases hr : rel = []
    · rw [hr, append_nil, if_pos rfl, pathText_nil]
    have hne : pathText (mp ++ rel) ≠ pathText mp := by
      intro heq
      have := (pathText_inj hc hmp.components).mp heq
      exact hr (append_cancel_left (this.trans (append_nil mp).symm))
    rw [if_neg hne, pathText_append hmp.ne_nil hr, ← drop_drop, drop_left,
      drop_succ_cons, drop_zero]

/-- Between the mount point and the path the route stays the same. -/
theorem RoutesTo.of_prefix {r₁ r₂ : List Path} (h : ns.RoutesTo cs mp (r₁ ++ r₂)) :
    ns.RoutesTo (mp ++ r₁) mp r₁ where
  eq_append := rfl
  mounted := h.mounted
  longest := by
    intro m hm hpre
    apply h.longest m hm
    rw [h.eq_append, ← append_assoc]
    exact hpre.trans (prefix_append _ r₂)

/-- The route goes on to a child that is not a mount point. -/
theorem RoutesTo.child (h : ns.RoutesTo cs mp rel) (hn : ¬ ns.Mounted (cs ++ [n])) :
    ns.RoutesTo (cs ++ [n]) mp (rel ++ [n]) where
  eq_append := by rw [h.eq_append, append_assoc]
  mounted := h.mounted
  longest := by
    intro m hm hpre
    rcases prefix_concat_iff.mp hpre with rfl | hpre
    · exact absurd hm hn
    · exact h.longest m hm hpre

theorem routesTo_of_mounted (hm : ns.Mounted m) : ns.RoutesTo m m [] where
  eq_append := (append_nil m).symm
  mounted := fun _ => hm
  longest := fun _ _ hpre => hpre.length_le

/-! ## Mount points below a directory -/

/-- The component of a mount point right below `parent`. -/
def childName (parent mountPoint : Path) : Option Path :=
  (remainderBelow parent mountPoint).bind fun remainder =>
    let name := remainder.takeWhile (· ≠ '/')
    if name = [] then none else some name

theorem addMountChild_eq (parent : Path) (children : TreeMap Path (Option Path))
    (mountPoint : Path) : (∃ name value, childName parent mountPoint = some name ∧
      (value = none ∨ value = some mountPoint) ∧
      (addMountChild parent children mountPoint = children.insert name value ∨
        value = none ∧ addMountChild parent children mountPoint = children.insertIfNew name none)) ∨
    childName parent mountPoint = none ∧ addMountChild parent children mountPoint = children := by
  unfold addMountChild childName
  cases remainderBelow parent mountPoint with
  | none => exact .inr ⟨rfl, rfl⟩
  | some remainder =>
    simp only [Option.bind_some]
    by_cases hnil : remainder.takeWhile (· ≠ '/') = []
    · rw [if_pos hnil, if_pos hnil]
      exact .inr ⟨rfl, rfl⟩
    rw [if_neg hnil, if_neg hnil]
    split
    · exact .inl ⟨_, some mountPoint, rfl, .inr rfl, .inl rfl⟩
    · exact .inl ⟨_, none, rfl, .inl rfl, .inr ⟨rfl, rfl⟩⟩

/-- A mount adds the name of the child that it lies in or below. -/
theorem mem_addMountChild : n ∈ addMountChild parent children mountPoint ↔
      n ∈ children ∨ childName parent mountPoint = some n := by
  rcases addMountChild_eq parent children mountPoint with
    ⟨name, value, hname, -, h | ⟨-, h⟩⟩ | ⟨hname, h⟩
  · rw [h, hname, TreeMap.mem_insert, LawfulEqOrd.compare_eq_iff_eq, Option.some.injEq]
    exact or_comm
  · rw [h, hname, TreeMap.mem_insertIfNew, LawfulEqOrd.compare_eq_iff_eq, Option.some.injEq]
    exact or_comm
  · rw [h, hname]
    simp

theorem mem_foldl_addMountChild :
    n ∈ mountPoints.foldl (addMountChild parent) children ↔
      n ∈ children ∨ ∃ mountPoint ∈ mountPoints, childName parent mountPoint = some n := by
  induction mountPoints generalizing children with
  | nil => simp
  | cons mountPoint mountPoints ih =>
    rw [foldl_cons, ih, mem_addMountChild]
    simp [or_assoc]

/-- A child that is a mount itself is the mount added, or an earlier one. -/
theorem value_addMountChild
    (h : (addMountChild parent children mountPoint)[n]? = some (some exact)) :
    children[n]? = some (some exact) ∨ exact = mountPoint := by
  rcases addMountChild_eq parent children mountPoint with
    ⟨name, value, -, hvalue, heq | ⟨-, heq⟩⟩ | ⟨-, heq⟩
  · rw [heq, TreeMap.getElem?_insert] at h
    split at h
    · rcases hvalue with rfl | rfl
      · cases h
      · cases h
        exact .inr rfl
    · exact .inl h
  · rw [heq, TreeMap.getElem?_insertIfNew] at h
    split at h
    · cases h
    · exact .inl h
  · rw [heq] at h
    exact .inl h

theorem value_foldl_addMountChild
    (h : (mountPoints.foldl (addMountChild parent) children)[n]? = some (some exact)) :
    children[n]? = some (some exact) ∨ exact ∈ mountPoints := by
  induction mountPoints generalizing children with
  | nil => exact .inl h
  | cons mountPoint mountPoints ih =>
    rcases ih h with hchild | hmem
    · rcases value_addMountChild hchild with hchild | rfl
      · exact .inl hchild
      · exact .inr mem_cons_self
    · exact .inr (mem_cons_of_mem mountPoint hmem)

theorem takeWhile_pathText (hn : '/' ∉ n) : (pathText (n :: r)).takeWhile (· ≠ '/') = n := by
  have hall : ∀ c ∈ n, decide (c ≠ '/') = true := by
    intro c hc
    exact decide_eq_true fun heq => hn (heq ▸ hc)
  by_cases hr : r = []
  · rw [hr, pathText, intercalate_singleton, takeWhile_eq_self_iff]
    exact hall
  · rw [pathText, intercalate_cons_of_ne_nil hr, append_assoc, takeWhile_append_of_pos hall]
    simp

/-- The child name of a mount point below `cs`. -/
theorem childName_pathText (hc : Components cs) (hm : ns.Mounted m) :
    childName (pathText cs) (pathText m) = some n ↔ ∃ r, m = cs ++ n :: r := by
  have hremainder : ∀ r, r ≠ [] → m = cs ++ r →
      remainderBelow (pathText cs) (pathText m) = some (pathText r) := by
    rintro r hr rfl
    unfold remainderBelow
    by_cases hnil : cs = []
    · rw [hnil, pathText_nil, if_pos rfl, nil_append]
    · rw [if_neg (fun h => hnil ((pathText_eq_nil_iff hc).mp h)), pathText_append hnil hr]
      rw [isPrefixOf?_eq_some_iff_append_eq.mpr rfl]
      rfl
  have hhead : ∀ a r, m = cs ++ a :: r → childName (pathText cs) (pathText m) = some a := by
    intro a r heq
    have ha : Component a := hm.components a (by simp [heq])
    rw [childName, hremainder (a :: r) (by simp) heq, Option.bind_some]
    rw [takeWhile_pathText ha.slash, if_neg ha.ne_nil]
  constructor
  · intro h
    -- the mount point is below `cs`, since there is a remainder
    have hbelow : ∃ r, r ≠ [] ∧ m = cs ++ r := by
      by_cases hnil : cs = []
      · exact ⟨m, hm.ne_nil, by rw [hnil, nil_append]⟩
      rw [← isBelow_pathText hm.components hc hnil, isBelow]
      rw [childName, remainderBelow, if_neg (fun h => hnil ((pathText_eq_nil_iff hc).mp h))] at h
      split at h
      · rename_i heq
        rw [heq]
        rfl
      · simp at h
    obtain ⟨r, hr, heq⟩ := hbelow
    cases r with
    | nil => exact absurd rfl hr
    | cons a r =>
      have := (hhead a r heq).symm.trans h
      cases this
      exact ⟨r, heq⟩
  · rintro ⟨r, heq⟩
    exact hhead n r heq

/-- The mount children of a directory are the names above or at a mount point. -/
theorem mem_directMountChildren (h : ns.Canonical) (hc : Components cs) :
    n ∈ ns.directMountChildren (pathText cs) ↔ ∃ r, ns.Mounted (cs ++ n :: r) := by
  rw [directMountChildren, mem_foldl_addMountChild]
  constructor
  · rintro (hmem | ⟨mountPoint, hmem, hname⟩)
    · exact absurd hmem TreeMap.not_mem_emptyc
    · obtain ⟨m, hm, rfl⟩ := h.exists_mounted (TreeMap.mem_keys.mp hmem)
      obtain ⟨r, rfl⟩ := (childName_pathText hc hm).mp hname
      exact ⟨r, hm⟩
  · rintro ⟨r, hm⟩
    exact .inr ⟨_, TreeMap.mem_keys.mpr hm.mem, (childName_pathText hc hm).mpr ⟨r, rfl⟩⟩

theorem mem_mounts_of_directMountChildren
    (h : (ns.directMountChildren parent)[n]? = some (some exact)) : exact ∈ ns.mounts := by
  rcases value_foldl_addMountChild h with hempty | hmem
  · simp at hempty
  · exact TreeMap.mem_keys.mp hmem

/-! ## Listings -/

/-- Every attached filesystem has a directory as its root. -/
def RootsAreDirectories (ns : MountNamespace κ) : Prop :=
  ∀ mountPoint ∈ ns.mounts,
    ∃ m, (ns.filesystem (some mountPoint)).metadata [] = .ok m ∧ m.isDir = true

/-- Of several entries with one name the last is kept. -/
theorem getElem?_entriesByName : (entriesByName path entries)[k]? =
      (entries.filter (fun entry => entry.name = k)).getLast?.map
        (fun entry => { entry with path := entryPath path entry.name }) := by
  rw [entriesByName, TreeMap.getElem?_foldl_insert]
  cases (entries.filter (fun entry => decide (entry.name = k))).getLast? with
  | none => simp
  | some entry => rfl

theorem of_getElem?_entriesByName {entry : FsEntry}
    (h : (entriesByName path entries)[k]? = some entry) :
    entry.name = k ∧ ∃ original ∈ entries, original.name = k ∧
      original.metadata = entry.metadata := by
  rw [getElem?_entriesByName, Option.map_eq_some_iff] at h
  obtain ⟨original, hlast, rfl⟩ := h
  have hmem := mem_of_getLast? hlast
  rw [mem_filter, decide_eq_true_eq] at hmem
  exact ⟨hmem.2, original, hmem.1, hmem.2, rfl⟩

theorem mem_entriesByName :
    (∃ entry, (entriesByName path entries)[k]? = some entry) ↔ k ∈ entries.map FsEntry.name := by
  constructor
  · rintro ⟨entry, h⟩
    obtain ⟨-, original, hmem, rfl, -⟩ := of_getElem?_entriesByName h
    exact mem_map_of_mem hmem
  · intro h
    obtain ⟨entry, hmem, rfl⟩ := mem_map.mp h
    have hne : entries.filter (fun e => e.name = entry.name) ≠ [] :=
      ne_nil_of_mem (mem_filter.mpr ⟨hmem, decide_eq_true rfl⟩)
    rw [getElem?_entriesByName, getLast?_eq_some_getLast hne]
    exact ⟨_, rfl⟩

theorem exists_mountedChildEntry (hroots : ns.RootsAreDirectories) (parent name : Path)
    {exactMount : Option Path}
    (hmount : ∀ mountPoint, exactMount = some mountPoint → mountPoint ∈ ns.mounts) :
    ∃ entry, ns.mountedChildEntry parent name exactMount = .ok entry ∧ entry.name = name ∧
      entry.metadata.isDir = true := by
  cases exactMount with
  | none => exact ⟨_, rfl, rfl, rfl⟩
  | some mountPoint =>
    obtain ⟨m, hm, hdir⟩ := hroots mountPoint (hmount mountPoint rfl)
    refine ⟨{ name, path := entryPath parent name, flags := 0, fileId := none, metadata := m },
      ?_, rfl, hdir⟩
    simp only [mountedChildEntry, hm]
    rfl

/-- Adding the mount children to a listing: each replaces what was listed under its name. -/
theorem exists_foldlM_mountChildren (hroots : ns.RootsAreDirectories) (path : Path)
    (children : List (Path × Option Path))
    (hmount : ∀ child ∈ children, ∀ mountPoint, child.2 = some mountPoint → mountPoint ∈ ns.mounts)
    (byName : TreeMap Path FsEntry) : ∃ merged : TreeMap Path FsEntry,
      children.foldlM (fun byName (name, exactMount) => do
        let entry ← ns.mountedChildEntry path name exactMount
        pure (byName.insert name entry)) byName = Except.ok merged ∧
      ∀ k, (k ∈ children.map Prod.fst →
          ∃ entry, merged[k]? = some entry ∧ entry.name = k ∧ entry.metadata.isDir = true) ∧
        (k ∉ children.map Prod.fst → merged[k]? = byName[k]?) := by
  induction children generalizing byName with
  | nil => exact ⟨byName, rfl, fun k => ⟨fun h => absurd h (by simp), fun _ => rfl⟩⟩
  | cons child children ih =>
    obtain ⟨name, exactMount⟩ := child
    obtain ⟨entry, hentry, hname, hdir⟩ := exists_mountedChildEntry hroots path name
      (hmount _ mem_cons_self)
    obtain ⟨merged, hmerged, hk⟩ := ih (fun c hc => hmount c (mem_cons_of_mem _ hc))
      (byName.insert name entry)
    refine ⟨merged, ?_, ?_⟩
    · rw [foldlM_cons]
      simp only [hentry]
      exact hmerged
    · intro k
      by_cases hmem : k ∈ children.map Prod.fst
      · exact ⟨fun _ => (hk k).1 hmem, fun h => absurd (mem_cons_of_mem name hmem) h⟩
      have hrest := (hk k).2 hmem
      rw [TreeMap.getElem?_insert] at hrest
      constructor
      · intro h
        rcases mem_cons.mp h with rfl | h
        · rw [if_pos ReflOrd.compare_self] at hrest
          exact ⟨entry, hrest, hname, hdir⟩
        · exact absurd h hmem
      · intro h
        have hne : compare name k ≠ .eq := by
          rw [ne_eq, LawfulEqOrd.compare_eq_iff_eq]
          rintro rfl
          exact h mem_cons_self
        rw [if_neg hne] at hrest
        exact hrest

/-- What `merge_directory_entries` lists: the mount children, as directories, and the entries of
    the filesystem under other names. -/
structure Merged (ns : MountNamespace κ) (path : Path) (entries merged : List FsEntry) : Prop where
  mem_iff : ∀ n, n ∈ merged.map FsEntry.name ↔
    n ∈ ns.directMountChildren path ∨ n ∈ entries.map FsEntry.name
  mounted : ∀ entry ∈ merged, entry.name ∈ ns.directMountChildren path → entry.metadata.isDir = true
  backing : ∀ entry ∈ merged, entry.name ∉ ns.directMountChildren path →
    ∃ original ∈ entries, original.name = entry.name ∧ original.metadata = entry.metadata

/-- Merging succeeds where the roots of the mounts are directories. -/
theorem exists_merged (hroots : ns.RootsAreDirectories) (path : Path) (entries : List FsEntry) :
    ∃ merged, ns.mergeDirectoryEntries path entries = .ok merged ∧
      ns.Merged path entries merged := by
  have hmount : ∀ child ∈ (ns.directMountChildren path).toList, ∀ mountPoint,
      child.2 = some mountPoint → mountPoint ∈ ns.mounts := by
    rintro ⟨name, exactMount⟩ hchild mountPoint rfl
    exact mem_mounts_of_directMountChildren (TreeMap.mem_toList_iff_getElem?_eq_some.mp hchild)
  obtain ⟨byName, hfold, hk⟩ := exists_foldlM_mountChildren hroots path _ hmount
    (entriesByName path entries)
  simp only [TreeMap.map_fst_toList_eq_keys, TreeMap.mem_keys] at hk
  have hmem : ∀ entry, entry ∈ byName.values ↔ ∃ k : Path, byName[k]? = some entry := by
    rw [TreeMap.values_eq_map_snd]
    simp [TreeMap.mem_toList_iff_getElem?_eq_some]
  -- every entry is listed under its own name
  have hname : ∀ (k : Path) (entry : FsEntry), byName[k]? = some entry → entry.name = k := by
    intro k entry h
    by_cases hchild : k ∈ ns.directMountChildren path
    · obtain ⟨entry', h', hname, -⟩ := (hk k).1 hchild
      rw [h] at h'
      cases h'
      exact hname
    · rw [(hk k).2 hchild] at h
      exact (of_getElem?_entriesByName h).1
  refine ⟨byName.values, ?_, ⟨?_, ?_, ?_⟩⟩
  · rw [mergeDirectoryEntries, hfold]
    rfl
  · intro n
    rw [mem_map]
    constructor
    · rintro ⟨entry, hentry, rfl⟩
      obtain ⟨k, hlookup⟩ := (hmem entry).mp hentry
      rw [hname k entry hlookup]
      by_cases hchild : k ∈ ns.directMountChildren path
      · exact .inl hchild
      · rw [(hk k).2 hchild] at hlookup
        exact .inr (mem_entriesByName.mp ⟨entry, hlookup⟩)
    · intro h
      have hlookup : ∃ entry, byName[n]? = some entry := by
        by_cases hchild : n ∈ ns.directMountChildren path
        · obtain ⟨entry, hentry, -⟩ := (hk n).1 hchild
          exact ⟨entry, hentry⟩
        · rw [(hk n).2 hchild]
          exact mem_entriesByName.mpr (h.resolve_left hchild)
      obtain ⟨entry, hentry⟩ := hlookup
      exact ⟨entry, (hmem entry).mpr ⟨n, hentry⟩, hname n entry hentry⟩
  · intro entry hentry hchild
    obtain ⟨k, hlookup⟩ := (hmem entry).mp hentry
    rw [hname k entry hlookup] at hchild
    obtain ⟨entry', h', -, hdir⟩ := (hk k).1 hchild
    rw [hlookup] at h'
    cases h'
    exact hdir
  · intro entry hentry hchild
    obtain ⟨k, hlookup⟩ := (hmem entry).mp hentry
    rw [hname k entry hlookup] at hchild ⊢
    rw [(hk k).2 hchild] at hlookup
    exact (of_getElem?_entriesByName hlookup).2

/-! ## The overlay tree -/

theorem routesTo_nil : ns.RoutesTo [] [] [] :=
  ⟨rfl, absurd rfl, fun _ hm hpre => absurd (prefix_nil.mp hpre) hm.ne_nil⟩

/-- Every path is routed. -/
theorem RoutesTo.exists (ns : MountNamespace κ) (cs : List Path) :
    ∃ mp rel, ns.RoutesTo cs mp rel := by
  induction cs using reverseRecOn with
  | nil => exact ⟨[], [], routesTo_nil⟩
  | append_singleton cs n ih =>
    obtain ⟨mp, rel, h⟩ := ih
    by_cases hm : ns.Mounted (cs ++ [n])
    · exact ⟨_, _, routesTo_of_mounted hm⟩
    · exact ⟨mp, rel ++ [n], h.child hm⟩

/-- A filesystem is attached strictly below `cs`. -/
def Above (ns : MountNamespace κ) (cs : List Path) : Prop :=
  ∃ m, ns.Mounted m ∧ ∃ r, r ≠ [] ∧ m = cs ++ r

theorem Above.of_append (h : ns.Above (cs ++ r)) : ns.Above cs := by
  obtain ⟨m, hm, s, hs, rfl⟩ := h
  exact ⟨_, hm, r ++ s, by simp [hs], append_assoc cs r s⟩

open Classical in
/-- The overlay of the trees at the mount points: a directory above each of them, and elsewhere
    the tree the path goes to. -/
noncomputable def overlayKind (ns : MountNamespace κ) (treeAt : List Path → FileTree)
    (cs : List Path) : Option NodeKind :=
  if ns.Above cs then some .directory
  else (treeAt (RoutesTo.exists ns cs).choose).kind (RoutesTo.exists ns cs).choose_spec.choose

variable {treeAt : List Path → FileTree}

theorem overlayKind_of_above (h : ns.Above cs) : ns.overlayKind treeAt cs = some .directory :=
  if_pos h

theorem overlayKind_of_routesTo (h : ¬ ns.Above cs) (hroute : ns.RoutesTo cs mp rel) :
    ns.overlayKind treeAt cs = (treeAt mp).kind rel := by
  rw [overlayKind, if_neg h]
  have hchosen := (RoutesTo.exists ns cs).choose_spec.choose_spec
  obtain ⟨hmp, hrel⟩ := hchosen.unique hroute
  rw [hrel, hmp]

/-- At or above a mount point there is a directory. -/
theorem overlayKind_of_mounted_below (hm : ns.Mounted (cs ++ r)) :
    ns.overlayKind treeAt cs = some .directory := by
  by_cases hr : r = []
  · rw [hr, append_nil] at hm
    by_cases habove : ns.Above cs
    · exact overlayKind_of_above habove
    · rw [overlayKind_of_routesTo habove (routesTo_of_mounted hm), (treeAt cs).root]
  · exact overlayKind_of_above ⟨_, hm, r, hr, rfl⟩

/-- Away from the mount points a child is what the routed tree has. -/
theorem overlayKind_child (hroute : ns.RoutesTo cs mp rel) (hm : ¬ ∃ r, ns.Mounted (cs ++ n :: r)) :
    ns.overlayKind treeAt (cs ++ [n]) = (treeAt mp).kind (rel ++ [n]) := by
  have hself : ¬ ns.Mounted (cs ++ [n]) := fun h => hm ⟨[], h⟩
  have habove : ¬ ns.Above (cs ++ [n]) := by
    rintro ⟨m, hmount, r, -, rfl⟩
    rw [append_assoc] at hmount
    exact hm ⟨r, hmount⟩
  exact overlayKind_of_routesTo habove (hroute.child hself)

/-- The tree of the namespace. -/
noncomputable def overlay (ns : MountNamespace κ) (treeAt : List Path → FileTree) : FileTree where
  kind := ns.overlayKind treeAt
  root := by
    by_cases h : ns.Above []
    · exact overlayKind_of_above h
    · rw [overlayKind_of_routesTo h routesTo_nil, (treeAt []).root]
  parent := by
    intro cs n hkind
    by_cases hm : ∃ r, ns.Mounted (cs ++ n :: r)
    · obtain ⟨r, hm⟩ := hm
      exact overlayKind_of_mounted_below hm
    obtain ⟨mp, rel, hroute⟩ := RoutesTo.exists ns cs
    rw [overlayKind_child hroute hm] at hkind
    by_cases habove : ns.Above cs
    · exact overlayKind_of_above habove
    · rw [overlayKind_of_routesTo habove hroute]
      exact (treeAt mp).parent hkind

end Fsmnt.Core.MountNamespace
