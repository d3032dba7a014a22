import Fsmnt.Spec.Core.Namespace

/-!
# The operations of a mount namespace describe one tree

Each operation decides on its own between the filesystem a path goes to and a directory that
only exists because something is mounted below. The decisions agree exactly when no path above
a mount point goes to a file; then the namespace describes the overlay tree. An `attach` over
existing mounts, or a `detach` above them, can put a file there.
-/

namespace Fsmnt.Core.MountNamespace

open Except List Std TreeMap MountNamespace

variable {κ : Type} {ns : MountNamespace κ} {cs mp rel : List Path} {n path : Path}

variable {entries merged : List FsEntry} {tree : FileTree} {e : FsError} {mountPoint : Path}
  {ns' : MountNamespace κ} {treeAt : List Path → FileTree} {calls : List (MountCall κ)}
  {nodes : Nodes} {fs : TargetFilesystem κ} {m : FsMetadata}

/-- No path above a mount point goes to a file. -/
def NoFileAboveMounts (ns : MountNamespace κ) : Prop :=
  ∀ cs, PlainNames cs → (∃ mountPoint ∈ ns.mounts, isBelow mountPoint (pathText cs) = true) →
    (ns.filesystem (ns.route (pathText cs)).mountPoint).tryIsFile
      (ns.route (pathText cs)).relative ≠
      .ok true

/-- The filesystem at each mount point describes the tree there. -/
def Described (ns : MountNamespace κ) (treeAt : List Path → FileTree) : Prop :=
  ∀ mp, (mp ≠ [] → ns.Mounted mp) → Describes (ns.filesystemAt mp) (treeAt mp)

/-! ## Operations on canonical paths -/

/-- Operations see the canonical path only. -/
theorem congr_of_canonicalPath (ns : MountNamespace κ) {a b : Path}
    (h : canonicalPath a = canonicalPath b) :
    ns.openPath a = ns.openPath b ∧ ns.tryExists a = ns.tryExists b ∧
    ns.tryIsDir a = ns.tryIsDir b ∧ ns.tryIsFile a = ns.tryIsFile b ∧
    ns.metadata a = ns.metadata b ∧ ns.readDir a = ns.readDir b ∧ ns.read a = ns.read b := by
  simp only [openPath, tryExists, tryIsDir, tryIsFile, metadata, readDir, read, h, and_self]

/-- The route that the namespace takes. -/
theorem RoutesTo.route_eq (hroute : ns.RoutesTo cs mp rel) (hcan : ns.Canonical)
    (hc : Components cs) : ns.route (pathText cs) =
      { mountPoint := if mp = [] then none else some (pathText mp), relative := pathText rel } := by
  obtain ⟨mp', rel', hroute', heq⟩ := exists_routesTo hcan hc
  obtain ⟨rfl, rfl⟩ := hroute.unique hroute'
  exact heq

theorem rootsAreDirectories (hcan : ns.Canonical) (hdesc : ns.Described treeAt) :
    ns.RootsAreDirectories := by
  intro mountPoint hmem
  obtain ⟨m, hm, rfl⟩ := hcan.exists_mounted hmem
  have hroot := (hdesc m (fun _ => hm) [] (by simp [PlainNames])).metadata.mpr (treeAt m).root
  rw [filesystemAt, if_neg hm.ne_nil] at hroot
  exact hroot

theorem openedDirectoryEntries_backing {mountPoint : Option Path} {inner inner' : OpenedDirectory κ}
    (hentries : (ns.filesystem mountPoint).openedDirectoryEntries inner = .ok (entries, inner'))
    (hmerge : ns.mergeDirectoryEntries path entries = .ok merged) :
    ∃ d', ns.toTargetFilesystem.openedDirectoryEntries
      (.new path m (.directory (.backing mountPoint inner))) = .ok (merged, d') := by
  rw [TargetFilesystem.openedDirectoryEntries]
  simp only [OpenedDirectory.new, toTargetFilesystem, loadOpenDirectory, hentries, ok_bind, hmerge]
  exact ⟨_, rfl⟩

theorem openedDirectoryEntries_synthetic (hmerge : ns.mergeDirectoryEntries path [] = .ok merged) :
    ∃ d', ns.toTargetFilesystem.openedDirectoryEntries
      (.new path m (.directory .synthetic)) = .ok (merged, d') := by
  rw [TargetFilesystem.openedDirectoryEntries]
  simp only [OpenedDirectory.new, toTargetFilesystem, loadOpenDirectory, hmerge]
  exact ⟨_, rfl⟩

theorem lists_nil_of_none (hnone : (treeAt mp).kind rel = none) : (treeAt mp).Lists rel [] where
  mem_iff := by
    intro n _
    simp only [map_nil, not_mem_nil, false_iff, not_not]
    by_contra hchild
    rw [(treeAt mp).parent hchild] at hnone
    cases hnone
  isDir_iff := fun entry hentry => absurd hentry not_mem_nil

theorem DescribesAt.openPath_error (h : DescribesAt fs tree cs) (hnone : tree.kind cs = none) :
    ∃ e, fs.openPath (pathText cs) = .error e := by
  cases hopen : fs.openPath (pathText cs) with
  | error e => exact ⟨e, rfl⟩
  | ok target =>
    cases target with
    | file f =>
      cases hnone.symm.trans (h.openFile.mp ⟨f, hopen⟩)
    | directory d =>
      cases hnone.symm.trans (h.openDirectory.mp ⟨d, hopen⟩)

theorem DescribesAt.readDir_error (h : DescribesAt fs tree cs)
    (hkind : tree.kind cs ≠ some .directory) : ∃ e, fs.readDir (pathText cs) = .error e := by
  cases hread : fs.readDir (pathText cs) with
  | error e => exact ⟨e, rfl⟩
  | ok entries => exact absurd (h.readDir.mp ⟨entries, hread⟩) hkind

/-- A plain path in a namespace whose filesystems describe trees, and where it goes. -/
structure Routed (ns : MountNamespace κ) (treeAt : List Path → FileTree) (cs mp rel : List Path) :
    Prop where
  canonical : ns.Canonical
  described : ns.Described treeAt
  plain : PlainNames cs
  route : ns.RoutesTo cs mp rel

section Routed

variable (hr : ns.Routed treeAt cs mp rel)

include hr

theorem Routed.describesAt : DescribesAt (ns.filesystemAt mp) (treeAt mp) rel := by
  apply hr.described mp hr.route.mounted
  have hcs := hr.plain
  rw [hr.route.eq_append] at hcs
  exact fun n hn => hcs n (mem_append_right mp hn)

/-- A path between the mount point and the path goes there as well. -/
theorem Routed.of_append {ds r : List Path} (hrel : rel = ds ++ r) :
    ns.Routed treeAt (mp ++ ds) mp ds := by
  subst hrel
  have hcs := hr.plain
  rw [hr.route.eq_append, ← append_assoc] at hcs
  exact ⟨hr.canonical, hr.described, fun n hn => hcs n (mem_append_left r hn), hr.route.of_prefix⟩

theorem Routed.mem_children : n ∈ ns.directMountChildren (pathText cs) ↔
    ∃ r, ns.Mounted (cs ++ n :: r) :=
  mem_directMountChildren hr.canonical hr.plain.components

/-- A path above a mount point is served by the filesystem only at the root of one. -/
theorem Routed.overDescendant_iff :
    ns.overDescendant (pathText cs) = true ↔ ns.Above cs ∧ ¬ (mp ≠ [] ∧ rel = []) := by
  have hc := hr.plain.components
  rw [overDescendant, Bool.and_eq_true, decide_eq_true_eq,
    hasMountedDescendant_pathText hr.canonical hc, hr.route.route_eq hr.canonical hc]
  refine and_congr_right fun _ => not_congr ?_
  by_cases hnil : mp = []
  · simp [hnil]
  · have hmp : Components mp := (hr.route.mounted hnil).components
    rw [if_neg hnil, Option.some.injEq, pathText_inj hmp hc, hr.route.eq_append]
    simp [hnil]

/-- Where the operations look the path up. -/
theorem Routed.lookup : canonicalPath (pathText cs) = .ok (pathText cs) ∧
    ns.filesystem (ns.route (pathText cs)).mountPoint = ns.filesystemAt mp ∧
    (ns.route (pathText cs)).relative = pathText rel := by
  rw [hr.route.route_eq hr.canonical hr.plain.components]
  exact ⟨hr.plain.canonicalPath_pathText, rfl, rfl⟩

/-- The checks above a mount point. -/
theorem checks_of_above (h : ns.Above cs) :
    ns.tryExists (pathText cs) = .ok true ∧ ns.tryIsDir (pathText cs) = .ok true ∧
    ns.tryIsFile (pathText cs) = .ok false := by
  have hdesc : ns.hasMountedDescendant (pathText cs) = true :=
    (hasMountedDescendant_pathText hr.canonical hr.plain.components).mpr h
  simp [tryExists, tryIsDir, tryIsFile, hr.lookup, hdesc]

/-- The checks elsewhere are those of the filesystem the path goes to. -/
theorem checks_of_not_above (h : ¬ ns.Above cs) :
    ns.tryExists (pathText cs) = (ns.filesystemAt mp).tryExists (pathText rel) ∧
    ns.tryIsDir (pathText cs) = (ns.filesystemAt mp).tryIsDir (pathText rel) ∧
    ns.tryIsFile (pathText cs) = (ns.filesystemAt mp).tryIsFile (pathText rel) := by
  have hno : ns.hasMountedDescendant (pathText cs) = false :=
    Bool.eq_false_iff.mpr (mt (hasMountedDescendant_pathText hr.canonical hr.plain.components).mp h)
  simp [tryExists, tryIsDir, tryIsFile, hr.lookup, hno]

theorem metadata_read_of_not_over (h : ns.overDescendant (pathText cs) = false) :
    ns.metadata (pathText cs) = (ns.filesystemAt mp).metadata (pathText rel) ∧
    ns.read (pathText cs) = (ns.filesystemAt mp).read (pathText rel) := by
  simp [metadata, read, hr.lookup, h]

theorem openPath_of_error (h : (ns.filesystemAt mp).openPath (pathText rel) = .error e)
    (hover : ns.overDescendant (pathText cs) = false) : ns.openPath (pathText cs) = .error e := by
  cases e <;> simp [openPath, hr.lookup, h, hover]

theorem isEmpty_directMountChildren :
    (ns.directMountChildren (pathText cs)).isEmpty = true ↔ ¬ ns.Above cs := by
  rw [isEmpty_iff_forall_not_mem]
  constructor
  · rintro h ⟨m, hm, r, hne, rfl⟩
    cases r with
    | nil => exact hne rfl
    | cons n r => exact h n (hr.mem_children.mpr ⟨r, hm⟩)
  · intro h n hn
    obtain ⟨r, hm⟩ := hr.mem_children.mp hn
    exact h ⟨_, hm, n :: r, cons_ne_nil n r, rfl⟩

theorem readDir_of_notFound {missing : Path}
    (h : (ns.filesystemAt mp).readDir (pathText rel) = .error (.notFound missing))
    (habove : ns.Above cs) :
    ns.readDir (pathText cs) = ns.mergeDirectoryEntries (pathText cs) [] := by
  have hne : (ns.directMountChildren (pathText cs)).isEmpty = false :=
    Bool.eq_false_iff.mpr fun he => (isEmpty_directMountChildren hr).mp he habove
  simp [readDir, hr.lookup, h, hne]

theorem readDir_of_error (h : (ns.filesystemAt mp).readDir (pathText rel) = .error e)
    (habove : ¬ ns.Above cs) : ns.readDir (pathText cs) = .error e := by
  have he : (ns.directMountChildren (pathText cs)).isEmpty = true :=
    (isEmpty_directMountChildren hr).mpr habove
  cases e <;> simp [readDir, hr.lookup, h, he]

/-- The merged listing is the listing of the overlay. -/
theorem lists_of_merged (hlists : (treeAt mp).Lists rel entries)
    (hmerged : ns.Merged (pathText cs) entries merged) : (ns.overlay treeAt).Lists cs merged where
  mem_iff := by
    intro n hn
    show _ ↔ ns.overlayKind treeAt (cs ++ [n]) ≠ none
    rw [hmerged.mem_iff, hr.mem_children]
    by_cases hm : ∃ r, ns.Mounted (cs ++ n :: r)
    · obtain ⟨r, hm'⟩ := hm
      rw [← singleton_append, ← append_assoc] at hm'
      rw [overlayKind_of_mounted_below hm']
      simpa using .inl ⟨r, by simpa using hm'⟩
    · rw [overlayKind_child hr.route hm, hlists.mem_iff n hn]
      simp [hm]
  isDir_iff := by
    intro entry hentry hname
    show _ ↔ ns.overlayKind treeAt (cs ++ [entry.name]) = some .directory
    by_cases hm : ∃ r, ns.Mounted (cs ++ entry.name :: r)
    · have hdir := hmerged.mounted entry hentry (hr.mem_children.mpr hm)
      obtain ⟨r, hm'⟩ := hm
      rw [← singleton_append, ← append_assoc] at hm'
      rw [overlayKind_of_mounted_below hm', hdir]
      simp
    · obtain ⟨original, hmem, hsame, hmeta⟩ := hmerged.backing entry hentry
        (mt hr.mem_children.mp hm)
      rw [overlayKind_child hr.route hm, ← hmeta, ← hsame]
      exact hlists.isDir_iff original hmem (hsame ▸ hname)

/-! ## Directories above a mount point -/

/-- No file lies above a mount. -/
theorem kind_ne_file_of_above (hfile : ns.NoFileAboveMounts) (habove : ns.Above cs) :
    (treeAt mp).kind rel ≠ some .file := by
  obtain ⟨-, hfs, hrel⟩ := hr.lookup
  by_cases hnil : cs = []
  · -- the root of the namespace is the root of a tree
    have heq := hr.route.eq_append
    rw [hnil, eq_comm, append_eq_nil_iff] at heq
    rw [heq.2, (treeAt mp).root]
    simp
  · obtain ⟨m, hm, hbelow⟩ := habove
    have hno := hfile cs hr.plain
      ⟨pathText m, hm.mem, (isBelow_pathText hm.components hr.plain.components hnil).mpr hbelow⟩
    rw [hfs, hrel, ne_eq, (hr.describesAt).tryIsFile] at hno
    exact hno

/-- Above a mount point, what the routed filesystem does not have it reports as not found. -/
theorem notFound_of_above (hfile : ns.NoFileAboveMounts) (habove : ns.Above cs)
    (hnone : (treeAt mp).kind rel = none) :
    (∃ missing, (ns.filesystemAt mp).openPath (pathText rel) = .error (.notFound missing)) ∧
    ∃ missing, (ns.filesystemAt mp).readDir (pathText rel) = .error (.notFound missing) := by
  apply (hr.describesAt).absent hnone
  rintro ds r rfl
  rw [hr.route.eq_append, ← append_assoc] at habove
  exact kind_ne_file_of_above (hr.of_append rfl) hfile habove.of_append

theorem overDescendant_of_none (habove : ns.Above cs) (hnone : (treeAt mp).kind rel = none) :
    ns.overDescendant (pathText cs) = true := by
  apply hr.overDescendant_iff.mpr ⟨habove, ?_⟩
  rintro ⟨-, rfl⟩
  rw [(treeAt mp).root] at hnone
  cases hnone

theorem overDescendant_of_not_above (h : ¬ ns.Above cs) : ns.overDescendant (pathText cs) = false :=
  Bool.eq_false_iff.mpr fun hover => h (hr.overDescendant_iff.mp hover).1

/-- A directory of the overlay is one of the routed tree, or is absent there and above a mount. -/
theorem kind_of_overlay_directory (hfile : ns.NoFileAboveMounts)
    (h : ns.overlayKind treeAt cs = some .directory) :
    (treeAt mp).kind rel = some .directory ∨ (treeAt mp).kind rel = none ∧ ns.Above cs := by
  by_cases habove : ns.Above cs
  · have hne := kind_ne_file_of_above hr hfile habove
    cases hkind : (treeAt mp).kind rel with
    | none => exact .inr ⟨rfl, habove⟩
    | some kind =>
      cases kind with
      | file => exact absurd hkind hne
      | directory => exact .inl rfl
  · rw [overlayKind_of_routesTo habove hr.route] at h
    exact .inl h

/-- Anything else in the overlay is what the routed tree has. -/
theorem kind_of_overlay_ne_directory (h : ns.overlayKind treeAt cs ≠ some .directory) :
    ¬ ns.Above cs ∧ ns.overlayKind treeAt cs = (treeAt mp).kind rel := by
  have habove : ¬ ns.Above cs := fun habove => h (overlayKind_of_above habove)
  exact ⟨habove, overlayKind_of_routesTo habove hr.route⟩

/-! ## Opening and listing -/

/-- Opened or listed by its path, a directory of the overlay has the entries of the overlay. -/
theorem exists_directory (hfile : ns.NoFileAboveMounts)
    (h : ns.overlayKind treeAt cs = some .directory) :
    (∃ d, ns.openPath (pathText cs) = .ok (.directory d) ∧
      ∃ entries d', ns.toTargetFilesystem.openedDirectoryEntries d = .ok (entries, d') ∧
        (ns.overlay treeAt).Lists cs entries) ∧
    ∃ entries, ns.readDir (pathText cs) = .ok entries ∧ (ns.overlay treeAt).Lists cs entries := by
  have hdescribes := hr.describesAt
  have hmerges := exists_merged (rootsAreDirectories hr.canonical hr.described) (pathText cs)
  rcases kind_of_overlay_directory hr hfile h with hkind | ⟨hkind, habove⟩
  · obtain ⟨d, hd⟩ := hdescribes.openDirectory.mpr hkind
    obtain ⟨opened, inner, hopened, hlists⟩ := hdescribes.openedEntries d hd
    obtain ⟨merged, hmerge, hmerged⟩ := hmerges opened
    obtain ⟨d', hd'⟩ := openedDirectoryEntries_backing (hr.lookup.2.1.symm ▸ hopened) hmerge
    obtain ⟨entries, hentries⟩ := hdescribes.readDir.mpr hkind
    obtain ⟨merged', hmerge', hmerged'⟩ := hmerges entries
    exact ⟨⟨.new (pathText cs) d.metadata (.directory
      (.backing (ns.route (pathText cs)).mountPoint d)),
      by simp [openPath, hr.lookup, hd], merged, d', hd', lists_of_merged hr hlists hmerged⟩,
      merged', by simp [readDir, hr.lookup, hentries, hmerge'],
      lists_of_merged hr (hdescribes.readDirLists entries hentries) hmerged'⟩
  · obtain ⟨⟨missing, hopen⟩, missing', hread⟩ := notFound_of_above hr hfile habove hkind
    obtain ⟨merged, hmerge, hmerged⟩ := hmerges []
    obtain ⟨d', hd'⟩ := openedDirectoryEntries_synthetic hmerge
    have hlists := lists_of_merged hr (lists_nil_of_none hkind) hmerged
    have hover := overDescendant_of_none hr habove hkind
    exact ⟨⟨.new (pathText cs) directoryMetadata (.directory .synthetic),
      by simp [openPath, hr.lookup, hopen, hover], merged, d', hd', hlists⟩, merged,
        (readDir_of_notFound hr hread habove).trans hmerge, hlists⟩

/-- What `open` does where the overlay has no directory. -/
theorem openPath_of_not_directory (h : ns.overlayKind treeAt cs ≠ some .directory) :
    (ns.overlayKind treeAt cs = some .file ∧ ∃ f, ns.openPath (pathText cs) = .ok (.file f)) ∨
    (ns.overlayKind treeAt cs = none ∧ ∃ e, ns.openPath (pathText cs) = .error e ∧
      (ns.filesystemAt mp).openPath (pathText rel) = .error e) := by
  have hdescribes := hr.describesAt
  obtain ⟨habove, hkind⟩ := kind_of_overlay_ne_directory hr h
  rw [hkind] at h ⊢
  cases hrel : (treeAt mp).kind rel with
  | none =>
    obtain ⟨e, he⟩ := DescribesAt.openPath_error hdescribes hrel
    exact .inr ⟨rfl, e, openPath_of_error hr he (overDescendant_of_not_above hr habove), he⟩
  | some kind =>
    cases kind with
    | directory => exact absurd hrel h
    | file =>
      obtain ⟨f, hf⟩ := hdescribes.openFile.mpr hrel
      exact .inl ⟨rfl, by simp [openPath, hr.lookup, hf]⟩

/-- `metadata` sees the overlay, -/
theorem metadata_iff : (∃ m, ns.metadata (pathText cs) = .ok m ∧ m.isDir = true) ↔
      ns.overlayKind treeAt cs = some .directory := by
  have hdescribes := hr.describesAt
  by_cases habove : ns.Above cs
  · rw [overlayKind_of_above habove]
    simp only [iff_true]
    cases hover : ns.overDescendant (pathText cs) with
    | true => exact ⟨directoryMetadata, by simp [metadata, hr.lookup, hover], rfl⟩
    | false =>
      -- the path is a mount point itself
      rw [(metadata_read_of_not_over hr hover).1, hdescribes.metadata]
      have hroot : mp ≠ [] ∧ rel = [] := by
        by_contra hnot
        cases hover.symm.trans (hr.overDescendant_iff.mpr ⟨habove, hnot⟩)
      rw [hroot.2, (treeAt mp).root]
  · have hover := overDescendant_of_not_above hr habove
    rw [(metadata_read_of_not_over hr hover).1, hdescribes.metadata,
      overlayKind_of_routesTo habove hr.route]

section

variable (hfile : ns.NoFileAboveMounts)

include hfile

/-- and so does `read`. -/
theorem read_iff :
    (∃ bytes, ns.read (pathText cs) = .ok bytes) ↔ ns.overlayKind treeAt cs = some .file := by
  have hdescribes := hr.describesAt
  by_cases habove : ns.Above cs
  · rw [overlayKind_of_above habove]
    cases hover : ns.overDescendant (pathText cs) with
    | true => simp [read, hr.lookup, hover]
    | false =>
      rw [(metadata_read_of_not_over hr hover).2, hdescribes.read]
      simpa using kind_ne_file_of_above hr hfile habove
  · have hover := overDescendant_of_not_above hr habove
    rw [(metadata_read_of_not_over hr hover).2, hdescribes.read,
      overlayKind_of_routesTo habove hr.route]

omit hfile in
theorem checks_iff : (ns.tryExists (pathText cs) = .ok true ↔ ns.overlayKind treeAt cs ≠ none) ∧
    (ns.tryIsDir (pathText cs) = .ok true ↔ ns.overlayKind treeAt cs = some .directory) ∧
    (ns.tryIsFile (pathText cs) = .ok true ↔ ns.overlayKind treeAt cs = some .file) := by
  have hdescribes := hr.describesAt
  by_cases habove : ns.Above cs
  · obtain ⟨hexists, hdir, hfile⟩ := checks_of_above hr habove
    rw [overlayKind_of_above habove, hexists, hdir, hfile]
    simp
  · obtain ⟨hexists, hdir, hfile⟩ := checks_of_not_above hr habove
    rw [overlayKind_of_routesTo habove hr.route, hexists, hdir, hfile]
    exact ⟨hdescribes.tryExists, hdescribes.tryIsDir, hdescribes.tryIsFile⟩

theorem openDirectory_iff : (∃ d, ns.openPath (pathText cs) = .ok (.directory d)) ↔
      ns.overlayKind treeAt cs = some .directory := by
  constructor
  · rintro ⟨d, hd⟩
    by_contra hne
    rcases openPath_of_not_directory hr hne with ⟨-, f, hf⟩ | ⟨-, e, he, -⟩
    · cases hd.symm.trans hf
    · cases hd.symm.trans he
  · intro h
    obtain ⟨⟨d, hd, -⟩, -⟩ := exists_directory hr hfile h
    exact ⟨d, hd⟩

theorem openFile_iff :
    (∃ f, ns.openPath (pathText cs) = .ok (.file f)) ↔ ns.overlayKind treeAt cs = some .file := by
  by_cases hdir : ns.overlayKind treeAt cs = some .directory
  · obtain ⟨⟨d, hd, -⟩, -⟩ := exists_directory hr hfile hdir
    rw [hd, hdir]
    simp
  rcases openPath_of_not_directory hr hdir with
    ⟨hkind, f, hf⟩ | ⟨hkind, e, he, -⟩
  · rw [hf, hkind]
    simp
  · rw [he, hkind]
    simp

/-- A directory of the overlay can be listed, and nothing else. -/
theorem readDir_iff : (∃ entries, ns.readDir (pathText cs) = .ok entries) ↔
      ns.overlayKind treeAt cs = some .directory := by
  have hdescribes := hr.describesAt
  constructor
  · rintro ⟨entries, hentries⟩
    by_contra hne
    obtain ⟨habove, hkind⟩ := kind_of_overlay_ne_directory hr hne
    obtain ⟨e, he⟩ := DescribesAt.readDir_error hdescribes (hkind ▸ hne)
    cases hentries.symm.trans (readDir_of_error hr he habove)
  · intro h
    obtain ⟨-, entries, hentries, -⟩ := exists_directory hr hfile h
    exact ⟨entries, hentries⟩

/-- What the overlay has nothing at, and no file above, is reported as not found. -/
theorem notFound_of_overlay_none (hnone : ns.overlayKind treeAt cs = none)
    (hfiles : ∀ ds r, cs = ds ++ r → ns.overlayKind treeAt ds ≠ some .file) :
    (∃ missing, ns.openPath (pathText cs) = .error (.notFound missing)) ∧
    ∃ missing, ns.readDir (pathText cs) = .error (.notFound missing) := by
  have hne : ns.overlayKind treeAt cs ≠ some .directory := by simp [hnone]
  obtain ⟨habove, hkind⟩ := kind_of_overlay_ne_directory hr hne
  have hover := overDescendant_of_not_above hr habove
  have habsent := (hr.describesAt).absent (hkind ▸ hnone)
  have hnofile : ∀ ds r, rel = ds ++ r → (treeAt mp).kind ds ≠ some .file := by
    rintro ds r rfl
    by_cases habove' : ns.Above (mp ++ ds)
    · exact kind_ne_file_of_above (hr.of_append rfl) hfile habove'
    · rw [← overlayKind_of_routesTo habove' hr.route.of_prefix]
      exact hfiles (mp ++ ds) r (hr.route.eq_append.trans (append_assoc mp ds r).symm)
  obtain ⟨⟨missing, hopen⟩, missing', hread⟩ := habsent hnofile
  exact ⟨⟨missing, openPath_of_error hr hopen hover⟩, missing', readDir_of_error hr hread habove⟩

end

end Routed

/-- The namespace describes the overlay of its trees. -/
theorem describes_overlay (hcan : ns.Canonical) (hdesc : ns.Described treeAt)
    (hfile : ns.NoFileAboveMounts) :
    Describes ns.toTargetFilesystem (ns.overlay treeAt) := by
  intro cs hcs
  obtain ⟨mp, rel, hroute⟩ := RoutesTo.exists ns cs
  have hr : ns.Routed treeAt cs mp rel := ⟨hcan, hdesc, hcs, hroute⟩
  have hopen := openDirectory_iff hr hfile
  have hread := readDir_iff hr hfile
  obtain ⟨hexists, hdir, hisFile⟩ := checks_iff hr
  exact {
    openDirectory := hopen
    openFile := openFile_iff hr hfile
    openedEntries := by
      intro d hd
      obtain ⟨⟨d', hd', hentries⟩, -⟩ := exists_directory hr hfile (hopen.mp ⟨d, hd⟩)
      cases hd.symm.trans hd'
      exact hentries
    read := read_iff hr hfile
    tryExists := hexists
    tryIsDir := hdir
    tryIsFile := hisFile
    metadata := metadata_iff hr
    readDir := hread
    readDirLists := by
      intro entries hentries
      obtain ⟨-, entries', hentries', hlists⟩ := exists_directory hr hfile
        (hread.mp ⟨entries, hentries⟩)
      cases hentries.symm.trans hentries'
      exact hlists
    absent := notFound_of_overlay_none hr hfile }

/-! ## Agreement -/

theorem entriesAgree_of_lists (hdesc : Describes ns.toTargetFilesystem tree) (hcs : PlainNames cs)
    (hchild : ∀ n, PlainName n → canonicalPath (path ++ '/' :: n) = .ok (pathText (cs ++ [n])))
    (hlists : tree.Lists cs entries) : EntriesAgree ns.toTargetFilesystem path entries := by
  intro n hn
  have hcs' : PlainNames (cs ++ [n]) := hcs.append_singleton hn
  obtain ⟨-, hexists, hdir, -⟩ := congr_of_canonicalPath ns
    ((hchild n hn).trans hcs'.canonicalPath_pathText.symm)
  have hat := hdesc (cs ++ [n]) hcs'
  constructor
  · rw [hlists.mem_iff n hn, ← hat.tryExists]
    exact (congrArg (· = ok true) hexists).symm.to_iff
  · rintro entry hentry rfl
    rw [hlists.isDir_iff entry hentry hn, ← hat.tryIsDir]
    exact (congrArg (· = ok true) hdir).symm.to_iff

/-- A namespace that describes a tree agrees with itself. -/
theorem operationsAgree_of_describes (hdesc : Describes ns.toTargetFilesystem tree) :
    OperationsAgree ns.toTargetFilesystem := by
  intro path hpath
  cases hcanon : canonicalPath path with
  | error e =>
    -- every operation returns the error of the path
    constructor <;>
      simp [toTargetFilesystem, openPath, tryIsDir, tryIsFile, metadata, readDir, read, hcanon]
  | ok c =>
    obtain ⟨cs, hcs, rfl, hchild⟩ := hpath.exists_plainNames hcanon
    obtain ⟨hopen, -, hdir, hisFile, hmeta, hreadDir, hread⟩ := congr_of_canonicalPath ns
      (hcanon.trans hcs.canonicalPath_pathText.symm)
    have hat := hdesc cs hcs
    exact {
      openDirectory := by
        simpa only [toTargetFilesystem, hopen, hdir] using hat.openDirectory.trans hat.tryIsDir.symm
      metadata := by
        simpa only [toTargetFilesystem, hmeta, hdir] using hat.metadata.trans hat.tryIsDir.symm
      readDir := by
        simpa only [toTargetFilesystem, hreadDir, hdir] using hat.readDir.trans hat.tryIsDir.symm
      openFile := by
        simpa only [toTargetFilesystem, hopen, hisFile] using hat.openFile.trans hat.tryIsFile.symm
      read := by
        simpa only [toTargetFilesystem, hread, hisFile] using hat.read.trans hat.tryIsFile.symm
      listing := by
        intro entries hentries
        exact entriesAgree_of_lists hdesc hcs hchild
          (hat.readDirLists entries (hreadDir.symm.trans hentries))
      openedListing := by
        intro d hd
        obtain ⟨entries, d', hentries, hlists⟩ := hat.openedEntries d (hopen.symm.trans hd)
        exact ⟨entries, d', hentries, entriesAgree_of_lists hdesc hcs hchild hlists⟩ }

/-- Where a path above a mount point goes to a file, `open` and `try_is_dir` contradict each
    other. -/
theorem noFileAboveMounts_of_agree (hcan : ns.Canonical) (hdesc : ns.Described treeAt)
    (h : OperationsAgree ns.toTargetFilesystem) :
    ns.NoFileAboveMounts := by
  rintro cs hcs ⟨mountPoint, hmem, hbelow⟩ hisFile
  obtain ⟨mp, rel, hroute⟩ := RoutesTo.exists ns cs
  have hr : ns.Routed treeAt cs mp rel := ⟨hcan, hdesc, hcs, hroute⟩
  obtain ⟨-, hfs, hrel⟩ := hr.lookup
  have hdescribes := hr.describesAt
  have habove : ns.Above cs := by
    apply (hasMountedDescendant_pathText hcan hcs.components).mp
    rw [hasMountedDescendant, any_eq_true]
    exact ⟨mountPoint, mem_keys.mpr hmem, by rw [hbelow, Bool.or_true]⟩
  rw [hfs, hrel, hdescribes.tryIsFile, ← hdescribes.openFile] at hisFile
  obtain ⟨f, hf⟩ := hisFile
  obtain ⟨d, hd⟩ := (h (pathText cs) hcs.plainPath).openDirectory.mpr
    (checks_of_above hr habove).2.1
  simp [toTargetFilesystem, openPath, hr.lookup, hf] at hd

/-! ## Runs of `attach` and `detach` -/

/-- A successful `attach` adds the filesystem at a canonical path other than the root. -/
theorem of_attach {fs : TargetFilesystem κ} (hrun : ns.attach mountPoint fs = .ok ns') :
    ∃ c, canonicalPath mountPoint = .ok c ∧ c ≠ [] ∧
      ns' = { ns with mounts := ns.mounts.insert c fs } := by
  obtain ⟨c, hcanon, hrun⟩ := bind_eq_ok_iff.mp hrun
  refine ⟨c, hcanon, ?_⟩
  split at hrun
  · cases hrun
  rename_i hne
  split at hrun
  · cases hrun
  obtain ⟨isDir, -, hrun⟩ := bind_eq_ok_iff.mp hrun
  split at hrun
  · cases hrun
  obtain ⟨root, -, hrun⟩ := bind_eq_ok_iff.mp hrun
  split at hrun
  · cases hrun
  · cases hrun
    exact ⟨hne, rfl⟩

/-- A successful `detach` takes the filesystem at a canonical path away. -/
theorem of_detach (hrun : ns.call (.detach mountPoint) = .ok ns') :
    ∃ c, ns' = { ns with mounts := ns.mounts.erase c } := by
  obtain ⟨⟨after, detached⟩, hdetach, hrun⟩ := bind_eq_ok_iff.mp hrun
  obtain ⟨c, -, hdetach⟩ := bind_eq_ok_iff.mp hdetach
  cases hdetach
  cases hrun
  exact ⟨c, rfl⟩

/-- What every call keeps, a successful sequence of calls keeps. -/
theorem callAll_induction {P : MountNamespace κ → Prop} (h : P ns)
    (hcall : ∀ call ∈ calls, ∀ ns ns' : MountNamespace κ, P ns → ns.call call = .ok ns' → P ns')
    (hrun : ns.callAll calls = .ok ns') : P ns' := by
  induction calls generalizing ns with
  | nil =>
    cases hrun
    exact h
  | cons call calls ih =>
    obtain ⟨after, hfirst, hrun⟩ := bind_eq_ok_iff.mp hrun
    exact ih (hcall call mem_cons_self ns after h hfirst)
      (fun call hmem => hcall call (mem_cons_of_mem _ hmem)) hrun

theorem Canonical.new (root : TargetFilesystem κ) : (new root).Canonical :=
  fun _ hmem => absurd hmem not_mem_emptyc

theorem Canonical.call {call : MountCall κ} (h : ns.Canonical) (hrun : ns.call call = .ok ns') :
    ns'.Canonical := by
  intro k hk
  cases call with
  | attach mountPoint fs =>
    obtain ⟨c, hcanon, hne, rfl⟩ := of_attach hrun
    obtain ⟨cs, hcs, rfl⟩ := exists_components_of_canonicalPath hcanon
    rcases mem_insert.mp hk with heq | hk
    · rw [LawfulEqOrd.compare_eq_iff_eq] at heq
      exact ⟨cs, fun hnil => hne (by rw [hnil, pathText_nil]), hcs, heq.symm⟩
    · exact h k hk
  | detach mountPoint =>
    obtain ⟨c, rfl⟩ := of_detach hrun
    exact h k (mem_of_mem_erase hk)

/-- What every sequence of calls keeps: canonical mount points and consistent filesystems. -/
structure Consistent (ns : MountNamespace κ) : Prop where
  canonical : ns.Canonical
  root : SelfConsistent ns.root
  attached : ∀ (mountPoint : Path) (fs : TargetFilesystem κ), ns.mounts[mountPoint]? = some fs →
    SelfConsistent fs

theorem Consistent.new {root : TargetFilesystem κ} (h : SelfConsistent root) :
    (new root).Consistent where
  canonical := .new root
  root := h
  attached := by
    intro mountPoint fs hfs
    simp [MountNamespace.new] at hfs

theorem Consistent.call {call : MountCall κ} (h : ns.Consistent)
    (hfs : ∀ mountPoint fs, call = .attach mountPoint fs → SelfConsistent fs)
    (hrun : ns.call call = .ok ns') : ns'.Consistent := by
  have hcanonical := h.canonical.call hrun
  cases call with
  | attach mountPoint fs =>
    obtain ⟨c, -, -, rfl⟩ := of_attach hrun
    refine ⟨hcanonical, h.root, fun k fs' hk => ?_⟩
    rw [TreeMap.getElem?_insert] at hk
    split at hk
    · cases hk
      exact hfs mountPoint fs rfl
    · exact h.attached k fs' hk
  | detach mountPoint =>
    obtain ⟨c, rfl⟩ := of_detach hrun
    refine ⟨hcanonical, h.root, fun k fs hk => ?_⟩
    rw [getElem?_erase] at hk
    split at hk
    · cases hk
    · exact h.attached k fs hk

/-- Every successful sequence of calls keeps the namespace consistent. -/
theorem Consistent.callAll (h : ns.Consistent)
    (hcalls : ∀ mountPoint fs, .attach mountPoint fs ∈ calls → SelfConsistent fs)
    (hrun : ns.callAll calls = .ok ns') : ns'.Consistent :=
  callAll_induction h (fun _ hmem _ _ h => h.call fun mountPoint fs heq =>
    hcalls mountPoint fs (heq ▸ hmem)) hrun

instance : Nonempty FileTree :=
  ⟨{ kind := fun cs => if cs = [] then some .directory else none
     root := if_pos rfl
     parent := fun h => absurd (if_neg (by simp)) h }⟩

/-- The filesystems of a consistent namespace describe trees. -/
theorem Consistent.exists_described (h : ns.Consistent) : ∃ treeAt, ns.Described treeAt := by
  have hall : ∀ mp, ∃ tree, (mp ≠ [] → ns.Mounted mp) → Describes (ns.filesystemAt mp) tree := by
    intro mp
    by_cases hnil : mp = []
    · obtain ⟨tree, htree⟩ := h.root
      refine ⟨tree, fun _ => ?_⟩
      rw [filesystemAt, if_pos hnil]
      exact htree
    by_cases hm : ns.Mounted mp
    · obtain ⟨fs, hfs⟩ := Option.isSome_iff_exists.mp (isSome_getElem?_iff_mem.mpr hm.mem)
      obtain ⟨tree, htree⟩ := h.attached _ fs hfs
      refine ⟨tree, fun _ => ?_⟩
      rw [filesystemAt, if_neg hnil, filesystem, getD_eq_getD_getElem?, hfs]
      exact htree
    · exact ⟨Classical.arbitrary FileTree, fun hmp => absurd (hmp hnil) hm⟩
  choose treeAt htree using hall
  exact ⟨treeAt, htree⟩

/-- After every sequence of successful `attach` and `detach` calls over consistent filesystems,
    the operations of the namespace agree at every plain path exactly when no path above a mount
    point goes to a file. -/
theorem operations_agree_iff (root : TargetFilesystem κ) (calls : List (MountCall κ))
    (hroot : SelfConsistent root)
    (hcalls : ∀ mountPoint fs, .attach mountPoint fs ∈ calls → SelfConsistent fs)
    (ns : MountNamespace κ) (hrun : (new root).callAll calls = .ok ns) :
    OperationsAgree ns.toTargetFilesystem ↔ ns.NoFileAboveMounts := by
  have hns : ns.Consistent := (Consistent.new hroot).callAll hcalls hrun
  obtain ⟨treeAt, hdesc⟩ := hns.exists_described
  constructor
  · exact noFileAboveMounts_of_agree hns.canonical hdesc
  · intro hfile
    exact operationsAgree_of_describes (describes_overlay hns.canonical hdesc hfile)

/-! ## A file above a mount point -/

/-- Directories `a/b/c`. -/
def nestedNodes : Nodes :=
  [([['a']], .directory), ([['a'], ['b']], .directory), ([['a'], ['b'], ['c']], .directory)]

/-- A file `b` in the root. -/
def fileNodes : Nodes := [([['b']], .file)]

/-- A filesystem is mounted at `a/b/c`, and another one over it at `a`. -/
def mountOver (nodes : Nodes) : List (MountCall Unit) :=
  [.attach "a/b/c".toList (Nodes.filesystem []), .attach "a".toList nodes.filesystem]

/-- The namespace after the calls, if they succeed. -/
def mountedOver (nodes : Nodes) : Except FsError (MountNamespace Unit) :=
  (new nestedNodes.filesystem).callAll (mountOver nodes)

theorem selfConsistent_mountOver (h : nodes.wellFormed = true) :
    ∀ mountPoint fs, .attach mountPoint fs ∈ mountOver nodes → SelfConsistent fs := by
  intro mountPoint fs hmem
  simp only [mountOver, mem_cons, not_mem_nil, or_false] at hmem
  rcases hmem with ⟨-, rfl⟩ | ⟨-, rfl⟩
  · exact Nodes.selfConsistent rfl
  · exact Nodes.selfConsistent h

/-- What `open` and `try_is_dir` say about a path after the calls. -/
def openedAs (nodes : Nodes) (path : Path) : Option (Bool × Except FsError Bool) :=
  match mountedOver nodes with
  | .ok ns =>
    match ns.openPath path with
    | .ok target => some (target.isDirectory, ns.tryIsDir path)
    | .error _ => none
  | .error _ => none

theorem exists_of_openedAs {isDirectory : Bool} {result : Except FsError Bool}
    (h : openedAs nodes path = some (isDirectory, result)) :
    ∃ ns target, mountedOver nodes = .ok ns ∧ ns.openPath path = .ok target ∧
      target.isDirectory = isDirectory ∧ ns.tryIsDir path = result := by
  unfold openedAs at h
  split at h
  · rename_i ns hns
    split at h
    · rename_i target htarget
      cases h
      exact ⟨ns, target, hns, htarget, rfl, rfl⟩
    · cases h
  · cases h

theorem openedAs_fileNodes : openedAs fileNodes "a/b".toList = some (false, .ok true) := by
  decide +kernel

theorem operations_agree_iff_mountOver : ∃ ns, mountedOver fileNodes = .ok ns ∧
      (OperationsAgree ns.toTargetFilesystem ↔ ns.NoFileAboveMounts) := by
  obtain ⟨ns, -, hns, -⟩ := exists_of_openedAs openedAs_fileNodes
  exact ⟨ns, hns, operations_agree_iff nestedNodes.filesystem (mountOver fileNodes)
    (Nodes.selfConsistent rfl) (selfConsistent_mountOver rfl) ns hns⟩

/-- With a file `b` in the filesystem mounted at `a`, over the mount at `a/b/c`, the path `a/b`
    opens as a file and is reported as a directory. -/
theorem operations_disagree_mountOver : SelfConsistent nestedNodes.filesystem ∧
    (∀ mountPoint fs, .attach mountPoint fs ∈ mountOver fileNodes → SelfConsistent fs) ∧
    ∃ ns, (new nestedNodes.filesystem).callAll (mountOver fileNodes) = .ok ns ∧
      ¬ OperationsAgree ns.toTargetFilesystem := by
  refine ⟨Nodes.selfConsistent rfl, selfConsistent_mountOver rfl, ?_⟩
  obtain ⟨ns, target, hns, hopen, hkind, hdir⟩ := exists_of_openedAs openedAs_fileNodes
  refine ⟨ns, hns, fun hagree => ?_⟩
  have hplain : PlainPath "a/b".toList := by
    intro n hn
    have hsplit : ("a/b".toList).splitOn '/' = [['a'], ['b']] := by decide
    rw [hsplit] at hn
    simp only [List.mem_cons, List.not_mem_nil, or_false] at hn
    rcases hn with rfl | rfl <;> decide
  obtain ⟨d, hd⟩ := (hagree _ hplain).openDirectory.mpr hdir
  cases hopen.symm.trans hd
  cases hkind

/-! ## Listed names -/

/-- A path leads to the names `cs`: they are the names in its canonical path, and every namespace
    hands those behind the longest mount point to the filesystem there. -/
def LeadsTo (κ : Type) (path : Path) (cs : List Path) : Prop :=
  ∃ c, canonicalPath path = .ok c ∧ names c = cs ∧
    ∀ (root : TargetFilesystem κ) (calls : List (MountCall κ)) (ns : MountNamespace κ),
      (new root).callAll calls = .ok ns → ∃ mp rel, ns.RoutesTo cs mp rel ∧
        (ns.route c).mountPoint = (if mp = [] then none else some (pathText mp)) ∧
        names (ns.route c).relative = rel

theorem leadsTo_of_canonicalPath (hcs : Components cs)
    (h : canonicalPath path = .ok (pathText cs)) : LeadsTo κ path cs := by
  refine ⟨_, h, hcs.names_pathText, fun root calls ns hrun => ?_⟩
  have hcan : ns.Canonical := callAll_induction (.new root) (fun _ _ _ _ h => h.call) hrun
  obtain ⟨mp, rel, hroute, heq⟩ := exists_routesTo hcan hcs
  rw [heq]
  refine ⟨mp, rel, hroute, rfl, Components.names_pathText fun n hn => hcs n ?_⟩
  rw [hroute.eq_append]
  exact mem_append_right mp hn

/-- The path of listed names, with or without a slash in front, leads to these names exactly if
    none of them holds a backslash and no drive stands in front. A canonical path stays as it is
    exactly if the first component that the dots leave does not look like a drive. -/
theorem names_lead_back_iff (hcs : Components cs) :
    (LeadsTo κ (pathText cs) cs ∧ LeadsTo κ ('/' :: pathText cs) cs ↔ Carried cs) ∧
      ∀ path c, canonicalPath path = .ok c →
        ∃ left, (componentsOf path).foldlM pushComponent [] = some left ∧ c = pathText left ∧
          (canonicalPath c = .ok c ↔ ∀ n ∈ left.head?, withoutDrive n = n) := by
  refine ⟨⟨?_, fun h => ?_⟩, fun _ _ => canonicalPath_idempotent_iff⟩
  · rintro ⟨⟨c, hc, hnames, -⟩, -⟩
    exact carried_of_canonicalPath hcs hc hnames
  · have hcanon := h.canonicalPath_pathText hcs
    exact ⟨leadsTo_of_canonicalPath hcs hcanon.1, leadsTo_of_canonicalPath hcs hcanon.2⟩

theorem names_lead_back_plain : Components ["a".toList, "b:c".toList] ∧
    LeadsTo Unit "a/b:c".toList ["a".toList, "b:c".toList] := by
  have hcs : Components ["a".toList, "b:c".toList] := by
    rintro n (_ | ⟨_, _ | ⟨_, ⟨⟩⟩⟩) <;> exact ⟨by decide, by decide, by decide, by decide⟩
  exact ⟨hcs, ((names_lead_back_iff hcs).1.mpr ⟨by decide, by simp [withoutDrive]⟩).1⟩

/-- A file that is listed as `a\b` is looked up as `b` in a directory `a`, and the canonical path
    `D:` of `C:D:` has another canonical path. -/
theorem backslash_leads_astray : Components ["a\\b".toList] ∧
    ¬ LeadsTo Unit "a\\b".toList ["a\\b".toList] ∧
    canonicalPath "C:D:".toList = .ok "D:".toList ∧ canonicalPath "D:".toList = .ok [] := by
  refine ⟨?_, ?_, by decide +kernel, by decide +kernel⟩
  · rintro n (_ | ⟨_, ⟨⟩⟩)
    exact ⟨by decide, by decide, by decide, by decide⟩
  · rintro ⟨c, hc, hnames, -⟩
    have hcanon : canonicalPath "a\\b".toList = .ok "a/b".toList := by decide +kernel
    cases hcanon.symm.trans hc
    exact absurd hnames (by decide +kernel)

end Fsmnt.Core.MountNamespace
