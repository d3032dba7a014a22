import Fsmnt.Spec.Core.CanonicalPath

/-!
# Filesystems that describe a tree

What the operations of a filesystem say about paths is one tree of files and directories when
each of them can be read off the tree. A filesystem that describes a tree agrees with itself:
opening, the metadata, the checks and the listings never contradict each other.
-/

namespace Fsmnt.Core

open List

inductive NodeKind where
  | file
  | directory
  deriving DecidableEq, Repr

/-- A tree of files and directories: what is at each list of components. -/
structure FileTree where
  kind : List Path → Option NodeKind
  root : kind [] = some .directory
  parent : ∀ {cs : List Path} {n : Path}, kind (cs ++ [n]) ≠ none → kind cs = some .directory

/-- `entries` are the children of the directory at `cs`, as far as their names are plain. -/
structure FileTree.Lists (tree : FileTree) (cs : List Path) (entries : List FsEntry) : Prop where
  mem_iff : ∀ n, PlainName n → (n ∈ entries.map FsEntry.name ↔ tree.kind (cs ++ [n]) ≠ none)
  isDir_iff : ∀ entry ∈ entries, PlainName entry.name →
    (entry.metadata.isDir = true ↔ tree.kind (cs ++ [entry.name]) = some .directory)

variable {κ : Type} (fs : TargetFilesystem κ)

/-- What the operations return at the components `cs` is what the tree has there. A path that is
    absent, and that does not run through a file, is reported as not found. -/
structure DescribesAt (tree : FileTree) (cs : List Path) : Prop where
  openDirectory :
    (∃ d, fs.openPath (pathText cs) = .ok (.directory d)) ↔ tree.kind cs = some .directory
  openFile : (∃ f, fs.openPath (pathText cs) = .ok (.file f)) ↔ tree.kind cs = some .file
  openedEntries : ∀ d, fs.openPath (pathText cs) = .ok (.directory d) →
    ∃ entries d', fs.openedDirectoryEntries d = .ok (entries, d') ∧ tree.Lists cs entries
  read : (∃ bytes, fs.read (pathText cs) = .ok bytes) ↔ tree.kind cs = some .file
  tryExists : fs.tryExists (pathText cs) = .ok true ↔ tree.kind cs ≠ none
  tryIsDir : fs.tryIsDir (pathText cs) = .ok true ↔ tree.kind cs = some .directory
  tryIsFile : fs.tryIsFile (pathText cs) = .ok true ↔ tree.kind cs = some .file
  metadata : (∃ m, fs.metadata (pathText cs) = .ok m ∧ m.isDir = true) ↔
    tree.kind cs = some .directory
  readDir : (∃ entries, fs.readDir (pathText cs) = .ok entries) ↔ tree.kind cs = some .directory
  readDirLists : ∀ entries, fs.readDir (pathText cs) = .ok entries → tree.Lists cs entries
  absent : tree.kind cs = none → (∀ ds r, cs = ds ++ r → tree.kind ds ≠ some .file) →
    (∃ path, fs.openPath (pathText cs) = .error (.notFound path)) ∧
    ∃ path, fs.readDir (pathText cs) = .error (.notFound path)

/-- The filesystem describes the tree at all plain paths. -/
def Describes (tree : FileTree) : Prop := ∀ cs, PlainNames cs → DescribesAt fs tree cs

/-- A filesystem that agrees with one tree of files and directories. -/
def SelfConsistent : Prop := ∃ tree, Describes fs tree

/-- The entries of a directory: the names that exist below it, each with its kind. -/
def EntriesAgree (path : Path) (entries : List FsEntry) : Prop :=
  ∀ n, PlainName n → (n ∈ entries.map FsEntry.name ↔ fs.tryExists (path ++ '/' :: n) = .ok true) ∧
    ∀ entry ∈ entries, entry.name = n →
      (entry.metadata.isDir = true ↔ fs.tryIsDir (path ++ '/' :: n) = .ok true)

/-- The operations agree at `path`: on whether it is a directory, on whether it is a file, and on
    what is in it. -/
structure AgreeAt (path : Path) : Prop where
  openDirectory : (∃ d, fs.openPath path = .ok (.directory d)) ↔ fs.tryIsDir path = .ok true
  metadata : (∃ m, fs.metadata path = .ok m ∧ m.isDir = true) ↔ fs.tryIsDir path = .ok true
  readDir : (∃ entries, fs.readDir path = .ok entries) ↔ fs.tryIsDir path = .ok true
  openFile : (∃ f, fs.openPath path = .ok (.file f)) ↔ fs.tryIsFile path = .ok true
  read : (∃ bytes, fs.read path = .ok bytes) ↔ fs.tryIsFile path = .ok true
  listing : ∀ entries, fs.readDir path = .ok entries → EntriesAgree fs path entries
  openedListing : ∀ d, fs.openPath path = .ok (.directory d) →
    ∃ entries d', fs.openedDirectoryEntries d = .ok (entries, d') ∧ EntriesAgree fs path entries

/-- The operations agree at every plain path. -/
def OperationsAgree : Prop := ∀ path, PlainPath path → AgreeAt fs path

/-! ## A filesystem that answers from a list of nodes -/

/-- A finite tree given by its nodes below the root. -/
abbrev Nodes := List (List Path × NodeKind)

namespace Nodes

variable {nodes : Nodes} {cs : List Path}

def kind (nodes : Nodes) (cs : List Path) : Option NodeKind :=
  if cs = [] then some .directory else nodes.lookup cs

/-- Every node is in a directory. -/
def wellFormed (nodes : Nodes) : Bool :=
  nodes.all fun node => node.1 ≠ [] && nodes.kind node.1.dropLast = some .directory

/-- What has a kind is listed with it, the root apart. -/
theorem mem_of_kind (h : nodes.kind cs ≠ none) (hne : cs ≠ []) :
    ∃ k, (cs, k) ∈ nodes ∧ nodes.kind cs = some k := by
  rw [kind, if_neg hne] at h ⊢
  obtain ⟨k, hk⟩ := Option.ne_none_iff_exists'.mp h
  obtain ⟨l₁, l₂, rfl, -⟩ := lookup_eq_some_iff.mp hk
  exact ⟨k, by simp, hk⟩

/-- The tree of well-formed nodes. -/
def tree (nodes : Nodes) (h : nodes.wellFormed = true) : FileTree where
  kind := nodes.kind
  root := if_pos rfl
  parent := by
    intro cs n hkind
    obtain ⟨k, hmem, -⟩ := mem_of_kind hkind (by simp)
    have hnode := all_eq_true.mp h _ hmem
    simp only [dropLast_concat, Bool.and_eq_true, decide_eq_true_eq] at hnode
    exact hnode.2

def metadataOf (k : NodeKind) : FsMetadata := { isDir := k = .directory }

def entryOf (cs : List Path) (name : Path) (k : NodeKind) : FsEntry :=
  { name, path := pathText cs, flags := 0, fileId := none, metadata := metadataOf k }

/-- The nodes right below `cs`, as directory entries. -/
def entries (nodes : Nodes) (cs : List Path) : List FsEntry :=
  nodes.filterMap fun node =>
    match node.1.getLast? with
    | some name =>
      if node.1.dropLast = cs then (nodes.kind node.1).map (entryOf node.1 name) else none
    | none => none

/-- The components of a canonical path. -/
def split (path : Path) : List Path := if path = [] then [] else path.splitOn '/'

def openNode (nodes : Nodes) (path : Path) : Except FsError (OpenedTarget Unit) :=
  match nodes.kind (split path) with
  | some .file => .ok (.file { path, metadata := metadataOf .file, context := () })
  | some .directory => .ok (.directory (.new path (metadataOf .directory) ()))
  | none => .error (.notFound path)

def readDirectory (nodes : Nodes) (path : Path) : Except FsError (List FsEntry) :=
  match nodes.kind (split path) with
  | some .directory => .ok (nodes.entries (split path))
  | some .file => .error (.notADirectory path)
  | none => .error (.notFound path)

/-- The filesystem with these nodes and empty files. -/
def filesystem (nodes : Nodes) : TargetFilesystem Unit where
  openPath := nodes.openNode
  readOpenFile := fun file _ _ => .ok ([], file)
  loadOpenDirectory := fun directory => do
    let entries ← nodes.readDirectory directory.path
    .ok (entries, directory)
  read := fun path =>
    if nodes.kind (split path) = some .file then .ok [] else .error (.notAFile path)
  readAt := fun path _ _ =>
    if nodes.kind (split path) = some .file then .ok [] else .error (.notAFile path)
  tryExists := fun path => .ok (nodes.kind (split path)).isSome
  tryIsDir := fun path => .ok (nodes.kind (split path) = some .directory)
  tryIsFile := fun path => .ok (nodes.kind (split path) = some .file)
  metadata := fun path =>
    match nodes.kind (split path) with
    | some k => .ok (metadataOf k)
    | none => .error (.notFound path)
  readDir := nodes.readDirectory

theorem split_pathText (h : PlainNames cs) : split (pathText cs) = cs := by
  by_cases hnil : cs = []
  · rw [hnil]
    rfl
  · rw [split, if_neg (mt (pathText_eq_nil_iff h.components).mp hnil), pathText,
      splitOn_intercalate '/' h.components.separatorFree hnil]

theorem mem_entries {entry : FsEntry} (h : entry ∈ nodes.entries cs) :
    ∃ k, nodes.kind (cs ++ [entry.name]) = some k ∧ entry.metadata = metadataOf k := by
  obtain ⟨node, -, hentry⟩ := mem_filterMap.mp h
  cases hlast : node.1.getLast? with
  | none => simp [hlast] at hentry
  | some name =>
    simp only [hlast, Option.ite_none_right_eq_some, Option.map_eq_some_iff] at hentry
    obtain ⟨rfl, k, hk, rfl⟩ := hentry
    have heq : node.1.dropLast ++ [name] = node.1 := dropLast_append_getLast? name hlast
    exact ⟨k, (congrArg nodes.kind heq).trans hk, rfl⟩

theorem exists_entry {n : Path} (h : nodes.kind (cs ++ [n]) ≠ none) :
    n ∈ (nodes.entries cs).map FsEntry.name := by
  obtain ⟨k, hmem, hk⟩ := mem_of_kind h (by simp)
  have hentry : entryOf (cs ++ [n]) n k ∈ nodes.entries cs :=
    mem_filterMap.mpr ⟨_, hmem, by simp [hk]⟩
  exact mem_map.mpr ⟨_, hentry, rfl⟩

/-- The entries of a node are those of its directory in the tree. -/
theorem lists_entries (h : nodes.wellFormed = true) (cs : List Path) :
    (nodes.tree h).Lists cs (nodes.entries cs) where
  mem_iff := by
    intro n _
    constructor
    · intro hmem
      obtain ⟨entry, hentry, rfl⟩ := mem_map.mp hmem
      obtain ⟨k, hk, -⟩ := mem_entries hentry
      show nodes.kind _ ≠ none
      simp [hk]
    · exact exists_entry
  isDir_iff := by
    intro entry hentry _
    obtain ⟨k, hk, hmeta⟩ := mem_entries hentry
    show _ ↔ nodes.kind _ = _
    rw [hk, hmeta]
    cases k <;> simp [metadataOf]

/-- The filesystem describes the tree of its nodes. -/
theorem describes (h : nodes.wellFormed = true) : Describes nodes.filesystem (nodes.tree h) := by
  intro cs hcs
  have hsplit := split_pathText hcs
  have hlists := lists_entries h cs
  have htree : (nodes.tree h).kind cs = nodes.kind cs := rfl
  have hmeta : (metadataOf .file).isDir = false ∧ (metadataOf .directory).isDir = true := ⟨rfl, rfl⟩
  cases hkind : nodes.kind cs with
  | none =>
    constructor <;> simp [filesystem, openNode, readDirectory, hsplit, htree, hkind]
  | some k =>
    cases k with
    | file =>
      constructor <;> simp [filesystem, openNode, readDirectory, hsplit, htree, hkind, hmeta]
    | directory =>
      constructor <;>
        simp [filesystem, openNode, readDirectory, hsplit, htree, hkind, hmeta, hlists,
          TargetFilesystem.openedDirectoryEntries, OpenedDirectory.new, bind, Except.bind]

/-- A filesystem over a well-formed list of nodes keeps to its tree. -/
theorem selfConsistent (h : nodes.wellFormed = true) : SelfConsistent nodes.filesystem :=
  ⟨_, describes h⟩

end Nodes

end Fsmnt.Core
