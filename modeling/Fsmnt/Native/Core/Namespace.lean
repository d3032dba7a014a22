import Mathlib.Data.List.MinMax
import Fsmnt.Native.Core.Filesystem

/-!
# Composition of filesystems into one mounted namespace

`fsmnt-core/src/namespace.rs`. A namespace is a root filesystem and a map from mount points to
attached filesystems; a path goes to the most specific mount point at or above it, and a path
above a mount point is a directory even when the filesystem it goes to has nothing there.
-/

namespace Fsmnt.Core

/-- `is_below`: `parent`, a slash, and something more. -/
def isBelow (path parent : Path) : Bool :=
  match parent.isPrefixOf? path with
  | some suffix => suffix.head? = some '/'
  | none => false

def isAtOrBelow (path parent : Path) : Bool := path = parent || isBelow path parent

/-- One component of a path, resolved against the components before it. -/
def pushComponent (components : List Path) (component : Path) : Option (List Path) :=
  if component = ['.'] then some components
  else if component = ['.', '.'] then
    if components = [] then none else some components.dropLast
  else some (components ++ [component])

/-- `canonical_path`: the path with its `.`, `..` and empty components resolved. -/
def canonicalPath (path : Path) : Except FsError Path :=
  let normalized := normalizePath path
  if normalized = [] then .ok []
  else if (normalized.splitOn '/').all
      (fun component => component ≠ [] ∧ component ≠ ['.'] ∧ component ≠ ['.', '.']) then
    .ok normalized
  else
    match ((normalized.splitOn '/').filter (· ≠ [])).foldlM pushComponent [] with
    | none => .error (.invalidPath path)
    | some components => .ok (['/'].intercalate components)

/-- `directory_metadata`: what is reported for a directory that only exists in the namespace. -/
def directoryMetadata : FsMetadata := { isDir := true }

/-- The context of a file opened through the namespace. -/
structure NamespaceFile (κ : Type) where
  mountPoint : Option Path
  file : OpenedFile κ

/-- The context of a directory opened through the namespace. -/
inductive NamespaceDirectory (κ : Type) where
  | backing (mountPoint : Option Path) (directory : OpenedDirectory κ)
  | synthetic

/-- What a handle of the namespace holds: `Box<dyn Any>` with one of the two contexts. -/
inductive NamespaceContext (κ : Type) where
  | file (file : NamespaceFile κ)
  | directory (directory : NamespaceDirectory κ)

/-- A root filesystem and the filesystems attached to it. -/
structure MountNamespace (κ : Type) where
  root : TargetFilesystem κ
  mounts : Std.TreeMap Path (TargetFilesystem κ)

/-- The mount point a path goes to, and the path within the filesystem there. -/
structure Route where
  mountPoint : Option Path
  relative : Path
  deriving DecidableEq, Repr

namespace MountNamespace

variable {κ : Type}

def new (root : TargetFilesystem κ) : MountNamespace κ := { root, mounts := ∅ }

variable (ns : MountNamespace κ) (path parent : Path)

/-- `route`. Of the mount points at or above a path the longest is taken. -/
def route : Route :=
  match (ns.mounts.keys.filter (isAtOrBelow path ·)).argmax List.length with
  | some mountPoint =>
    { mountPoint := some mountPoint
      relative := if path = mountPoint then [] else path.drop (mountPoint.length + 1) }
  | none => { mountPoint := none, relative := path }

/-- `filesystem_mut`. The source panics when the mount point is not attached; `route` and the
    open handles only name attached ones. -/
def filesystem (mountPoint : Option Path) : TargetFilesystem κ :=
  match mountPoint with
  | some mountPoint => ns.mounts.getD mountPoint ns.root
  | none => ns.root

def hasMountedDescendant : Bool :=
  ns.mounts.keys.any fun mountPoint => path = [] || isBelow mountPoint path

/-- The part of a mount point below `parent`, if it is below. -/
def remainderBelow (mountPoint : Path) : Option Path :=
  if parent = [] then some mountPoint
  else
    match parent.isPrefixOf? mountPoint with
    | some ('/' :: remainder) => some remainder
    | _ => none

/-- One mount point in `direct_mount_children`: its component below `parent`, marked with the
    mount point when nothing follows the component. -/
def addMountChild (children : Std.TreeMap Path (Option Path)) (mountPoint : Path) :
    Std.TreeMap Path (Option Path) :=
  match remainderBelow parent mountPoint with
  | none => children
  | some remainder =>
    let name := remainder.takeWhile (· ≠ '/')
    if name = [] then children
    else if name = remainder then children.insert name (some mountPoint)
    else children.insertIfNew name none

def directMountChildren : Std.TreeMap Path (Option Path) :=
  ns.mounts.keys.foldl (addMountChild parent) ∅

/-- The path an entry of the directory `parent` is reported under. -/
def entryPath (name : Path) : Path :=
  joinPath (if parent = [] then ['/'] else parent) name

def mountedChildEntry (name : Path) (exactMount : Option Path) : Except FsError FsEntry := do
  let metadata ← match exactMount with
    | some mountPoint => (ns.filesystem (some mountPoint)).metadata []
    | none => pure directoryMetadata
  pure { name, path := entryPath parent name, flags := 0, fileId := none, metadata }

/-- The entries of a filesystem's directory by name, with the paths of the namespace. -/
def entriesByName (entries : List FsEntry) : Std.TreeMap Path FsEntry :=
  entries.foldl
    (fun byName entry =>
      byName.insert entry.name { entry with path := entryPath path entry.name }) ∅

def mergeDirectoryEntries (entries : List FsEntry) : Except FsError (List FsEntry) := do
  let byName ← (ns.directMountChildren path).toList.foldlM (fun byName (name, exactMount) => do
      let entry ← ns.mountedChildEntry path name exactMount
      pure (byName.insert name entry))
    (entriesByName path entries)
  pure byName.values

def tryIsDir : Except FsError Bool := do
  let path ← canonicalPath path
  let route := ns.route path
  if ns.hasMountedDescendant path then pure true
  else (ns.filesystem route.mountPoint).tryIsDir route.relative

def attach (mountPoint : Path) (filesystem : TargetFilesystem κ) :
    Except FsError (MountNamespace κ) := do
  let mountPoint ← canonicalPath mountPoint
  if mountPoint = [] then
    .error (.invalidPath "the root filesystem cannot be replaced by a child mount".toList)
  else if mountPoint ∈ ns.mounts then
    let quoted := (String.ofList mountPoint).quote
    .error (.filesystem s!"mount point {quoted} is already occupied")
  else do
    let isDir ← ns.tryIsDir mountPoint
    if !isDir then .error (.notADirectory mountPoint)
    else do
      let root ← filesystem.metadata []
      if !root.isDir then .error (.notADirectory "attached filesystem root".toList)
      else .ok { ns with mounts := ns.mounts.insert mountPoint filesystem }

/-- `detach`: the namespace without the mount, and the filesystem that was there. -/
def detach (mountPoint : Path) :
    Except FsError (MountNamespace κ × Option (TargetFilesystem κ)) := do
  let mountPoint ← canonicalPath mountPoint
  pure ({ ns with mounts := ns.mounts.erase mountPoint }, ns.mounts[mountPoint]?)

/-- Whether a path is above a mount point without being one. -/
def overDescendant : Bool := ns.hasMountedDescendant path && (ns.route path).mountPoint ≠ some path

/-- `open`. -/
def openPath : Except FsError (OpenedTarget (NamespaceContext κ)) := do
  let path ← canonicalPath path
  let route := ns.route path
  match (ns.filesystem route.mountPoint).openPath route.relative with
  | .ok (.file file) =>
    pure (.file { path, metadata := file.metadata,
                  context := .file { mountPoint := route.mountPoint, file } })
  | .ok (.directory directory) =>
    pure (.directory (.new path directory.metadata
      (.directory (.backing route.mountPoint directory))))
  | .error (.notFound missing) =>
    -- the path is only there because something is mounted below it
    if ns.overDescendant path then
      pure (.directory (.new path directoryMetadata (.directory .synthetic)))
    else throw (.notFound missing)
  | .error error => throw error

def readOpenFile (file : OpenedFile (NamespaceContext κ))
    (offset length : Nat) : Except FsError (Bytes × OpenedFile (NamespaceContext κ)) :=
  match file.context with
  | .file context => do
    let (bytes, inner) ← (ns.filesystem context.mountPoint).readOpenFile context.file offset length
    pure (bytes, { file with context := .file { context with file := inner } })
  | .directory _ => throw (.filesystem "mount namespace received a foreign file handle")

def loadOpenDirectory (directory : OpenedDirectory (NamespaceContext κ)) :
    Except FsError (List FsEntry × OpenedDirectory (NamespaceContext κ)) :=
  match directory.context with
  | .directory (.backing mountPoint inner) => do
    let (entries, inner) ← (ns.filesystem mountPoint).openedDirectoryEntries inner
    let merged ← ns.mergeDirectoryEntries directory.path entries
    pure (merged, { directory with context := .directory (.backing mountPoint inner) })
  | .directory .synthetic => do
    let merged ← ns.mergeDirectoryEntries directory.path []
    pure (merged, directory)
  | .file _ => throw (.filesystem "mount namespace received a foreign directory handle")

def read : Except FsError Bytes := do
  let path ← canonicalPath path
  let route := ns.route path
  if ns.overDescendant path then throw (.notAFile path)
  (ns.filesystem route.mountPoint).read route.relative

def readAt (offset length : Nat) : Except FsError Bytes := do
  let path ← canonicalPath path
  let route := ns.route path
  if ns.overDescendant path then throw (.notAFile path)
  (ns.filesystem route.mountPoint).readAt route.relative offset length

def tryExists : Except FsError Bool := do
  let path ← canonicalPath path
  let route := ns.route path
  if ns.hasMountedDescendant path then pure true
  else (ns.filesystem route.mountPoint).tryExists route.relative

def tryIsFile : Except FsError Bool := do
  let path ← canonicalPath path
  let route := ns.route path
  if ns.hasMountedDescendant path then pure false
  else (ns.filesystem route.mountPoint).tryIsFile route.relative

def metadata : Except FsError FsMetadata := do
  let path ← canonicalPath path
  let route := ns.route path
  if ns.overDescendant path then pure directoryMetadata
  else (ns.filesystem route.mountPoint).metadata route.relative

def readDir : Except FsError (List FsEntry) := do
  let path ← canonicalPath path
  let route := ns.route path
  let children := ns.directMountChildren path
  match (ns.filesystem route.mountPoint).readDir route.relative with
  | .ok entries => ns.mergeDirectoryEntries path entries
  | .error (.notFound missing) =>
    if !children.isEmpty then ns.mergeDirectoryEntries path [] else throw (.notFound missing)
  | .error error => throw error

/-- `impl TargetFilesystem for MountNamespace`. -/
def toTargetFilesystem : TargetFilesystem (NamespaceContext κ) where
  openPath := ns.openPath
  readOpenFile := ns.readOpenFile
  loadOpenDirectory := ns.loadOpenDirectory
  read := ns.read
  readAt := ns.readAt
  tryExists := ns.tryExists
  tryIsDir := ns.tryIsDir
  tryIsFile := ns.tryIsFile
  metadata := ns.metadata
  readDir := ns.readDir

/-- A call that changes the mounts. -/
inductive MountCall (κ : Type) where
  | attach (mountPoint : Path) (filesystem : TargetFilesystem κ)
  | detach (mountPoint : Path)

/-- One call, as far as it changes the namespace. -/
def call : MountCall κ → Except FsError (MountNamespace κ)
  | .attach mountPoint filesystem => ns.attach mountPoint filesystem
  | .detach mountPoint => do
    let (ns, _) ← ns.detach mountPoint
    pure ns

/-- A sequence of calls, all of which succeed. -/
def callAll (calls : List (MountCall κ)) : Except FsError (MountNamespace κ) := calls.foldlM call ns

end MountNamespace

end Fsmnt.Core
