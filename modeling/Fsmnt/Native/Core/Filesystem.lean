import Mathlib.Data.List.Basic
import Fsmnt.ForStd.Bytes

/-!
# The filesystem interface of the mount backends

`fsmnt-core/src/filesystem.rs`. Paths and names are the characters of the source's strings.
A filesystem is given by what its operations return; the `&mut self` of the source serves the
readers behind an implementation and is not visible here. The state a driver keeps on an open
handle is the type `κ`.
-/

namespace Fsmnt.Core

/-- A path as the caller wrote it, or a name within a directory. -/
abbrev Path := List Char

inductive FsError where
  | io (message : String)
  | notFound (path : Path)
  | notADirectory (path : Path)
  | notAFile (path : Path)
  | permissionDenied (path : Path)
  | invalidPath (path : Path)
  | filesystem (message : String)
  deriving DecidableEq, Repr

/-- Metadata about a file or directory; the timestamps are in nanoseconds of the Unix epoch. -/
structure FsMetadata where
  size : Nat := 0
  isDir : Bool := false
  created : Option Int := none
  modified : Option Int := none
  accessed : Option Int := none
  readonly : Bool := false
  hidden : Bool := false
  system : Bool := false
  deriving DecidableEq, Repr

/-- A directory entry as `read_dir` returns it; `flags` are the bits of `FsEntryFlags`. -/
structure FsEntry where
  name : Path
  path : Path
  flags : Nat
  fileId : Option Nat
  metadata : FsMetadata
  deriving DecidableEq, Repr

/-- State owned by one open regular-file handle. -/
structure OpenedFile (κ : Type) where
  path : Path
  metadata : FsMetadata
  context : κ

/-- State owned by one open directory handle, with the listing once it has been read. -/
structure OpenedDirectory (κ : Type) where
  path : Path
  metadata : FsMetadata
  context : κ
  entries : Option (List FsEntry)

def OpenedDirectory.new {κ : Type} (path : Path) (metadata : FsMetadata) (context : κ) :
    OpenedDirectory κ :=
  { path, metadata, context, entries := none }

inductive OpenedTarget (κ : Type) where
  | file (file : OpenedFile κ)
  | directory (directory : OpenedDirectory κ)

namespace OpenedTarget

variable {κ : Type}

def isDirectory : OpenedTarget κ → Bool
  | .file _ => false
  | .directory _ => true

end OpenedTarget

/-- The trait `TargetFilesystem`: the operations on paths and on the handles `open` returns. A
    read of an open file or directory returns the handle with what it retained. -/
structure TargetFilesystem (κ : Type) where
  openPath : Path → Except FsError (OpenedTarget κ)
  readOpenFile : OpenedFile κ → Nat → Nat → Except FsError (Bytes × OpenedFile κ)
  loadOpenDirectory : OpenedDirectory κ → Except FsError (List FsEntry × OpenedDirectory κ)
  read : Path → Except FsError Bytes
  readAt : Path → Nat → Nat → Except FsError Bytes
  tryExists : Path → Except FsError Bool
  tryIsDir : Path → Except FsError Bool
  tryIsFile : Path → Except FsError Bool
  metadata : Path → Except FsError FsMetadata
  readDir : Path → Except FsError (List FsEntry)

/-- `opened_directory_entries`: the listing on the handle, loaded the first time. -/
def TargetFilesystem.openedDirectoryEntries {κ : Type} (fs : TargetFilesystem κ)
    (directory : OpenedDirectory κ) : Except FsError (List FsEntry × OpenedDirectory κ) :=
  match directory.entries with
  | some entries => .ok (entries, directory)
  | none => do
    let (entries, directory) ← fs.loadOpenDirectory directory
    .ok (entries, { directory with entries := some entries })

/-- A drive letter and a colon at the front of a path are dropped. -/
def withoutDrive : Path → Path
  | letter :: ':' :: rest => if letter.isAlpha then rest else letter :: ':' :: rest
  | path => path

def normalizePath (path : Path) : Path :=
  let relative := (withoutDrive path).dropWhile (fun c => c = '/' || c = '\\')
  relative.map (fun c => if c = '\\' then '/' else c)

/-- `PathBuf::join`: an absolute second path replaces the first. -/
def joinPath (base name : Path) : Path :=
  if name.head? = some '/' then name
  else if base = [] || base.getLast? = some '/' then base ++ name
  else base ++ '/' :: name

end Fsmnt.Core
