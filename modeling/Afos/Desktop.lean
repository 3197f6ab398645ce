import Afos.Api
import Afos.Lib.Posix

/-!
# The desktop platform

`platforms/desktop/src/platform.rs`, the storage calls: files in a directory of the host. A
relative path is refused by its text alone if it is absolute or goes up (`joined`). After that two
checks against links are made, for two kinds of call. `existing` resolves the whole path and looks
where it ends; `writable`, for what may not be there yet, makes the directories above it, resolves
*those* and looks where they end, and refuses a link in the last place.

The host is the state, next to the directory of it that the platform uses, a real path. The clock,
the sockets and the flag for removing the directory at the end play no part in storage and are
left out. File names are text here; the host may have others, which no path of this platform
names.
-/

set_option autoImplicit false

namespace Afos

open Lib

/-- What the host says the length of a directory is: any number it likes. Listings show it, and nothing that is proved
    depends on it. -/
class DirectoryLength where
  directoryLen : Host → List Str → Nat

/-- The host, and the directory of it that the platform uses. The directory is a path without links, as `canonicalize`
    gave it when the platform was made. -/
structure DesktopPlatform where
  root : List Str
  host : Host
  deriving DecidableEq

/-- The errors of the host, under those of the system. Two kinds have one of their own, with the host's text in the
    place of the path; the others are I/O errors. -/
def ioError : Errno → Error
  | .noEntry => .notFound (Errno.display .noEntry)
  | .fileExists => .alreadyExists (Errno.display .fileExists)
  | e => .io e.display

/-- How the text of a path ends. A host looks at that: a name with a slash or a dot after it has to be a directory,
    and a link there is followed. -/
def tailOf (relative : Str) : Tail :=
  if (names relative).getLast? = some ".".toList then .dot
  else if (relative.splitOn '/').getLast? = some [] then .slash
  else .plain

def escapesDirectory : Error := .permissionDenied "path escapes the AFOS data directory".toList

def linkNotWritable : Error := .permissionDenied "symbolic-link targets are not writable".toList

namespace DesktopPlatform

variable {α : Type}

def onHost (x : Op Errno Host α) : Op Error DesktopPlatform α :=
  Op.zoom host (fun h P => { P with host := h }) (Op.mapError ioError x)

/-- A question to the host, which does not change it. Its error is put under the system's as that of any other call
    is. -/
def askHost (f : Host → Except Errno α) : Op Error DesktopPlatform α := fun P =>
  ((f P.host).mapError ioError, P)

/-- The host's path for a path of the system, or an error. The text decides, before the host is asked anything; single
    dots lead nowhere and are dropped, and only `tailOf` remembers one at the end. -/
def joined (P : DesktopPlatform) (relative : Str) : Except Error HostPath :=
  if relative.head? = some '/' ∨ (names relative).any (fun c => c = "..".toList) then
    .error .invalidPath
  else
    .ok { names := P.root ++ (names relative).filter (fun c => c ≠ ".".toList)
          tail := tailOf relative }

/-- The real path of something that is there, if it is inside the directory. Links are followed to the end and the end
    is what is tested, so a link that stays inside is as good as any other name. -/
def existing (relative : Str) (P : DesktopPlatform) : Except Error (List Str) := do
  let path ← P.joined relative
  match P.host.canonicalize path with
  | .error .noEntry => .error (.notFound relative)
  | .error e => .error (ioError e)
  | .ok canonical => if P.root.isPrefixOf canonical then .ok canonical else .error escapesDirectory

/-- Whether there is a link at a path, that the path does not follow. Where nothing can be found out, as where nothing
    is, the answer is no. -/
def isSymlink (h : Host) (path : HostPath) : Bool :=
  match h.lstat path with
  | .ok n => n.isLink
  | .error _ => false

/-- The part of `writable` after the directories above the path have been made. They are resolved and tested as
    `existing` would; the last name is not followed, and refused if it is a link. -/
def checkTarget (path parent : HostPath) (P : DesktopPlatform) : Except Error HostPath := do
  let canonicalParent ← (P.host.canonicalize parent).mapError ioError
  if !P.root.isPrefixOf canonicalParent then .error escapesDirectory
  else if isSymlink P.host path then .error linkNotWritable
  else .ok path

/-- The path to write to. The directories above it are made before they are tested, so a link on the way can have
    directories made outside before the call is refused. -/
def writable (relative : Str) : Op Error DesktopPlatform HostPath := do
  let P ← Op.read
  let path ← Op.ofExcept (P.joined relative)
  if path.names = [] then Op.throw .invalidPath
  else do
    let parent : HostPath := { names := path.names.dropLast, tail := .plain }
    onHost (Host.createDirAll parent)
    let P ← Op.read
    Op.ofExcept (P.checkTarget path parent)

def storageRead (path : Str) : Op Error DesktopPlatform Bytes := do
  let P ← Op.read
  let path ← Op.ofExcept (P.existing path)
  askHost fun h => h.readFile ⟨path, .plain⟩

def storageWrite (path : Str) (data : Bytes) : Op Error DesktopPlatform Unit := do
  let path ← writable path
  onHost (Host.writeFile path data)

def storageCreateDirAll (path : Str) : Op Error DesktopPlatform Unit := do
  let path ← writable path
  onHost (Host.createDirAll path)

def storageRemove (path : Str) : Op Error DesktopPlatform Unit := do
  let P ← Op.read
  let path ← Op.ofExcept (P.existing path)
  if P.host.isDir ⟨path, .plain⟩ then onHost (Host.removeDirAll ⟨path, .plain⟩)
  else onHost (Host.removeFile ⟨path, .plain⟩)

/-- The source is resolved first, and the target's directories are made after that; a source that is missing leaves no
    directory behind. -/
def storageRename (source target : Str) : Op Error DesktopPlatform Unit := do
  let P ← Op.read
  let source ← Op.ofExcept (P.existing source)
  let target ← writable target
  onHost (Host.rename ⟨source, .plain⟩ target)

/-- An end outside of the directory is an error and not a `false`, and so is everything else that keeps the path from
    being resolved, except that there is nothing. -/
def storageExists (path : Str) : Op Error DesktopPlatform Bool := fun P =>
  match P.existing path with
  | .ok _ => (.ok true, P)
  | .error (.notFound _) => (.ok false, P)
  | .error e => (.error e, P)

variable [DirectoryLength]

/-- The entry that a name of the directory `d` gets in a listing. A link is not followed: it is shown as no directory,
    with the length of its text. -/
def storageEntry (h : Host) (d : List Str) (entry : Str × Inode) : StorageEntry where
  name := entry.1
  isDir := entry.2 = .dir
  len := match entry.2 with
    | .file data => data.length
    | .link target => (asBytes target).length
    | .dir => DirectoryLength.directoryLen h (d ++ [entry.1])

def storageList (path : Str) : Op Error DesktopPlatform (List StorageEntry) := do
  let P ← Op.read
  let directory ← Op.ofExcept (P.existing path)
  if !P.host.isDir ⟨directory, .plain⟩ then Op.throw (.notDirectory path)
  else do
    let entries ← askHost fun h => h.readDir ⟨directory, .plain⟩
    pure ((entries.map (storageEntry P.host directory)).mergeSort fun left right =>
      left.name ≤ right.name)

end DesktopPlatform

end Afos
