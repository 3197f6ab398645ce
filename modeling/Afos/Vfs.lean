import Afos.Api
import Afos.Lib.Segments
import Afos.Lib.OrdMap

/-!
# The virtual filesystem

`crates/afos-core/src/vfs.rs`. Paths are text; `normalizePath` resolves them against a
current directory and the `Vfs` routes the result to one of three mounts: `/sys`, a table of
embedded files that is read only, and `/apps` and `/user`, which are the backend's.
-/

set_option autoImplicit false

namespace Afos

open Lib

structure EmbeddedFile where
  path : Str
  data : Bytes
  deriving DecidableEq

/-- A path at or below `pre`. The slash after the text that both share is what keeps `/system` out of `/sys`, so a
    plain `startsWith` would not do. -/
def isPathPrefix (pre path : Str) : Bool :=
  path == pre || (stripPrefix pre path).any (fun suffix => suffix.head? == some '/')

/-- One step of the loop of `normalizePath`: the components so far, and the next one. Empty components and `.` are
    dropped, so doubled and trailing slashes leave no trace in the result. -/
def pushComponent (components : List Str) (component : Str) : Except Error (List Str) :=
  if component = [] ∨ component = ".".toList then .ok components
  else if component = "..".toList then
    -- popping an empty stack is an escape above the root
    if components = [] then .error .invalidPath else .ok components.dropLast
  else .ok (components ++ [component])

/-- An absolute path without dots, or an error. Backslashes and zero bytes are refused before anything is split; going
    above the root is refused where it happens, and not cut off at the root. -/
def normalizePath (cwd input : Str) : Except Error Str :=
  if input.contains '\x00' || input.contains '\\' then .error .invalidPath
  else
    -- the components of `cwd` are taken as they stand; only the input's dots are resolved
    let start := if input.head? = some '/' then [] else names cwd
    ((input.splitOn '/').foldlM pushComponent start).map fun components =>
      '/' :: join components

/-- The filesystem that applications see: a table of files that came with the system, under `/sys`, and a backend that
    stores the rest. The table never changes after it has been handed over. -/
structure Vfs (σ : Type) where
  platform : σ
  systemFiles : List EmbeddedFile

namespace Vfs

variable {σ α : Type}

/-- An operation of the backend, as an operation of the filesystem over it. The table of system files is not part of
    what the backend can touch, and this is where that is said. -/
def onPlatform (x : Op Error σ α) : Op Error (Vfs σ) α :=
  Op.zoom platform (fun p v => { v with platform := p }) x

/-- The path as the backend gets it: relative, and under one of the two mounts that are stored. The root itself has an
    empty rest and is refused with everything outside the mounts. -/
def persistentPath (path : Str) : Except Error Str :=
  match stripPrefix ['/'] path with
  | none => .error .invalidPath
  | some relative =>
      if relative = [] ∨
          !(isPathPrefix "apps".toList relative || isPathPrefix "user".toList relative) then
        .error (.permissionDenied "path is outside persistent mounts".toList)
      else .ok relative

def systemFile (v : Vfs σ) (path : Str) : Option EmbeddedFile :=
  v.systemFiles.find? (fun file => file.path == path)

/-- A path with a slash after it, unless it ends in one already. Members of a directory are recognised by this text in
    front of them. -/
def withSlash (path : Str) : Str := if path.getLast? = some '/' then path else path ++ ['/']

/-- A system directory has no entry of its own in the table. It exists as long as some file is below it. -/
def systemDirExists (v : Vfs σ) (path : Str) : Bool :=
  v.systemFiles.any fun file => startsWith (withSlash path) file.path

/-- The entry a table file contributes to the listing of the directory `pre`: its own name if it lies directly there,
    otherwise the name of the directory on the way to it. -/
def systemEntry (pre : Str) (file : EmbeddedFile) : Option StorageEntry :=
  (stripPrefix pre file.path).bind fun remainder =>
    let (name, isDir) := match splitOnce '/' remainder with
      | some (name, _) => (name, true)
      | none => (remainder, false)
    if name = [] then none
    else some { name, isDir, len := if isDir then 0 else file.data.length }

/-- The first file to name an entry decides it; later files below the same directory add nothing. The map is what
    sorts the listing by name. -/
def addSystemEntry (pre : Str) (entries : OrdMap Str StorageEntry) (file : EmbeddedFile) :
    OrdMap Str StorageEntry :=
  match systemEntry pre file with
  | none => entries
  | some entry => if entries.contains entry.name then entries else entries.insert entry.name entry

/-- The listing of a system directory. `/sys` itself is listed even when the table is empty, as a machine that was
    packaged without system files shows it. -/
def listSystem (v : Vfs σ) (path : Str) : Except Error (List StorageEntry) :=
  if path ≠ "/sys".toList ∧ !v.systemDirExists path then .error (.notFound path)
  else
    .ok ((v.systemFiles.foldl (addSystemEntry (withSlash path)) OrdMap.empty).entries.map Prod.snd)

variable [Platform σ]

/-- The directories `initializeLayout` creates, in its order. Each is created with its parents, so the order matters
    only to a backend that fails half way. -/
def layout : List Str :=
  ["apps".toList, "user".toList, "user/config".toList, "user/saves".toList, "user/appdata".toList]

def initializeLayout : Op Error (Vfs σ) Unit :=
  layout.forM fun path => onPlatform (Platform.storageCreateDirAll path)

/-- Source name: `exists`. The root and the three mounts exist without a question to the backend; a path outside the
    mounts is an error here, not a `false`. -/
def existsAt (path : Str) : Op Error (Vfs σ) Bool := do
  let path ← Op.ofExcept (normalizePath "/".toList path)
  if path = "/".toList ∨ path = "/sys".toList ∨ path = "/apps".toList ∨ path = "/user".toList then
    pure true
  else if isPathPrefix "/sys".toList path then
    (fun v => (v.systemFile path).isSome || v.systemDirExists path) <$> Op.read
  else do
    let relative ← Op.ofExcept (persistentPath path)
    onPlatform (Platform.storageExists relative)

def read (path : Str) : Op Error (Vfs σ) Bytes := do
  let path ← Op.ofExcept (normalizePath "/".toList path)
  if isPathPrefix "/sys".toList path then do
    let v ← Op.read
    match v.systemFile path with
    | some file => pure file.data
    | none => Op.throw (.notFound path)
  else do
    let relative ← Op.ofExcept (persistentPath path)
    onPlatform (Platform.storageRead relative)

def readText (path : Str) : Op Error (Vfs σ) Str := do
  let data ← read path
  match fromUtf8 data with
  | some text => pure text
  | none => Op.throw (.invalidInput "file is not valid UTF-8".toList)

def write (path : Str) (data : Bytes) : Op Error (Vfs σ) Unit := do
  let path ← Op.ofExcept (normalizePath "/".toList path)
  if isPathPrefix "/sys".toList path then Op.throw (.readOnly path)
  else do
    let relative ← Op.ofExcept (persistentPath path)
    onPlatform (Platform.storageWrite relative data)

/-- The three mounts, as the root lists them. They are in the order of the source and not sorted, and the backend is
    not asked whether it has them. -/
def rootEntries : List StorageEntry :=
  ["sys".toList, "apps".toList, "user".toList].map fun name => { name, isDir := true, len := 0 }

def list (path : Str) : Op Error (Vfs σ) (List StorageEntry) := do
  let path ← Op.ofExcept (normalizePath "/".toList path)
  if path = "/".toList then pure rootEntries
  else if isPathPrefix "/sys".toList path then do
    let v ← Op.read
    Op.ofExcept (v.listSystem path)
  else do
    let relative ← Op.ofExcept (persistentPath path)
    onPlatform (Platform.storageList relative)

def createDirAll (path : Str) : Op Error (Vfs σ) Unit := do
  let path ← Op.ofExcept (normalizePath "/".toList path)
  if isPathPrefix "/sys".toList path then Op.throw (.readOnly path)
  else do
    let relative ← Op.ofExcept (persistentPath path)
    onPlatform (Platform.storageCreateDirAll relative)

/-- The paths `remove` refuses to remove: the root, the mounts that are stored and the three directories of the
    layout. `/sys` is not among them, because it is refused before, as read-only. -/
def rootDirectories : List Str :=
  ["/".toList, "/apps".toList, "/user".toList, "/user/config".toList, "/user/saves".toList,
    "/user/appdata".toList]

def remove (path : Str) : Op Error (Vfs σ) Unit := do
  let path ← Op.ofExcept (normalizePath "/".toList path)
  if isPathPrefix "/sys".toList path then Op.throw (.readOnly path)
  else if path ∈ rootDirectories then
    Op.throw (.permissionDenied "cannot remove an AFOS root directory".toList)
  else do
    let relative ← Op.ofExcept (persistentPath path)
    onPlatform (Platform.storageRemove relative)

/-- Both ends are normalized before either is tested, and a system path at either end is reported as `/sys` and not as
    the path that was given. -/
def rename (source target : Str) : Op Error (Vfs σ) Unit := do
  let source ← Op.ofExcept (normalizePath "/".toList source)
  let target ← Op.ofExcept (normalizePath "/".toList target)
  if isPathPrefix "/sys".toList source || isPathPrefix "/sys".toList target then
    Op.throw (.readOnly "/sys".toList)
  else do
    let source ← Op.ofExcept (persistentPath source)
    let target ← Op.ofExcept (persistentPath target)
    onPlatform (Platform.storageRename source target)

end Vfs

/-- The two cases the path tests of the source check. -/
example : normalizePath "/user/saves".toList "../config".toList = .ok "/user/config".toList := by
  decide

example : normalizePath "/user".toList "../../../secret".toList = .error .invalidPath := by decide

end Afos
