import Afos.Api
import Afos.Lib.Segments
import Afos.Storage

/-!
# The bare-metal platform

`platforms/bare-metal/src/platform.rs`: the storage calls over a file tree held in memory, with
a snapshot store behind it that every change is saved to. A call that changes the tree keeps a
copy of it first, and `commit` puts the copy back when saving fails. The steps before `commit`
are not under that protection, so what a failing call has changed depends on where it failed.

Console, counter, entropy and network stack are `Hardware`: nothing here looks inside them.
-/

set_option autoImplicit false

namespace Afos

open Lib

/-- The devices a bare-metal machine has besides its disk. They may do anything, and they have a state of their own,
    so the same call can be answered differently the next time. -/
class Hardware (η : Type) where
  consoleWrite : Str → η → η
  consoleReadLine : Str → Bool → η → Str × η
  consoleClear : η → η
  pollCancel : η → Bool × η
  counter : η → Nat × η
  /-- `none` when there is no entropy device. -/
  entropy (n : Nat) : η → Option (Except Str (Vector UInt8 n)) × η
  hardwareRandom (n : Nat) : η → Option (Vector UInt8 n) × η
  netStatus : Op Error η NetStatus
  netConnect (host : Str) (port : UInt16) : Op Error η Nat
  netSend (handle : Nat) (data : Bytes) : Op Error η Nat
  netRecv (handle max : Nat) : Op Error η (Nat × Vector UInt8 max)
  netClose (handle : Nat) : Op Error η Unit
  version : Str
  architecture : Str

structure InitialFile where
  path : Str
  data : Bytes

/-- The tree is all of the storage; the disk behind it, if there is one, is written with every change and read only at
    the start. -/
structure BareMetalPlatform (D η : Type) where
  tree : FileTree
  persistence : Option (SnapshotStore D)
  hardware : η
  started : Nat
  counterFrequency : Nat

def parent (path : Str) : Str :=
  match rsplitOnce '/' path with
  | some (parent, _) => parent
  | none => []

def storageError (error : StorageError) : Error :=
  .io ("persistent storage: ".toList ++ error.display)

/-- The name of a path directly below the directory with the text `pre` in front of its members. Deeper paths are not
    listed, and their directories are in the tree on their own account. -/
def directChild (path pre : Str) : Option Str :=
  (stripPrefix pre path).bind fun remainder =>
    if remainder = [] ∨ remainder.contains '/' then none else some remainder

/-- A path below `source`, moved to below `target`. A path that is not below `source` would become `target` itself;
    the callers have filtered those out. -/
def rebased (path source target : Str) : Str :=
  target ++ (stripPrefix source path).getD []

/-! ## On the tree -/

namespace FileTree

/-- Source name: `exists`. A file and a directory of the same path are not told apart. -/
def existsAt (tree : FileTree) (path : Str) : Bool :=
  tree.files.contains path || tree.directories.contains path

def insertDir (tree : FileTree) (path : Str) : FileTree :=
  { tree with directories := tree.directories.insert path () }

def insertFile (tree : FileTree) (path : Str) (data : Bytes) : FileTree :=
  { tree with files := tree.files.insert path data }

def removeFile (tree : FileTree) (path : Str) : FileTree :=
  { tree with files := tree.files.remove path }

/-- The path of a name under the path of what has been walked so far. There is no slash in front of the first name,
    since the paths of a backend are relative. -/
def extend (current component : Str) : Str :=
  if current = [] then component else current ++ '/' :: component

/-- The loop of `addParents`, from the path `current` down. The directories above a file that is in the way have been
    added by the time it is found, and stay. -/
def addParentsFrom : List Str → Str → Op Error FileTree Unit
  | [], _ => pure ()
  | component :: rest, current => do
      let tree ← Op.read
      if tree.files.contains (extend current component) then
        Op.throw (.notDirectory (extend current component))
      else do
        Op.modify fun tree => tree.insertDir (extend current component)
        addParentsFrom rest (extend current component)

/-- Every directory on the way to `path`, and `path` itself, unless a file is in the way. -/
def addParents (path : Str) : Op Error FileTree Unit := addParentsFrom (names path) []

/-- The tree without the directory `path` and what is under it. The slash in the comparison keeps the siblings whose
    names begin with the same text. -/
def removeSubtree (tree : FileTree) (path : Str) : FileTree :=
  { files := tree.files.retain fun name _ => !startsWith (path ++ ['/']) name
    directories := tree.directories.retain fun name _ =>
      name ≠ path && !startsWith (path ++ ['/']) name }

def moveDir (source target : Str) (directories : OrdSet Str) (path : Str) : OrdSet Str :=
  (directories.remove path).insert (rebased path source target) ()

def moveFile (source target : Str) (files : OrdMap Str Bytes) (file : Str × Bytes) :
    OrdMap Str Bytes :=
  (files.remove file.1).insert (rebased file.1 source target) file.2

/-- The tree with the directory `source` and what is under it moved to `target`, one key at a time. The keys are
    collected before the first is moved, so a key that has been moved is not moved again. -/
def moveSubtree (tree : FileTree) (source target : Str) : FileTree :=
  let movedDirectories := tree.directories.keys.filter fun path =>
    path = source || startsWith (source ++ ['/']) path
  let movedFiles := tree.files.entries.filter fun file => startsWith (source ++ ['/']) file.1
  { files := movedFiles.foldl (moveFile source target) tree.files
    directories := movedDirectories.foldl (moveDir source target) tree.directories }

/-- Enter the initial files of a machine without a snapshot. A later file of the same path replaces an earlier one,
    and one that lies below an earlier file is an error. -/
def seed : List InitialFile → Op Error FileTree Unit
  | [] => pure ()
  | file :: rest => do
      addParents (parent file.path)
      Op.modify fun tree => tree.insertFile file.path file.data
      seed rest

def addEntry (entries : OrdMap Str StorageEntry) (entry : StorageEntry) :
    OrdMap Str StorageEntry := entries.insert entry.name entry

/-- The entries of the directory with the text `pre` in front of its members. Files come after directories, so where
    both have a name the file is what is shown. -/
def entriesUnder (tree : FileTree) (pre : Str) : List StorageEntry :=
  let directories := tree.directories.keys.filterMap fun path =>
    (directChild path pre).map fun name => { name, isDir := true, len := 0 }
  let files := tree.files.entries.filterMap fun file =>
    (directChild file.1 pre).map fun name =>
      { name, isDir := false, len := min file.2.length (2 ^ 64 - 1) }
  ((directories ++ files).foldl addEntry OrdMap.empty).entries.map Prod.snd

end FileTree

/-! ## The platform -/

namespace BareMetalPlatform

variable {D η α : Type}

def onTree (x : Op Error FileTree α) : Op Error (BareMetalPlatform D η) α :=
  Op.zoom tree (fun t p => { p with tree := t }) x

def onHardware (x : Op Error η α) : Op Error (BareMetalPlatform D η) α :=
  Op.zoom hardware (fun h p => { p with hardware := h }) x

/-- A hardware call that cannot fail. The tree and the disk are out of its reach, whatever the device does. -/
def askHardware (f : η → α × η) (p : BareMetalPlatform D η) : α × BareMetalPlatform D η :=
  ((f p.hardware).1, { p with hardware := (f p.hardware).2 })

/-- Keep a result of the snapshot store under the platform's error type. All of them become I/O errors, with the
    store's own text behind `persistent storage`. -/
def mapStorageError : Except StorageError Unit → Except Error Unit
  | .ok () => .ok ()
  | .error e => .error (storageError e)

variable [BlockDevice D]

/-- Save the tree as it is, or do nothing on a machine without a disk. The store is changed by a save that fails as
    well, since its device is. -/
def persist : Op Error (BareMetalPlatform D η) Unit := fun p =>
  match p.persistence with
  | none => (.ok (), p)
  | some store =>
      (mapStorageError (SnapshotStore.save p.tree store).1,
        { p with persistence := some (SnapshotStore.save p.tree store).2 })

/-- The end of every call that changes something: save, and put the tree back as it was before the call if that fails.
    The disk is not put back. -/
def commit (previous : FileTree) : Op Error (BareMetalPlatform D η) Unit := fun p =>
  match persist p with
  | (.ok (), p') => (.ok (), p')
  | (.error e, p') => (.error e, { p' with tree := previous })

def storageRead (path : Str) : Op Error (BareMetalPlatform D η) Bytes := fun p =>
  if p.tree.directories.contains path then (.error (.isDirectory path), p)
  else match p.tree.files.lookup path with
    | some data => (.ok data, p)
    | none => (.error (.notFound path), p)

/-- A directory of the same path is tested for before the parents are added; a file in the way of the parents is found
    only while they are. -/
def storageWrite (path : Str) (data : Bytes) : Op Error (BareMetalPlatform D η) Unit := do
  let p ← Op.read
  if p.tree.directories.contains path then Op.throw (.isDirectory path)
  else do
    onTree (FileTree.addParents (parent path))
    onTree (Op.modify fun tree => tree.insertFile path data)
    commit p.tree

def storageList (path : Str) : Op Error (BareMetalPlatform D η) (List StorageEntry) := fun p =>
  if !p.tree.directories.contains path then
    if p.tree.files.contains path then (.error (.notDirectory path), p)
    else (.error (.notFound path), p)
  else (.ok (p.tree.entriesUnder (if path = [] then [] else path ++ ['/'])), p)

def storageCreateDirAll (path : Str) : Op Error (BareMetalPlatform D η) Unit := do
  let p ← Op.read
  onTree (FileTree.addParents path)
  commit p.tree

def storageRemove (path : Str) : Op Error (BareMetalPlatform D η) Unit := do
  let p ← Op.read
  if p.tree.files.contains path then do
    onTree (Op.modify fun tree => tree.removeFile path)
    commit p.tree
  else if !p.tree.directories.contains path then Op.throw (.notFound path)
  else do
    onTree (Op.modify fun tree => tree.removeSubtree path)
    commit p.tree

/-- The part of `storageRename` after the parents of the target have been added. That the source is missing is found
    out only here, when they are in the tree already. -/
def moveEntry (source target : Str) (previous : FileTree) :
    Op Error (BareMetalPlatform D η) Unit := do
  let p ← Op.read
  match p.tree.files.lookup source with
  | some data => do
      onTree (Op.modify fun tree => (tree.removeFile source).insertFile target data)
      commit previous
  | none =>
      if !p.tree.directories.contains source then Op.throw (.notFound source)
      else do
        onTree (Op.modify fun tree => tree.moveSubtree source target)
        commit previous

/-- The same path twice is answered before anything is looked up, also when there is nothing there. A target below the
    source is refused by its text. -/
def storageRename (source target : Str) : Op Error (BareMetalPlatform D η) Unit := do
  let p ← Op.read
  if source = target then pure ()
  else if p.tree.existsAt target then Op.throw (.alreadyExists target)
  else if (stripPrefix source target).any (fun suffix => suffix.head? == some '/') then
    Op.throw .invalidPath
  else do
    onTree (FileTree.addParents (parent target))
    moveEntry source target p.tree

def storageExists (path : Str) : Op Error (BareMetalPlatform D η) Bool := fun p =>
  (.ok (p.tree.existsAt path), p)

variable [Hardware η]

/-- The count since the start in milliseconds. The product saturates before it is divided, and from there on the clock
    stands still. -/
def monotonicMillis (p : BareMetalPlatform D η) : Nat × BareMetalPlatform D η :=
  let (count, p) := askHardware Hardware.counter p
  (min ((count - p.started) * 1000) (2 ^ 64 - 1) / p.counterFrequency, p)

/-- The entropy device first, and the processor's own instruction only where there is no device: an error of the
    device is the answer, and is not passed over. -/
def fillRandom (n : Nat) : Op Error (BareMetalPlatform D η) (Vector UInt8 n) := fun p =>
  match askHardware (Hardware.entropy n) p with
  | (some (.ok output), p) => (.ok output, p)
  | (some (.error message), p) => (.error (.io message), p)
  | (none, p) => match askHardware (Hardware.hardwareRandom n) p with
    | (some output, p) => (.ok output, p)
    | (none, p) =>
        (.error (.unsupported
          "no cryptographically secure entropy device is available".toList), p)

def systemInfo (p : BareMetalPlatform D η) : SystemInfo × BareMetalPlatform D η :=
  ({ name := "AFOS".toList, version := Hardware.version η,
     platform := "Limine bare metal".toList, architecture := Hardware.architecture η }, p)

instance : Platform (BareMetalPlatform D η) where
  consoleWrite text := Op.ofState (askHardware fun h => ((), Hardware.consoleWrite text h))
  consoleReadLine prompt secret :=
    Op.ofState (askHardware (Hardware.consoleReadLine prompt secret))
  consoleClear := Op.ofState (askHardware fun h => ((), Hardware.consoleClear h))
  storageRead := storageRead
  storageWrite := storageWrite
  storageList := storageList
  storageCreateDirAll := storageCreateDirAll
  storageRemove := storageRemove
  storageRename := storageRename
  storageExists := storageExists
  monotonicMillis := monotonicMillis
  fillRandom := fillRandom
  systemInfo := systemInfo
  pollCancel := askHardware Hardware.pollCancel
  netStatus := onHardware Hardware.netStatus
  netConnect host port := onHardware (Hardware.netConnect host port)
  netSend handle data := onHardware (Hardware.netSend handle data)
  netRecv handle max := onHardware (Hardware.netRecv handle max)
  netClose handle := onHardware (Hardware.netClose handle)

/-- What `new` finds on the disk, if there is one. A machine without a disk is no error; a disk that cannot be opened
    is. -/
def openPersistence (block : Option D) :
    Except Error (Option (SnapshotStore D) × Option FileTree) :=
  match block with
  | none => .ok (none, none)
  | some device => match (SnapshotStore.openDevice device).1 with
    | .ok (store, restored) => .ok (some store, restored)
    | .error e => .error (storageError e)

/-- A machine that found nothing on its disk starts from the initial files, and so does one that finds an empty tree.
    They are saved at once. -/
def seedIfEmpty (initialFiles : List InitialFile) : Op Error (BareMetalPlatform D η) Unit := do
  let p ← Op.read
  if p.tree.files.isEmpty && p.tree.directories.isEmpty then do
    onTree (FileTree.seed initialFiles)
    persist
  else pure ()

def new (counterFrequency : Nat) (initialFiles : List InitialFile) (block : Option D)
    (hardware : η) : Except Error (BareMetalPlatform D η) := do
  let (persistence, restored) ← openPersistence block
  let (started, hardware) := Hardware.counter hardware
  let platform : BareMetalPlatform D η :=
    { tree := restored.getD FileTree.empty, persistence, hardware, started, counterFrequency }
  match seedIfEmpty initialFiles platform with
  | (.ok (), platform) => .ok platform
  | (.error e, _) => .error e

end BareMetalPlatform

end Afos
