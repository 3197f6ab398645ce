import Afos.Disk
import Afos.Proof.StorageCalls

/-!
# A machine over its power cycles

The bare-metal machine with its data disk, from the packaging of the disk image on: it is switched on, the
kernel finds what the disk holds or enters the initial files (`BareMetalPlatform::new`, called once by
`_start` of `platforms/bare-metal/src/main.rs`), storage calls are made, and at some point the power goes. A
start that fails ends in `fail`, which halts the machine; nothing but switching it off gets it out of there.

A call that a loss of power interrupts is one that a fault cuts short, with the loss right behind it: the disk
is left the same, and what the call would have done next is not seen by anyone.

The log of what was to be saved is kept by the side. Nothing in the program reads it.
-/

set_option autoImplicit false

namespace Afos

open Lib

namespace StorageOp

/-- A call that is answered before anything is looked at: a rename to the same path. It is the one call that returns
    `Ok` and saves nothing. -/
def isIdle : StorageOp → Bool
  | rename source target => source = target
  | _ => false

/-- The part of `moveEntry` that changes the tree, without the `commit` behind it. -/
def planMove (source target : Str) : Op Error FileTree Unit := do
  let tree ← Op.read
  match tree.files.lookup source with
  | some data => Op.modify fun tree => (tree.removeFile source).insertFile target data
  | none =>
      if !tree.directories.contains source then Op.throw (.notFound source)
      else Op.modify fun tree => tree.moveSubtree source target

/-- What a call does to the tree before its `commit`, with the tests in the order of the platform's call. It is stated
    on trees alone, so that what is saved can be said without a platform. -/
def plan : StorageOp → Op Error FileTree Unit
  | write path data => do
      let tree ← Op.read
      if tree.directories.contains path then Op.throw (.isDirectory path)
      else do
        FileTree.addParents (parent path)
        Op.modify fun tree => tree.insertFile path data
  | createDirAll path => FileTree.addParents path
  | remove path => do
      let tree ← Op.read
      if tree.files.contains path then Op.modify fun tree => tree.removeFile path
      else if !tree.directories.contains path then Op.throw (.notFound path)
      else Op.modify fun tree => tree.removeSubtree path
  | rename source target => do
      let tree ← Op.read
      if tree.existsAt target then Op.throw (.alreadyExists target)
      else if (stripPrefix source target).any (fun suffix => suffix.head? == some '/') then
        Op.throw .invalidPath
      else do
        FileTree.addParents (parent target)
        planMove source target

/-- The tree that a call hands to `commit`, if it gets that far. Whether it is saved then is up to the disk. -/
def proposal (op : StorageOp) (tree : FileTree) : Option FileTree :=
  if op.isIdle then none
  else match op.plan tree with
    | (.ok (), tree') => some tree'
    | (.error _, _) => none

end StorageOp

/-- What a kernel image starts with: the files that a machine without a snapshot gets, and the frequency of its
    counter. -/
structure Kernel where
  files : List InitialFile
  counterFrequency : Nat

/-- A machine between two events. One that has halted has given up its platform; its disk is as the failed start has
    left it. -/
inductive Power (η : Type) where
  | off (disk : Disk)
  | on (platform : BareMetalPlatform Disk η)
  | halted (disk : Disk)

/-- What can happen to a machine. The fates are those of the device calls during the event. -/
inductive PowerEvent (η : Type) where
  | start (hardware : η) (fates : List Fate)
  | call (op : StorageOp) (fates : List Fate)
  | loss (pick : Nat → Nat)

def PowerEvent.isStart {η : Type} : PowerEvent η → Bool
  | .start _ _ => true
  | _ => false

def BareMetalPlatform.supplied {η : Type} (fates : List Fate) (p : BareMetalPlatform Disk η) :
    BareMetalPlatform Disk η :=
  { p with persistence := p.persistence.map (SnapshotStore.supplied fates) }

namespace Power

variable {η : Type}

/-- Who has the disk. A platform that has none is not started here, and gets an empty disk so that the function is
    total. -/
def holder : Power η → Holder
  | off disk => .closed disk
  | on p => match p.persistence with
    | some store => .opened store
    | none => .closed (Disk.blank 0)
  | halted disk => .closed disk

def disk (power : Power η) : Disk := World.disk ⟨power.holder, []⟩

end Power

namespace Kernel

variable {η : Type} [Hardware η]

/-- The platform that `new` makes of what it has found on the disk, before it looks whether the initial files are
    needed. The counter is read once. -/
def found (k : Kernel) (hardware : η) (store : SnapshotStore Disk) (restored : Option FileTree) :
    BareMetalPlatform Disk η :=
  { tree := restored.getD FileTree.empty
    persistence := some store
    hardware := (Hardware.counter hardware).2
    started := (Hardware.counter hardware).1
    counterFrequency := k.counterFrequency }

/-- `new` on a machine with a disk, and `fail` where it does not succeed. Two things can go wrong: the disk cannot be
    opened, or the initial files cannot be entered or saved. -/
def startUp (k : Kernel) (hardware : η) (disk : Disk) : Power η :=
  match SnapshotStore.openDevice disk with
  | (.error _, disk) => .halted disk
  | (.ok (store, restored), _) =>
      match BareMetalPlatform.seedIfEmpty k.files (k.found hardware store restored) with
      | (.ok (), p) => .on p
      | (.error _, p) => .halted (Power.on p).disk

end Kernel

/-- A machine, and the log of what was to be saved, the newest first. The log is of the same kind as that of a
    device's history, so that what holds of those holds of this. -/
structure Life (η : Type) where
  power : Power η
  log : List Attempt

namespace Life

variable {η : Type}

/-- A machine as it is delivered: switched off, with a disk to which nothing has been written. -/
def new (blockCount : Nat) : Life η := ⟨.off (Disk.blank blockCount), []⟩

def world (l : Life η) : World := ⟨l.power.holder, l.log⟩

variable [Hardware η] (k : Kernel)

/-- The save that a start makes: of the initial files, if it has found nothing. A start that finds a tree saves
    nothing. -/
def seeding (disk : Disk) : List Attempt :=
  match SnapshotStore.openDevice disk with
  | (.error _, _) => []
  | (.ok (store, restored), _) =>
      if restored.getD FileTree.empty = FileTree.empty then
        match FileTree.seed k.files FileTree.empty with
        | (.ok (), tree) => [⟨store.nextGeneration, tree, (SnapshotStore.save tree store).1.isOk⟩]
        | (.error _, _) => []
      else []

/-- The save that a storage call makes, and whether the call returned `Ok`. A call that fails before its `commit`
    makes none. -/
def saving (op : StorageOp) (p : BareMetalPlatform Disk η) : List Attempt :=
  match op.proposal p.tree, p.persistence with
  | some tree, some store => [⟨store.nextGeneration, tree, (op.run p).1.isOk⟩]
  | _, _ => []

/-- The saves that are tried in an event: one at the most. A loss of power tries none, and neither does an event that
    does not apply to the machine as it is. -/
def attempts (l : Life η) : PowerEvent η → List Attempt
  | .start _ fates => match l.power with
    | .off disk => seeding k (disk.supplied fates)
    | _ => []
  | .call op fates => match l.power with
    | .on p => saving op (p.supplied fates)
    | _ => []
  | .loss _ => []

/-- A machine that is on is not started, and one that is not on takes no calls. The power can go at any time, and a
    halted machine is switched off by it. -/
def powered (l : Life η) : PowerEvent η → Power η
  | .start hardware fates => match l.power with
    | .off disk => k.startUp hardware (disk.supplied fates)
    | power => power
  | .call op fates => match l.power with
    | .on p => .on (op.run (p.supplied fates)).2
    | power => power
  | .loss pick => .off (l.power.disk.crash pick)

def step (l : Life η) (e : PowerEvent η) : Life η := ⟨l.powered k e, l.attempts k e ++ l.log⟩

end Life

end Afos
