import Afos.Storage
import Afos.Lib.Volatile

/-!
# A disk that fails, and what is done with it

A block device behind a write cache. Each call either goes through or is cut short by a fault,
and a fault leaves every block that was written since the last flush with any of the contents it
has had since; a call that is not cut short does what it says. Which calls are cut short, and
what the blocks are left with, is given in advance as a list of fates, so a run is a function
and a statement about every device is a statement about every list.

On top of it, the history of one device: stores are opened on it, trees are saved, saves fail or
are cut off, the machine crashes, the device is opened again. The history keeps a log of the
saves, which nothing in the program reads.
-/

set_option autoImplicit false

namespace Afos

open Lib

structure Block where
  bytes : Bytes
  length_bytes : bytes.length = blockSize
  deriving DecidableEq

/-- How a device call goes. A fault says which of its possible contents each block is left with, by its place among
    them. -/
inductive Fate where
  | done
  | fault (pick : Nat → Nat)

/-- A disk with a write cache. Next to the blocks it has the fates of the calls to come, so that a call is a function;
    with the list spent, every call goes through. -/
structure Disk where
  blockCount : Nat
  cells : Volatile Nat Block
  fates : List Fate

/-- Bytes, cut off or filled up with zeros to a length. Where it is used on whole blocks it changes nothing; it is
    there so that every block has its length by construction. -/
def fit (len : Nat) (bytes : Bytes) : Bytes :=
  bytes.take len ++ List.replicate (len - bytes.length) 0

theorem length_fit (len : Nat) (bytes : Bytes) : (fit len bytes).length = len := by
  simp only [fit, List.length_append, List.length_take, List.length_replicate]
  omega

theorem fit_of_length {len : Nat} {bytes : Bytes} (h : bytes.length = len) : fit len bytes = bytes := by
  simp [fit, ← h]

theorem size_fit (len : Nat) (bytes : Bytes) : (fit len bytes).toArray.size = len :=
  length_fit len bytes

def Block.ofBytes (bytes : Bytes) : Block := ⟨fit blockSize bytes, length_fit blockSize bytes⟩

def zeroBlock : Block := Block.ofBytes []

/-- What writing `data` from block `first` on puts into each block: the piece that falls there, or nothing for a block
    that is not written. -/
def spread (first : Nat) (data : Bytes) (block : Nat) : Option Block :=
  if first ≤ block ∧ block < first + data.length / blockSize then
    some (Block.ofBytes (data.drop ((block - first) * blockSize)))
  else none

/-- The bytes of `count` blocks from `first` on, one block after the other. -/
def bytesAt (content : Nat → Block) (first count : Nat) : Bytes :=
  (List.range count).flatMap fun i => (content (first + i)).bytes

theorem length_bytesAt (content : Nat → Block) (first count : Nat) :
    (bytesAt content first count).length = count * blockSize := by
  simp [bytesAt, List.length_flatMap, Block.length_bytes]

/-- A buffer of `len` bytes, filled from block `first` on. The trait's own length is in the type, as the length of the
    slice is in the source. -/
def fill (content : Nat → Block) (first len : Nat) : Vector UInt8 len :=
  ⟨(fit len (bytesAt content first (len / blockSize))).toArray, size_fit _ _⟩

namespace Disk

/-- A new disk: nothing has been written to it, and nothing is on the way. Every block is zero, which `readSlot` takes
    for a half without a snapshot. -/
def blank (blockCount : Nat) : Disk := ⟨blockCount, Volatile.permanent fun _ => zeroBlock, []⟩

def supplied (fates : List Fate) (d : Disk) : Disk := { d with fates }

def crash (pick : Nat → Nat) (d : Disk) : Disk := { d with cells := d.cells.crash pick }

/-- Whole blocks that the disk has. A call outside of them is refused before it can have a fate. -/
def inRange (first len : Nat) (d : Disk) : Bool :=
  decide (len % blockSize = 0 ∧ first + len / blockSize ≤ d.blockCount)

def outOfRange : StorageError := .device "out of range".toList

def ioError : StorageError := .device "input/output error".toList

/-- A device call that does `started` to the blocks if a fault cuts it short and `finished` if none does. Reads have a
    fate too, and a fault during one settles what was still in the cache. -/
def call {α : Type} (started finished : Volatile Nat Block → Volatile Nat Block)
    (answer : Volatile Nat Block → α) : Op StorageError Disk α := fun d =>
  match d.fates.head? with
  | some (.fault pick) =>
      (.error ioError, { d with cells := (started d.cells).settle pick, fates := d.fates.tail })
  | _ => (.ok (answer d.cells), { d with cells := finished d.cells, fates := d.fates.tail })

/-- A call on a range of blocks, which does not reach the device, and does not use up a fate, when the range is not on
    it. -/
def callAt {α : Type} (first len : Nat) (x : Op StorageError Disk α) : Op StorageError Disk α :=
  fun d => if d.inRange first len then x d else (.error outOfRange, d)

end Disk

instance : BlockDevice Disk where
  blockCount := Disk.blockCount
  readBlocks first len :=
    Disk.callAt first len (Disk.call id id fun v => fill v.content first len)
  writeBlocks first data :=
    Disk.callAt first data.length
      (Disk.call (Volatile.write (spread first data)) (Volatile.write (spread first data))
        fun _ => ())
  flush := Disk.call id Volatile.flush fun _ => ()

/-! ## Histories -/

/-- A save that was called: what it would have put into its header, the tree, and whether the
    caller was told that it worked. -/
structure Attempt where
  generation : Nat
  tree : FileTree
  returnedOk : Bool

/-- The tree of the last save that returned `Ok`, and the trees of the saves attempted after
    it; all of them when none has. The log has its newest entry first. -/
def eligible : List Attempt → List FileTree
  | [] => []
  | a :: rest => a.tree :: if a.returnedOk then [] else eligible rest

/-- Who has the device: nobody, or a store that was opened on it. The store is memory, and a crash takes it away; the
    device stays. -/
inductive Holder where
  | closed (disk : Disk)
  | opened (store : SnapshotStore Disk)

structure World where
  holder : Holder
  log : List Attempt

/-- A crash takes the store with it. A save that a crash cuts off (`cut`) runs into a fault at the
    call it had got to, or into none, and returns to nobody. -/
inductive DeviceEvent where
  | openStore (fates : List Fate)
  | save (tree : FileTree) (fates : List Fate)
  | cut (tree : FileTree) (fates : List Fate) (pick : Nat → Nat)
  | crash (pick : Nat → Nat)

namespace DeviceEvent

def isOpen : DeviceEvent → Bool
  | .openStore _ => true
  | _ => false

/-- The tree that an event tries to save, if it is one that does. A save on a device that nobody has opened is an
    event as well, without effect. -/
def tree? : DeviceEvent → Option FileTree
  | .save tree _ => some tree
  | .cut tree _ _ => some tree
  | _ => none

def isSave (e : DeviceEvent) : Bool := e.tree?.isSome

end DeviceEvent

def SnapshotStore.supplied (fates : List Fate) (store : SnapshotStore Disk) : SnapshotStore Disk :=
  { store with device := store.device.supplied fates }

namespace World

def start (blockCount : Nat) : World := ⟨.closed (Disk.blank blockCount), []⟩

def disk (w : World) : Disk :=
  match w.holder with
  | .closed disk => disk
  | .opened store => store.device

/-- What `open` answers when its calls go as `fates` say. Asking is not an event: the world is the same afterwards. -/
def answer (fates : List Fate) (w : World) : Except StorageError (Option FileTree) :=
  (SnapshotStore.openDevice (w.disk.supplied fates)).1.map Prod.snd

/-- One event. A save is entered in the log with what the caller was told, and one that is cut off with `false`, since
    there was nobody to tell. -/
def step (w : World) : DeviceEvent → World
  | .openStore fates =>
      match SnapshotStore.openDevice (w.disk.supplied fates) with
      | (.ok (store, _), _) => { w with holder := .opened store }
      | (.error _, disk) => { w with holder := .closed disk }
  | .save tree fates =>
      match w.holder with
      | .closed _ => w
      | .opened store =>
          let outcome := SnapshotStore.save tree (store.supplied fates)
          ⟨.opened outcome.2, ⟨store.nextGeneration, tree, outcome.1.isOk⟩ :: w.log⟩
  | .cut tree fates pick =>
      match w.holder with
      | .closed _ => w
      | .opened store =>
          let outcome := SnapshotStore.save tree (store.supplied fates)
          ⟨.closed (outcome.2.device.crash pick), ⟨store.nextGeneration, tree, false⟩ :: w.log⟩
  | .crash pick => { w with holder := .closed (w.disk.crash pick) }

def run (w : World) (events : List DeviceEvent) : World := events.foldl step w

/-- A condition on every event of a history and the world it happens in. Unlike an invariant it can speak of the
    event, as a premise on what is saved has to. -/
def Along (P : World → DeviceEvent → Prop) : World → List DeviceEvent → Prop
  | _, [] => True
  | w, e :: events => P w e ∧ Along P (w.step e) events

end World

end Afos
