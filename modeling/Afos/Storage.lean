import Afos.Lib.Op
import Afos.Lib.OrdMap
import Afos.Lib.LittleEndian

/-!
# The snapshot store

`crates/afos-storage/src/lib.rs`. A file tree is written whole, into one of two halves of a
block device: first the payload, then, after a flush, the one-block header that makes it count.
`open` reads both headers, drops a half whose payload does not match its checksum, and takes
the newer of what is left.

Sizes are those of a 64-bit target, where a `usize` and a `u64` are the same thing. A slice is
shorter than `2 ^ 64`, so the overflow test of `take` refuses nothing that its range test does
not refuse as well, and only the second is written here.
-/

set_option autoImplicit false

namespace Afos

open Lib

/-- Everything a machine stores. Files and directories are two separate collections of paths, and the type does not
    say how they go together: that is left to the code that changes them. -/
structure FileTree where
  files : OrdMap Str Bytes
  directories : OrdSet Str
  deriving DecidableEq

namespace FileTree

/-- Source name: `default`. The tree of a machine that found no snapshot, before the initial files are entered. -/
def empty : FileTree := ⟨OrdMap.empty, OrdMap.empty⟩

end FileTree

inductive StorageError where
  | device (message : Str)
  | deviceTooSmall
  | snapshotTooLarge
  | corruptSnapshot
  | unsupportedVersion (version : Nat)
  deriving DecidableEq

def StorageError.display : StorageError → Str
  | .device message => "block device: ".toList ++ message
  | .deviceTooSmall => "block device is too small".toList
  | .snapshotTooLarge => "filesystem snapshot is too large".toList
  | .corruptSnapshot => "filesystem snapshot is corrupt".toList
  | .unsupportedVersion version => "unsupported filesystem version ".toList ++ natToStr version

def blockSize : Nat := 512

def magic : Bytes := asBytes "AFOSFS01".toList

def formatVersion : Nat := 1

def maxPathLen : Nat := 4096

def maxEntryCount : Nat := 100000

/-- The `BlockDevice` trait: `readBlocks first len` fills a buffer of `len` bytes. Nothing is assumed of a device
    here, not even that it returns what was written; `Disk` is the one that does. -/
class BlockDevice (D : Type) where
  blockCount : D → Nat
  readBlocks (first len : Nat) : Op StorageError D (Vector UInt8 len)
  writeBlocks (first : Nat) (data : Bytes) : Op StorageError D Unit
  flush : Op StorageError D Unit

/-! ## Writing a tree -/

def writeCount (count : Nat) : Except StorageError Bytes :=
  if maxEntryCount < count then .error .snapshotTooLarge else .ok (leBytes 4 count)

def writeString (value : Str) : Except StorageError Bytes :=
  if maxPathLen < (asBytes value).length then .error .snapshotTooLarge
  else .ok (leBytes 4 (asBytes value).length ++ asBytes value)

def writeFile (file : Str × Bytes) : Except StorageError Bytes := do
  let path ← writeString file.1
  if 2 ^ 64 ≤ file.2.length then .error .snapshotTooLarge
  else .ok (path ++ leBytes 8 file.2.length ++ file.2)

/-- The items of a list one after the other. The first item that cannot be written is the error of the whole, as the
    `?` in the loops of `encode_tree` has it. -/
def writeAll {α : Type} (write : α → Except StorageError Bytes) : List α → Except StorageError Bytes
  | [] => .ok []
  | x :: xs => do
      let first ← write x
      let rest ← writeAll write xs
      .ok (first ++ rest)

/-- The payload of a snapshot: the directories, then the files, each with a count before it. The order is that of the
    maps, so a tree has one encoding. -/
def encodeTree (tree : FileTree) : Except StorageError Bytes := do
  let directoryCount ← writeCount tree.directories.keys.length
  let directories ← writeAll writeString tree.directories.keys
  let fileCount ← writeCount tree.files.entries.length
  let files ← writeAll writeFile tree.files.entries
  .ok (directoryCount ++ directories ++ fileCount ++ files)

/-! ## Reading a tree

The state of a reader is its cursor. -/

/-- A reader over `input`, which is an argument of every function below and not part of the state: the state is the
    cursor, and it stays where it is when a field cannot be read. -/
abbrev Reader := Op StorageError Nat

def take (input : Bytes) (length : Nat) : Reader Bytes := fun cursor =>
  if cursor + length ≤ input.length then
    (.ok ((input.drop cursor).take length), cursor + length)
  else (.error .corruptSnapshot, cursor)

/-- Source names: `take_u32` and `take_u64`. The bytes are there in the right number once `take` has succeeded, so the
    conversion to an array, which the source checks, cannot fail. -/
def takeLe (input : Bytes) (width : Nat) : Reader Nat := leValue <$> take input width

def readCount (input : Bytes) : Reader Nat := do
  let count ← takeLe input 4
  if maxEntryCount < count then Op.throw .corruptSnapshot else pure count

/-- The length is tested against the limit before any byte is taken, so a damaged length cannot ask for more than
    `maxPathLen` bytes. -/
def readString (input : Bytes) : Reader Str := do
  let length ← takeLe input 4
  if maxPathLen < length then Op.throw .corruptSnapshot
  else do
    let bytes ← take input length
    match fromUtf8 bytes with
    | some text => pure text
    | none => Op.throw .corruptSnapshot

def readFile (input : Bytes) : Reader (Str × Bytes) := do
  let path ← readString input
  let length ← takeLe input 8
  let data ← take input length
  pure (path, data)

/-- Read an item `n` times, each one put into what was gathered before it. With `insert` as `add` a path that occurs
    twice is entered once, and for files the later contents win. -/
def readInto {α β : Type} (read : Reader α) (add : β → α → β) : Nat → β → Reader β
  | 0, acc => pure acc
  | n + 1, acc => do
      let x ← read
      readInto read add n (add acc x)

/-- The loops of `decodeTree` as a reader, before the test that nothing is left over. The maps are built by insertion,
    so a payload need not be sorted to be read. -/
def readTree (payload : Bytes) : Reader FileTree := do
  let directoryCount ← readCount payload
  let directories ← readInto (readString payload) (fun set path => set.insert path ())
    directoryCount OrdMap.empty
  let fileCount ← readCount payload
  let files ← readInto (readFile payload) (fun map file => map.insert file.1 file.2)
    fileCount OrdMap.empty
  pure ⟨files, directories⟩

/-- Every byte of the payload has to be used: what is left over after the last file makes a snapshot as corrupt as
    what is missing. -/
def decodeTree (payload : Bytes) : Except StorageError FileTree :=
  match readTree payload 0 with
  | (.error e, _) => .error e
  | (.ok tree, cursor) => if cursor ≠ payload.length then .error .corruptSnapshot else .ok tree

/-! ## Snapshots -/

/-- 64-bit FNV-1a, over the payload without its padding. It finds torn and damaged payloads; it is no protection
    against somebody who means to forge one. -/
def checksum (bytes : Bytes) : UInt64 :=
  bytes.foldl (fun hash byte => (hash ^^^ byte.toUInt64) * 0x00000100000001b3) 0xcbf29ce484222325

/-- The block that makes a payload count. Only the first 40 bytes carry anything, and four of those are reserved; the
    rest is zero, so that the header is one whole block. -/
def encodeHeader (generation payloadLen payloadChecksum : Nat) : Bytes :=
  magic ++ leBytes 4 formatVersion ++ List.replicate 4 0 ++ leBytes 8 generation ++
    leBytes 8 payloadLen ++ leBytes 8 payloadChecksum ++ List.replicate (blockSize - 40) 0

/-- Source names: `read_u32` and `read_u64`, on a header that is long enough. It always is, since a header is read as
    one block. -/
def headerField (header : Bytes) (offset width : Nat) : Nat :=
  leValue ((header.drop offset).take width)

/-- `div_ceil` by the block size: the blocks that a payload of this length takes up. An empty payload takes up none,
    and `readPadded` and `writeSnapshot` make an exception for it. -/
def blocksFor (length : Nat) : Nat := (length + blockSize - 1) / blockSize

/-- Data, filled up with zeros to whole blocks, as the device takes it. The length in the header is that of the data,
    so the padding is never read back. -/
def padded (data : Bytes) : Bytes :=
  data ++ List.replicate (blocksFor data.length * blockSize - data.length) 0

structure DecodedSnapshot where
  generation : Nat
  tree : FileTree

/-- There is a slot. -/
instance neZero_slots : NeZero 2 := ⟨two_ne_zero⟩

/-- A device in use. `activeSlot` is the half that holds the current snapshot, `none` on a device without one, and
    `generation` is what is written in its header. -/
structure SnapshotStore (D : Type) where
  device : D
  slotBlocks : Nat
  activeSlot : Option (Fin 2)
  generation : Nat

section Device

variable {D : Type} [BlockDevice D]

/-- The bytes of some blocks; none are read when none are asked for, so that a device is not called with an empty
    buffer. -/
def readPadded (first count : Nat) : Op StorageError D Bytes :=
  if count = 0 then pure []
  else (fun (v : Vector UInt8 (count * blockSize)) => v.toList) <$>
    BlockDevice.readBlocks first (count * blockSize)

/-- `readSlot` after the header has been read. A half that was never written, that has no magic, or whose payload does
    not fit or does not match is skipped; an unknown version, or a payload that matches its checksum and still cannot
    be decoded, is an error of the whole `open`. -/
def readPayload (slotStart slotBlocks : Nat) (header : Bytes) :
    Op StorageError D (Option DecodedSnapshot) :=
  if header.all (fun byte => byte == 0) then pure none
  else if header.take 8 ≠ magic then pure none
  else if headerField header 8 4 ≠ formatVersion then
    Op.throw (.unsupportedVersion (headerField header 8 4))
  else
    let payloadLen := headerField header 24 8
    if slotBlocks - 1 < blocksFor payloadLen then pure none
    else do
      let image ← readPadded (slotStart + 1) (blocksFor payloadLen)
      let payload := image.take payloadLen
      if (checksum payload).toNat ≠ headerField header 32 8 then pure none
      else do
        let tree ← Op.ofExcept (decodeTree payload)
        pure (some ⟨headerField header 16 8, tree⟩)

def readSlot (slot : Fin 2) (slotBlocks : Nat) : Op StorageError D (Option DecodedSnapshot) := do
  let slotStart := slot.val * slotBlocks
  let header ← BlockDevice.readBlocks slotStart blockSize
  readPayload slotStart slotBlocks header.toList

/-- The choice between what the two slots hold: the higher generation, and the first slot if they are the same. -/
def selectSlot : Option DecodedSnapshot → Option DecodedSnapshot → Option (Fin 2 × DecodedSnapshot)
  | some left, some right =>
      if left.generation < right.generation then some (1, right) else some (0, left)
  | some snapshot, none => some (0, snapshot)
  | none, some snapshot => some (1, snapshot)
  | none, none => none

namespace SnapshotStore

/-- Source name: `open`. The device is the state; on success the store holds it. The second half is read even when the
    first one has a snapshot, and an error in either of them is the error of the call. -/
def openDevice : Op StorageError D (SnapshotStore D × Option FileTree) := do
  let device ← Op.read
  let slotBlocks := BlockDevice.blockCount device / 2
  if slotBlocks < 2 then Op.throw .deviceTooSmall
  else do
    let first ← readSlot 0 slotBlocks
    let second ← readSlot 1 slotBlocks
    let selected := selectSlot first second
    let device ← Op.read
    pure ({ device, slotBlocks, activeSlot := selected.map Prod.fst,
            generation := (selected.map fun p => p.2.generation).getD 0 },
          selected.map fun p => p.2.tree)

def onDevice {α : Type} (x : Op StorageError D α) : Op StorageError (SnapshotStore D) α :=
  Op.zoom device (fun d s => { s with device := d }) x

/-- The slot the next snapshot goes to: the one that is not in use. The current snapshot is therefore never
    overwritten by the one that is to replace it. -/
def targetSlot (store : SnapshotStore D) : Fin 2 :=
  match store.activeSlot with
  | none => 0
  | some slot => 1 - slot

/-- The generation the next snapshot gets; the addition saturates. After the last number two snapshots have the same
    generation, and `selectSlot` takes the first slot. -/
def nextGeneration (store : SnapshotStore D) : Nat := min (store.generation + 1) (2 ^ 64 - 1)

/-- The device calls of `save`: payload, flush, header, flush. The first flush is what orders the two writes; without
    it a device could keep the header and lose the payload. -/
def writeSnapshot (slotStart generation : Nat) (payload : Bytes) : Op StorageError D Unit := do
  if padded payload = [] then pure ()
  else BlockDevice.writeBlocks (slotStart + 1) (padded payload)
  BlockDevice.flush
  BlockDevice.writeBlocks slotStart
    (encodeHeader generation payload.length (checksum payload).toNat)
  BlockDevice.flush

def save (tree : FileTree) : Op StorageError (SnapshotStore D) Unit := do
  let payload ← Op.ofExcept (encodeTree tree)
  let store ← Op.read
  if store.slotBlocks - 1 < blocksFor payload.length then Op.throw .snapshotTooLarge
  else do
    let target := store.targetSlot
    let generation := store.nextGeneration
    onDevice (writeSnapshot (target.val * store.slotBlocks) generation payload)
    Op.modify fun s => { s with activeSlot := some target, generation }

end SnapshotStore

end Device

end Afos
