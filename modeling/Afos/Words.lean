import Afos.Storage
import Afos.Lib.Checked

/-!
# The snapshot store on machine words

The reading and the saving of `crates/afos-storage/src/lib.rs` once more, with what `Storage` leaves out: every
sum, difference and product of sizes is one of 64-bit words and panics where it overflows, and so does every
slice that is out of range. Where the source asks instead (`checked_add`, `slice::get`, `try_into`), the answer
is an error as there.

Conversions between `usize` and `u64` are left out on this side too, since they cannot fail on a 64-bit target.
The slot of the source is a `u64` that is 0 or 1.
-/

set_option autoImplicit false

namespace Afos.Words

open Lib

/-! ## Reading a tree -/

abbrev Reader := Op (Stop StorageError) Nat

/-- An error of the store, for its caller. Both this and a panic end a computation, and the results about this module
    are about the difference. -/
def corrupt {S α : Type} : Op (Stop StorageError) S α := Op.throw (.error .corruptSnapshot)

/-- `checked_add` and then `get`, as the source has them. The other model has only the range test, and the proof that
    the two agree is where the overflow test is shown to refuse nothing more. -/
def take (input : Bytes) (length : Nat) : Reader Bytes := fun cursor =>
  match Word.checkedAdd cursor length with
  | none => corrupt cursor
  | some last =>
    match Word.get input cursor last with
    | none => corrupt cursor
    | some bytes => (.ok bytes, last)

/-- Source names: `take_u32` and `take_u64`. The conversion to an array fails when the number of bytes is not the
    width, and that is the test here. -/
def takeLe (input : Bytes) (width : Nat) : Reader Nat := do
  let bytes ← take input width
  if bytes.length = width then pure (leValue bytes) else corrupt

/-- Source names: `read_u32` and `read_u64`, which read at an offset with a cursor of their own and leave no cursor
    behind. -/
def readLe {S : Type} (input : Bytes) (offset width : Nat) : Op (Stop StorageError) S Nat :=
  Op.ofExcept (takeLe input width offset).1

def readCount (input : Bytes) : Reader Nat := do
  let count ← takeLe input 4
  if maxEntryCount < count then corrupt else pure count

def readString (input : Bytes) : Reader Str := do
  let length ← takeLe input 4
  if maxPathLen < length then corrupt
  else do
    let bytes ← take input length
    match fromUtf8 bytes with
    | some text => pure text
    | none => corrupt

def readFile (input : Bytes) : Reader (Str × Bytes) := do
  let path ← readString input
  let length ← takeLe input 8
  let data ← take input length
  pure (path, data)

def readInto {α β : Type} (read : Reader α) (add : β → α → β) : Nat → β → Reader β
  | 0, acc => pure acc
  | n + 1, acc => do
      let x ← read
      readInto read add n (add acc x)

def readTree (payload : Bytes) : Reader FileTree := do
  let directoryCount ← readCount payload
  let directories ← readInto (readString payload) (fun set path => set.insert path ())
    directoryCount OrdMap.empty
  let fileCount ← readCount payload
  let files ← readInto (readFile payload) (fun map file => map.insert file.1 file.2)
    fileCount OrdMap.empty
  pure ⟨files, directories⟩

def decodeTree (payload : Bytes) : Except (Stop StorageError) FileTree :=
  match readTree payload 0 with
  | (.error e, _) => .error e
  | (.ok tree, cursor) =>
      if cursor ≠ payload.length then .error (.error .corruptSnapshot) else .ok tree

/-! ## Slots -/

section Device

variable {D : Type} [BlockDevice D]

/-- A buffer of zeros for some blocks, filled from the device unless it is empty. The size is a product that can
    overflow on its own, so it is computed with the machine's arithmetic. -/
def readPadded (slotStart count : Nat) : Op (Stop StorageError) D Bytes := do
  let size ← Word.mul count blockSize
  let buffer ← Word.bytes 0 size
  if buffer.isEmpty then pure buffer
  else do
    let first ← Word.add slotStart 1
    (fun (v : Vector UInt8 buffer.length) => v.toList) <$> Op.raise (BlockDevice.readBlocks first buffer.length)

/-- `read_slot` after the header has been read, field by field and in the order of the source: all three numbers are
    read before the first of them is used. -/
def readPayload (slotStart slotBlocks : Nat) (header : Bytes) :
    Op (Stop StorageError) D (Option DecodedSnapshot) := do
  if header.all (fun byte => byte == 0) then pure none
  else do
  let start ← Word.slice header 0 magic.length
  if start ≠ magic then pure none
  else do
  let version ← readLe header 8 4
  if version ≠ formatVersion then Op.throw (.error (.unsupportedVersion version))
  else do
  let generation ← readLe header 16 8
  let payloadLen ← readLe header 24 8
  let expectedChecksum ← readLe header 32 8
  let payloadBlocks ← Word.divCeil payloadLen blockSize
  let availableBlocks ← Word.sub slotBlocks 1
  if availableBlocks < payloadBlocks then pure none
  else do
  let padded ← readPadded slotStart payloadBlocks
  -- the length is the header's, the buffer's is that of whole blocks
  let payload ← Word.slice padded 0 payloadLen
  if (checksum payload).toNat ≠ expectedChecksum then pure none
  else do
  let tree ← Op.ofExcept (decodeTree payload)
  pure (some ⟨generation, tree⟩)

def readSlot (slot : Fin 2) (slotBlocks : Nat) : Op (Stop StorageError) D (Option DecodedSnapshot) := do
  let slotStart ← Word.mul slot.val slotBlocks
  let header ← Op.raise (BlockDevice.readBlocks slotStart blockSize)
  readPayload slotStart slotBlocks header.toList

/-- Source name: `open`. The halves are computed by a division, which does not overflow, and tested before anything is
    multiplied by them. -/
def openDevice : Op (Stop StorageError) D (SnapshotStore D × Option FileTree) := do
  let device ← Op.read
  let slotBlocks := BlockDevice.blockCount device / 2
  if slotBlocks < 2 then Op.throw (.error .deviceTooSmall)
  else do
    let first ← readSlot 0 slotBlocks
    let second ← readSlot 1 slotBlocks
    let selected := selectSlot first second
    let device ← Op.read
    pure ({ device, slotBlocks, activeSlot := selected.map Prod.fst,
            generation := (selected.map fun p => p.2.generation).getD 0 },
          selected.map fun p => p.2.tree)

/-- `1 - slot` in unsigned arithmetic. It would stop the machine for a slot above 1, which the type of `active_slot`
    in the source, a plain number, does not exclude. -/
def targetSlot (store : SnapshotStore D) : Op (Stop StorageError) (SnapshotStore D) Nat :=
  match store.activeSlot with
  | none => pure 0
  | some slot => Word.sub 1 slot.val

/-- The device calls of `save`, with the padded buffer as an argument, since its length is computed by the caller and
    may overflow there. -/
def writeSnapshot (slotStart generation : Nat) (payload padded : Bytes) : Op (Stop StorageError) D Unit := do
  if padded.isEmpty then pure ()
  else do
    let first ← Word.add slotStart 1
    Op.raise (BlockDevice.writeBlocks first padded)
  Op.raise BlockDevice.flush
  Op.raise (BlockDevice.writeBlocks slotStart
    (encodeHeader generation payload.length (checksum payload).toNat))
  Op.raise BlockDevice.flush

/-- `save` with every operation that could overflow, run out of range or fail to allocate written as such, in the
    order in which the source performs them. -/
def save (tree : FileTree) : Op (Stop StorageError) (SnapshotStore D) Unit := do
  let payload ← Op.raise (Op.ofExcept (encodeTree tree))
  let store ← Op.read
  let payloadBlocks ← Word.divCeil payload.length blockSize
  let availableBlocks ← Word.sub store.slotBlocks 1
  if availableBlocks < payloadBlocks then Op.throw (.error .snapshotTooLarge)
  else do
    let target ← targetSlot store
    let slotStart ← Word.mul target store.slotBlocks
    let size ← Word.mul payloadBlocks blockSize
    let buffer ← Word.bytes 0 size
    let padded ← Word.copyToFront buffer payload
    -- `saturating_add`, which does not overflow
    let generation := store.nextGeneration
    Op.zoom SnapshotStore.device (fun d s => { s with device := d })
      (writeSnapshot slotStart generation payload padded)
    Op.modify fun s => { s with activeSlot := some (Fin.ofNat 2 target), generation }

end Device

end Afos.Words
