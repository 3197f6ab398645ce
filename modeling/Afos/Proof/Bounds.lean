import Afos.Lib.Trace
import Afos.Lib.Run
import Afos.Words
import Afos.Proof.Listing

/-!
# The two slots are all that is touched

Three things about the snapshot store that its safety rests on, whatever bytes a device holds. The store on
machine words does not panic: it is the store over plain numbers, step for step, because every size in it is
bounded by that of a slot before it is used. What it reads and writes, taken from a record of the calls, is
inside one slot and inside the device. And a save leaves the active slot alone, on every device on which a
block only changes when it is written.
-/

set_option autoImplicit false

namespace Afos

open Lib

/-! ## The cursor -/

/-- A cursor moves forward, and from inside `n` bytes not beyond their end. It is a preorder, so it goes through the
    readers of the format by the rules for operations that keep one. -/
def Advances (n cursor cursor' : Nat) : Prop := cursor ≤ cursor' ∧ (cursor ≤ n → cursor' ≤ n)

instance (n : Nat) : IsPreorder Nat (Advances n) where
  refl c := ⟨Nat.le_refl c, id⟩
  trans _ _ _ h h' := ⟨h.1.trans h'.1, fun hc => h'.2 (h.2 hc)⟩

section Cursor

variable (input : Bytes)

theorem advances_take (n : Nat) : Op.Keeps (Advances input.length) (take input n) := by
  intro cursor
  rw [take]
  split
  · rename_i hroom
    exact ⟨Nat.le_add_right _ _, fun _ => hroom⟩
  · exact refl _

theorem advances_takeLe (w : Nat) : Op.Keeps (Advances input.length) (takeLe input w) :=
  (advances_take input w).map _

theorem advances_readCount : Op.Keeps (Advances input.length) (readCount input) :=
  Op.Keeps.bind (advances_takeLe input 4) fun _ => Op.Keeps.ite (Op.Keeps.throw _) (Op.Keeps.pure _)

theorem advances_readString : Op.Keeps (Advances input.length) (readString input) := by
  refine Op.Keeps.bind (advances_takeLe input 4) fun length => Op.Keeps.ite (Op.Keeps.throw _) ?_
  refine Op.Keeps.bind (advances_take input length) fun bytes => ?_
  cases fromUtf8 bytes with
  | none => exact Op.Keeps.throw _
  | some text => exact Op.Keeps.pure _

theorem advances_readFile : Op.Keeps (Advances input.length) (readFile input) :=
  Op.Keeps.bind (advances_readString input) fun _ => Op.Keeps.bind (advances_takeLe input 8) fun length =>
    Op.Keeps.bind (advances_take input length) fun _ => Op.Keeps.pure _

theorem advances_readInto {α β : Type} {read : Reader α} (hread : Op.Keeps (Advances input.length) read)
    (add : β → α → β) (n : Nat) (acc : β) : Op.Keeps (Advances input.length) (readInto read add n acc) := by
  induction n generalizing acc with
  | zero => exact Op.Keeps.pure _
  | succ n ih => exact Op.Keeps.bind hread fun x => ih (add acc x)

theorem advances_readTree : Op.Keeps (Advances input.length) (readTree input) :=
  Op.Keeps.bind (advances_readCount input) fun _ =>
    Op.Keeps.bind (advances_readInto input (advances_readString input) _ _ _) fun _ =>
      Op.Keeps.bind (advances_readCount input) fun _ =>
        Op.Keeps.bind (advances_readInto input (advances_readFile input) _ _ _) fun _ => Op.Keeps.pure _

end Cursor

/-! ## Reading without a panic -/

namespace Words

section Readers

variable {input : Bytes} (h : input.length < 2 ^ 64)

include h

/-- The checked addition fails where the plain one leaves the input, and only there or beyond: an input is shorter than
    `2 ^ 64`, so a sum that is not a word is not a position in it either. -/
theorem take_eq (n : Nat) : take input n = Op.raise (Afos.take input n) := by
  funext cursor
  by_cases hroom : cursor + n ≤ input.length
  · have hplain : Afos.take input n cursor = (.ok ((input.drop cursor).take n), cursor + n) := if_pos hroom
    have hlast : Word.checkedAdd cursor n = some (cursor + n) := if_pos (by omega)
    have hget : Word.get input cursor (cursor + n) = some ((input.drop cursor).take n) := by
      rw [Word.get, if_pos ⟨Nat.le_add_right _ _, hroom⟩, Nat.add_sub_cancel_left]
    rw [Op.raise_of_ok hplain, take, hlast]
    dsimp only
    rw [hget]
  · have hplain : Afos.take input n cursor = (.error .corruptSnapshot, cursor) := if_neg hroom
    have hget : Word.get input cursor (cursor + n) = none := if_neg fun hin => hroom hin.2
    rw [Op.raise_of_error hplain, take, Word.checkedAdd]
    split
    · rfl
    · rename_i last hlast
      split at hlast
      · obtain rfl := Option.some.inj hlast
        rw [hget]
        rfl
      · cases hlast

theorem takeLe_eq (w : Nat) : takeLe input w = Op.raise (Afos.takeLe input w) := by
  rw [takeLe, take_eq h]
  refine Op.raise_bind (f := fun bytes => pure (leValue bytes)) fun cursor bytes cursor' htake => ?_
  obtain ⟨_, ⟨-, hlen⟩, -⟩ := consumes_take w htake
  exact if_pos hlen

/-- A field that the input is long enough for. The source reads it with a fallible reader and so has an error for it,
    which never comes up in a header of a whole block. -/
theorem readLe_eq {S : Type} {offset w : Nat} (hin : offset + w ≤ input.length) :
    (readLe input offset w : Op (Stop StorageError) S Nat) = pure (headerField input offset w) := by
  have htake : Afos.takeLe input w offset = (.ok (headerField input offset w), offset + w) := by
    rw [Afos.takeLe, Op.run_map, Afos.take, if_pos hin]
    rfl
  rw [readLe, takeLe_eq h, Op.raise_of_ok htake]
  rfl

theorem readCount_eq : readCount input = Op.raise (Afos.readCount input) := by
  rw [readCount, takeLe_eq h]
  exact Op.raise_bind fun _ _ _ _ => Op.raise_ite (fun _ => rfl) fun _ => rfl

theorem readString_eq : readString input = Op.raise (Afos.readString input) := by
  rw [readString, takeLe_eq h]
  refine Op.raise_bind fun _ length _ _ => Op.raise_ite (fun _ => rfl) fun _ => ?_
  rw [take_eq h]
  refine Op.raise_bind fun _ bytes _ _ => ?_
  cases fromUtf8 bytes with
  | none => rfl
  | some text => rfl

theorem readFile_eq : readFile input = Op.raise (Afos.readFile input) := by
  rw [readFile, readString_eq h]
  refine Op.raise_bind fun _ path _ _ => ?_
  rw [takeLe_eq h]
  refine Op.raise_bind fun _ length _ _ => ?_
  rw [take_eq h]
  exact Op.raise_bind fun _ _ _ _ => rfl

omit h in
theorem readInto_eq {α β : Type} {read : Reader α} {read' : Afos.Reader α} (hread : read = Op.raise read')
    (add : β → α → β) (n : Nat) (acc : β) :
    readInto read add n acc = Op.raise (Afos.readInto read' add n acc) := by
  induction n generalizing acc with
  | zero => rfl
  | succ n ih =>
    rw [readInto, hread]
    exact Op.raise_bind fun _ x _ _ => (hread ▸ ih (add acc x))

theorem readTree_eq : readTree input = Op.raise (Afos.readTree input) := by
  rw [readTree, readCount_eq h]
  refine Op.raise_bind fun _ directoryCount _ _ => ?_
  rw [readInto_eq (readString_eq h)]
  refine Op.raise_bind fun _ directories _ _ => Op.raise_bind fun _ fileCount _ _ => ?_
  rw [readInto_eq (readFile_eq h)]
  exact Op.raise_bind fun _ _ _ _ => rfl

theorem decodeTree_eq : decodeTree input = (Afos.decodeTree input).mapError Stop.error := by
  rw [decodeTree, Afos.decodeTree, readTree_eq h]
  cases hread : Afos.readTree input 0 with
  | mk r cursor =>
    cases r with
    | error e =>
      rw [Op.raise_of_error hread]
      rfl
    | ok tree =>
      rw [Op.raise_of_ok hread]
      dsimp only
      split
      · rfl
      · rfl

end Readers

/-! ## Slots without a panic -/

theorem divCeil_blocks {S : Type} (n : Nat) :
    (Word.divCeil n blockSize : Op (Stop StorageError) S Nat) = pure (blocksFor n) :=
  Word.divCeil_eq (by decide)

section Device

variable {D : Type} [BlockDevice D]

/-- The buffer for the payload: its size is the product of two words, and has to be one that can be allocated. -/
theorem readPadded_eq {slotStart count : Nat} (hstart : slotStart + 1 < 2 ^ 64)
    (hsize : count * blockSize < 2 ^ 63) :
    (readPadded slotStart count : Op (Stop StorageError) D Bytes) =
      Op.raise (Afos.readPadded (slotStart + 1) count) := by
  have hread : ∀ n, n = count * blockSize →
      ((fun (v : Vector UInt8 n) => v.toList) <$> Op.raise (BlockDevice.readBlocks (D := D) (slotStart + 1) n)) =
        Op.raise ((fun (v : Vector UInt8 (count * blockSize)) => v.toList) <$>
          BlockDevice.readBlocks (slotStart + 1) (count * blockSize)) := by
    rintro _ rfl
    exact Op.raise_map _ _
  rw [readPadded, Word.mul_eq (by omega), Op.pure_bind, Word.bytes_eq hsize, Op.pure_bind, Afos.readPadded,
    List.isEmpty_replicate]
  by_cases hnone : count = 0
  · subst hnone
    rfl
  · have hsome : count * blockSize ≠ 0 := Nat.mul_ne_zero hnone (by decide)
    rw [if_neg (by simpa using hsome), if_neg hnone, Word.add_eq hstart, Op.pure_bind]
    exact hread _ List.length_replicate

theorem length_readPadded {first count : Nat} {d d' : D} {image : Bytes}
    (h : Afos.readPadded first count d = (.ok image, d')) : image.length = count * blockSize := by
  rw [Afos.readPadded] at h
  split at h
  · rename_i hnone
    cases h
    rw [hnone, Nat.zero_mul]
    rfl
  · rcases Op.map_cases h with ⟨e, -, he⟩ | ⟨v, -, hv⟩
    · cases he
    · cases hv
      exact v.size_toArray

/-- A slot of a device whose size in bytes is a word: it lies on the device, and two of its size do. The second is
    what makes room for one more factor of two: a payload that fits into a slot is at most half of the device, and
    so below the `2 ^ 63` bytes that the allocator of the language can be asked for. -/
structure OnDevice (blocks slotStart slotBlocks : Nat) : Prop where
  bytes : blocks * blockSize < 2 ^ 64
  holds : slotStart + slotBlocks ≤ blocks
  twice : 2 * slotBlocks ≤ blocks
  header : 0 < slotBlocks

theorem OnDevice.start_lt {blocks slotStart slotBlocks : Nat} (h : OnDevice blocks slotStart slotBlocks) :
    slotStart + 1 < 2 ^ 64 := by
  obtain ⟨hbytes, hholds, htwice, hheader⟩ := h
  unfold blockSize at hbytes
  omega

/-- What fits after the header can be allocated. -/
theorem OnDevice.size_lt {blocks slotStart slotBlocks count : Nat} (h : OnDevice blocks slotStart slotBlocks)
    (hfits : ¬ slotBlocks - 1 < count) : count * blockSize < 2 ^ 63 := by
  have hlt : count ≤ slotBlocks := (not_lt.mp hfits).trans (Nat.sub_le _ _)
  have hbytes : 2 * (count * blockSize) < 2 * 2 ^ 63 :=
    calc 2 * (count * blockSize) = 2 * count * blockSize := (Nat.mul_assoc _ _ _).symm
      _ ≤ blocks * blockSize := Nat.mul_le_mul_right _ ((Nat.mul_le_mul_left 2 hlt).trans h.twice)
      _ < 2 * 2 ^ 63 := h.bytes
  exact Nat.lt_of_mul_lt_mul_left hbytes

/-- Everything in a header is read before anything is done with it, and the one number that could be too large, the
    length, is compared with the slot first. -/
theorem readPayload_eq {blocks slotStart slotBlocks : Nat} (hslot : OnDevice blocks slotStart slotBlocks)
    {header : Bytes} (hheader : header.length = blockSize) :
    (readPayload slotStart slotBlocks header : Op (Stop StorageError) D (Option DecodedSnapshot)) =
      Op.raise (Afos.readPayload slotStart slotBlocks header) := by
  have hword : header.length < 2 ^ 64 := by rw [hheader]; decide
  have hfield : ∀ offset w, offset + w ≤ 40 →
      (readLe header offset w : Op (Stop StorageError) D Nat) = pure (headerField header offset w) :=
    fun offset w hin => readLe_eq hword (hin.trans (by rw [hheader]; decide))
  refine Op.raise_ite (fun _ => rfl) fun _ => ?_
  rw [Word.slice_eq (by rw [hheader]; decide), Op.pure_bind]
  refine Op.raise_ite (fun _ => rfl) fun _ => ?_
  rw [hfield 8 4 (by decide), Op.pure_bind]
  refine Op.raise_ite (fun _ => rfl) fun _ => ?_
  rw [hfield 16 8 (by decide), Op.pure_bind, hfield 24 8 (by decide), Op.pure_bind, hfield 32 8 (by decide),
    Op.pure_bind, divCeil_blocks, Op.pure_bind, Word.sub_eq hslot.header, Op.pure_bind]
  refine Op.raise_ite (fun _ => rfl) fun hfits => ?_
  -- from here on the length that the header gives is bounded by the slot
  refine (congrArg (· >>= _) (readPadded_eq hslot.start_lt (hslot.size_lt hfits))).trans
    (Op.raise_bind fun _ image _ himage => ?_)
  have hlen : headerField header 24 8 ≤ image.length := by
    rw [length_readPadded himage]
    exact le_blocksFor _
  rw [Word.slice_eq hlen, Op.pure_bind]
  refine Op.raise_ite (fun _ => rfl) fun _ => ?_
  have hpayload : (image.take (headerField header 24 8)).length < 2 ^ 64 := by
    have himage := length_readPadded himage
    have hsize := hslot.size_lt hfits
    rw [List.length_take]
    exact lt_of_le_of_lt ((Nat.min_le_right _ _).trans himage.le) (lt_trans hsize (by decide))
  rw [decodeTree_eq hpayload]
  cases Afos.decodeTree (image.take (headerField header 24 8)) with
  | error e => rfl
  | ok tree => rfl

theorem readSlot_eq {blocks slotBlocks : Nat} {slot : Fin 2}
    (hslot : OnDevice blocks (slot.val * slotBlocks) slotBlocks) :
    (readSlot slot slotBlocks : Op (Stop StorageError) D (Option DecodedSnapshot)) =
      Op.raise (Afos.readSlot slot slotBlocks) := by
  rw [readSlot, Word.mul_eq (lt_trans (Nat.lt_succ_self _) hslot.start_lt), Op.pure_bind]
  exact Op.raise_bind fun _ header _ _ => readPayload_eq hslot header.size_toArray

theorem openDevice_eq {device : D} {blocks : Nat} (hcount : BlockDevice.blockCount device = blocks)
    (hblocks : 4 ≤ blocks) (hslots : ∀ slot : Fin 2, OnDevice blocks (slot.val * (blocks / 2)) (blocks / 2)) :
    openDevice device = Op.raise SnapshotStore.openDevice device := by
  have hlarge : ¬ blocks / 2 < 2 := by omega
  refine (Op.run_bind_ok (Op.run_read device) _).trans
    (Eq.trans ?_ (Op.raise_congr (Op.run_bind_ok (Op.run_read device) _)).symm)
  rw [hcount, if_neg hlarge, if_neg hlarge, readSlot_eq (hslots 0), readSlot_eq (hslots 1)]
  refine Op.run_congr (Op.raise_bind fun _ first _ _ => ?_) device
  exact Op.raise_bind fun _ second _ _ => rfl

omit [BlockDevice D] in
theorem targetSlot_eq (store : SnapshotStore D) :
    targetSlot store = (pure store.targetSlot.val : Op (Stop StorageError) (SnapshotStore D) Nat) := by
  have hother : ∀ slot : Fin 2, slot.val ≤ 1 ∧ 1 - slot.val = (1 - slot : Fin 2).val := by decide
  rw [targetSlot, SnapshotStore.targetSlot]
  cases store.activeSlot with
  | none => rfl
  | some slot =>
    dsimp only
    rw [Word.sub_eq (hother slot).1, (hother slot).2]

theorem copyToFront_padded {S : Type} (payload : Bytes) :
    (Word.copyToFront (List.replicate (blocksFor payload.length * blockSize) 0) payload :
      Op (Stop StorageError) S Bytes) = pure (padded payload) := by
  rw [Word.copyToFront_eq ((le_blocksFor _).trans List.length_replicate.ge), List.drop_replicate, padded]

theorem writeSnapshot_eq {slotStart generation : Nat} {payload : Bytes} (hstart : slotStart + 1 < 2 ^ 64) :
    (writeSnapshot slotStart generation payload (padded payload) : Op (Stop StorageError) D Unit) =
      Op.raise (SnapshotStore.writeSnapshot slotStart generation payload) := by
  have hend : (do
      Op.raise BlockDevice.flush
      Op.raise (BlockDevice.writeBlocks slotStart
        (encodeHeader generation payload.length (checksum payload).toNat))
      Op.raise BlockDevice.flush : Op (Stop StorageError) D Unit) = Op.raise (do
        BlockDevice.flush
        BlockDevice.writeBlocks slotStart
          (encodeHeader generation payload.length (checksum payload).toNat)
        BlockDevice.flush) :=
    Op.raise_bind fun _ _ _ _ => Op.raise_bind fun _ _ _ _ => rfl
  rw [writeSnapshot, SnapshotStore.writeSnapshot, Word.add_eq hstart]
  by_cases hempty : padded payload = []
  · rw [if_pos hempty, if_pos (List.isEmpty_iff.mpr hempty)]
    exact hend
  · rw [if_neg hempty, if_neg (fun h => hempty (List.isEmpty_iff.mp h))]
    exact Op.raise_bind fun _ _ _ _ => hend

/-- A save computes with the length of what it has encoded, which is in memory already, and only after it has found
    that it fits. -/
theorem save_eq {store : SnapshotStore D} {blocks : Nat}
    (hslots : ∀ slot : Fin 2, OnDevice blocks (slot.val * store.slotBlocks) store.slotBlocks)
    (tree : FileTree) : save tree store = Op.raise (SnapshotStore.save tree) store := by
  have hslot := hslots store.targetSlot
  cases hencode : encodeTree tree with
  | error e =>
    rw [save, SnapshotStore.save, hencode]
    rfl
  | ok payload =>
    have hpayload : (Op.ofExcept (encodeTree tree) : Op StorageError (SnapshotStore D) Bytes) store =
        (.ok payload, store) := by rw [Op.run_ofExcept, hencode]
    refine (Op.run_bind_ok (Op.raise_of_ok hpayload) _).trans
      (Eq.trans ?_ (Op.raise_congr (Op.run_bind_ok hpayload _)).symm)
    refine (Op.run_bind_ok (Op.run_read store) _).trans
      (Eq.trans ?_ (Op.raise_congr (Op.run_bind_ok (Op.run_read store) _)).symm)
    -- both sides have read the store, so the rest is about this one only
    rw [divCeil_blocks, Op.pure_bind, Word.sub_eq hslot.header, Op.pure_bind]
    by_cases hfull : store.slotBlocks - 1 < blocksFor payload.length
    · rw [if_pos hfull, if_pos hfull]
      rfl
    · rw [if_neg hfull, if_neg hfull]
      refine Op.run_congr ?_ store
      have hsize := hslot.size_lt hfull
      rw [targetSlot_eq, Op.pure_bind, Word.mul_eq (lt_trans (Nat.lt_succ_self _) hslot.start_lt), Op.pure_bind,
        Word.mul_eq (lt_trans hsize (by decide)), Op.pure_bind, Word.bytes_eq hsize, Op.pure_bind]
      refine (congrArg (· >>= _) (copyToFront_padded payload)).trans ?_
      rw [Op.pure_bind]
      dsimp only
      rw [writeSnapshot_eq hslot.start_lt, Op.raise_zoom]
      refine Op.raise_bind fun _ _ _ _ => ?_
      rw [Fin.ofNat_val_eq_self]
      rfl

end Device

end Words

/-! ## Ranges of blocks in a slot -/

section Ranges

variable {slot : Fin 2} {slotBlocks i : Nat}

theorem blocksFor_mul (count : Nat) : blocksFor (count * blockSize) = count := by
  unfold blocksFor blockSize
  omega

theorem inSlot_header (hpos : 0 < slotBlocks) (hfirst : slot.val * slotBlocks ≤ i)
    (hlast : i < slot.val * slotBlocks + blocksFor blockSize) : InSlot slotBlocks slot i := by
  have hone : blocksFor blockSize = 1 := by decide
  rw [hone] at hlast
  exact ⟨hfirst, by omega⟩

theorem inSlot_payload {count : Nat} (hpos : 0 < slotBlocks) (hfits : count ≤ slotBlocks - 1)
    (hfirst : slot.val * slotBlocks + 1 ≤ i)
    (hlast : i < slot.val * slotBlocks + 1 + blocksFor (count * blockSize)) : InSlot slotBlocks slot i := by
  rw [blocksFor_mul] at hlast
  exact ⟨by omega, by omega⟩

end Ranges

/-! ## The record of a device -/

/-- A call to a block device. -/
inductive BlockCall where
  | read (first len : Nat)
  | write (first : Nat) (data : Bytes)
  | flush

/-- The blocks that a call is about. A flush is about none: it moves no data of its own. -/
def BlockCall.Touches : BlockCall → Nat → Prop
  | .read first len, block => first ≤ block ∧ block < first + blocksFor len
  | .write first data, block => first ≤ block ∧ block < first + blocksFor data.length
  | .flush, _ => False

/-- A device and the calls that were made to it. It is a device itself, so the store runs on it as it is, and what it
    has touched can be read off afterwards. -/
structure Traced (D : Type) where
  inner : D
  calls : List BlockCall

namespace Traced

variable {D α : Type}

instance : HasLog (Traced D) BlockCall := ⟨calls⟩

def call (c : BlockCall) (x : Op StorageError D α) : Op StorageError (Traced D) α := fun t =>
  ((x t.inner).1, ⟨(x t.inner).2, t.calls ++ [c]⟩)

instance [BlockDevice D] : BlockDevice (Traced D) where
  blockCount t := BlockDevice.blockCount t.inner
  readBlocks first len := call (.read first len) (BlockDevice.readBlocks first len)
  writeBlocks first data := call (.write first data) (BlockDevice.writeBlocks first data)
  flush := call .flush BlockDevice.flush

/-- Every call is about blocks of this kind only. -/
def Only (P : Nat → Prop) (calls : List BlockCall) : Prop := ∀ c ∈ calls, ∀ block, c.Touches block → P block

variable {P : Nat → Prop}

theorem only_nil : Only P [] := fun _ h => nomatch h

theorem emits_call {c : BlockCall} (h : ∀ block, c.Touches block → P block) (x : Op StorageError D α) :
    Op.Emits (Only P) (call c x) := by
  refine fun t => ⟨[c], rfl, fun c' hc' => ?_⟩
  obtain rfl := List.mem_singleton.mp hc'
  exact h

theorem calls_bind {β : Type} {Q : Nat → Prop} {x : Op StorageError (Traced D) α}
    {f : α → Op StorageError (Traced D) β} (hx : Op.Emits (Only P) x) (hf : ∀ a, Op.Emits (Only Q) (f a))
    (t : Traced D) : ∃ first second, ((x >>= f) t).2.calls = t.calls ++ (first ++ second) ∧
      Only P first ∧ Only Q second := by
  obtain ⟨first, hfirst, hP⟩ := hx t
  obtain ⟨second, hsecond, hQ⟩ := Op.Emits.after hf only_nil x t
  refine ⟨first, second, ?_, hP, hQ⟩
  rw [← List.append_assoc]
  exact hsecond.trans (congrArg (· ++ second) hfirst)

section Calls

variable [BlockDevice D]

theorem emits_readBlocks {first len : Nat} (h : ∀ block, first ≤ block → block < first + blocksFor len → P block) :
    Op.Emits (Only P) (BlockDevice.readBlocks (D := Traced D) first len) :=
  emits_call (c := .read first len) (fun block hblock => h block hblock.1 hblock.2) _

theorem emits_writeBlocks {first : Nat} {data : Bytes}
    (h : ∀ block, first ≤ block → block < first + blocksFor data.length → P block) :
    Op.Emits (Only P) (BlockDevice.writeBlocks (D := Traced D) first data) :=
  emits_call (c := .write first data) (fun block hblock => h block hblock.1 hblock.2) _

theorem emits_flush : Op.Emits (Only P) (BlockDevice.flush (D := Traced D)) :=
  emits_call (c := .flush) (fun _ h => False.elim h) _

/-- Whatever the header says, what is read of the payload is in the slot. The header may be anything, also the bytes
    of a file that happened to be on the device before. -/
theorem emits_readPayload {slot : Fin 2} {slotBlocks : Nat} (hpos : 0 < slotBlocks) (header : Bytes) :
    Op.Emits (Only (InSlot slotBlocks slot))
      (readPayload (D := Traced D) (slot.val * slotBlocks) slotBlocks header) := by
  unfold readPayload
  refine Op.Emits.ite ((Op.Silent.pure _).emits only_nil) (Op.Emits.ite ((Op.Silent.pure _).emits only_nil)
    (Op.Emits.ite ((Op.Silent.throw _).emits only_nil) ?_))
  dsimp only
  split
  · exact (Op.Silent.pure _).emits only_nil
  · rename_i hfits
    refine Op.Emits.bind_silent ?_ fun image => ?_
    · unfold readPadded
      exact Op.Emits.ite ((Op.Silent.pure _).emits only_nil)
        (Op.Emits.map (emits_readBlocks fun _ => inSlot_payload hpos (not_lt.mp hfits)) _)
    · split
      · exact Op.Silent.pure _
      · intro t
        cases decodeTree (image.take (headerField header 24 8)) with
        | error e => rfl
        | ok tree => rfl

theorem emits_readSlot {slot : Fin 2} {slotBlocks : Nat} (hpos : 0 < slotBlocks) :
    Op.Emits (Only (InSlot slotBlocks slot)) (readSlot (D := Traced D) slot slotBlocks) :=
  Op.Emits.bind (emits_readBlocks fun _ => inSlot_header hpos) fun header =>
    emits_readPayload hpos header.toList

theorem emits_writeSnapshot {slot : Fin 2} {slotBlocks generation : Nat} {payload : Bytes}
    (hpos : 0 < slotBlocks) (hfits : blocksFor payload.length ≤ slotBlocks - 1) :
    Op.Emits (Only (InSlot slotBlocks slot)) (SnapshotStore.writeSnapshot (D := Traced D)
      (slot.val * slotBlocks) generation payload) := by
  rw [SnapshotStore.writeSnapshot_eq]
  refine Op.Emits.bind (Op.Emits.ite ((Op.Silent.pure _).emits only_nil) (emits_writeBlocks ?_)) fun _ =>
    Op.Emits.bind emits_flush fun _ => Op.Emits.bind (emits_writeBlocks ?_) fun _ => emits_flush
  · rw [length_padded]
    exact fun _ => inSlot_payload hpos hfits
  · rw [length_encodeHeader]
    exact fun _ => inSlot_header hpos

end Calls

end Traced

/-! ## What is not written stays -/

/-- A device on which a block keeps what it holds for sure, unless a call writes it. What "for sure" means is left to
    the device: on one with a cache, what is on the medium; on one without, what was written last. A call may fail
    and still have written. -/
structure WritesOnly {D : Type} [BlockDevice D] (Holds : D → Nat → Block → Prop) : Prop where
  write : ∀ first data d i block, ¬ (first ≤ i ∧ i < first + blocksFor data.length) → Holds d i block →
    Holds (BlockDevice.writeBlocks first data d).2 i block
  flush : ∀ d i block, Holds d i block → Holds (BlockDevice.flush d).2 i block

/-- On a disk with a cache, a block holds for sure what is on the medium: it reads as that, and a crash leaves it. -/
theorem Disk.writesOnly : WritesOnly fun (d : Disk) i block => d.cells.Settled i ∧ d.cells.content i = block where
  write first data d i block hout h := by
    have hadmits : d.Admits (fun j _ => first ≤ j ∧ j < first + blocksFor data.length)
        (BlockDevice.writeBlocks first data d).2 := by
      refine Disk.keeps_writeBlocks (fun j _ hspread => ?_) d
      obtain ⟨hfirst, hlast⟩ := spread_range hspread
      refine ⟨hfirst, lt_of_lt_of_le hlast (Nat.add_le_add_left ?_ _)⟩
      exact Nat.div_le_div_right (by unfold blockSize; omega)
    obtain ⟨hcontent, hsettled⟩ := h.1.keep hadmits.2 fun _ => hout
    exact ⟨hsettled, hcontent.trans h.2⟩
  flush d i block h := by
    have hadmits : d.Admits (fun _ _ => False) (BlockDevice.flush d).2 := Disk.keeps_flush d
    obtain ⟨hcontent, hsettled⟩ := h.1.keep hadmits.2 fun _ => id
    exact ⟨hsettled, hcontent.trans h.2⟩

section Frame

variable {D : Type} [BlockDevice D] {Holds : D → Nat → Block → Prop}

theorem WritesOnly.traced (h : WritesOnly Holds) : WritesOnly fun (t : Traced D) => Holds t.inner where
  write first data t := h.write first data t.inner
  flush t := h.flush t.inner

/-- Block `i` still holds what it held. -/
def Still (Holds : D → Nat → Block → Prop) (i : Nat) (d d' : D) : Prop :=
  ∀ block, Holds d i block → Holds d' i block

omit [BlockDevice D] in
instance (i : Nat) : IsPreorder D (Still Holds i) where
  refl _ _ h := h
  trans _ _ _ h h' block hblock := h' block (h block hblock)

/-- A snapshot in one slot leaves a block of the other one alone, at each of the four device calls, whether or not
    they succeed. -/
theorem WritesOnly.keeps_writeSnapshot (h : WritesOnly Holds) {slot : Fin 2} {slotBlocks generation i : Nat}
    {payload : Bytes} (hpos : 0 < slotBlocks) (hfits : blocksFor payload.length ≤ slotBlocks - 1)
    (hi : ¬ InSlot slotBlocks slot i) : Op.Keeps (Still Holds i)
      (SnapshotStore.writeSnapshot (D := D) (slot.val * slotBlocks) generation payload) := by
  have hwrite : ∀ {first : Nat} {data : Bytes},
      (first ≤ i → i < first + blocksFor data.length → InSlot slotBlocks slot i) →
      Op.Keeps (Still Holds i) (BlockDevice.writeBlocks (D := D) first data) :=
    fun hin d block => h.write _ _ d i block fun hrange => hi (hin hrange.1 hrange.2)
  have hflush : Op.Keeps (Still Holds i) (BlockDevice.flush (D := D)) := fun d => h.flush d i
  rw [SnapshotStore.writeSnapshot_eq]
  refine Op.Keeps.bind (Op.Keeps.ite (Op.Keeps.pure _) (hwrite ?_)) fun _ =>
    Op.Keeps.bind hflush fun _ => Op.Keeps.bind (hwrite ?_) fun _ => hflush
  · rw [length_padded]
    exact inSlot_payload hpos hfits
  · rw [length_encodeHeader]
    exact inSlot_header hpos

namespace SnapshotStore

variable {store : SnapshotStore D}

omit [BlockDevice D] in
theorem targetSlot_ne {slot : Fin 2} (h : store.activeSlot = some slot) : slot ≠ store.targetSlot := by
  have hother : ∀ slot : Fin 2, slot ≠ 1 - slot := by decide
  rw [targetSlot, h]
  exact hother slot

/-- All that a save does to the device is to write a snapshot that fits, if anything; and the size of the slots stays
    as it was found when the store was opened. -/
theorem save_device (tree : FileTree) (store : SnapshotStore D) :
    (save tree store).2.slotBlocks = store.slotBlocks ∧
      ((save tree store).2.device = store.device ∨
        ∃ payload : Bytes, blocksFor payload.length ≤ store.slotBlocks - 1 ∧
          (save tree store).2.device = (writeSnapshot (store.targetSlot.val * store.slotBlocks)
            store.nextGeneration payload store.device).2) := by
  cases hrun : save tree store with
  | mk r store' =>
    rcases save_cases hrun with ⟨e, -, rfl⟩ | ⟨payload, -, hfits, d', ⟨e, hwrite, -, rfl⟩ | ⟨hwrite, -, rfl⟩⟩
    · exact ⟨rfl, Or.inl rfl⟩
    · exact ⟨rfl, Or.inr ⟨payload, hfits, by rw [hwrite]⟩⟩
    · exact ⟨rfl, Or.inr ⟨payload, hfits, by rw [hwrite]⟩⟩

/-- **Frame.** Whether a save works or not, the active slot holds what it held. -/
theorem holds_save (h : WritesOnly Holds) (hpos : 0 < store.slotBlocks) (tree : FileTree) {slot : Fin 2} {i : Nat}
    (hactive : store.activeSlot = some slot) (hi : InSlot store.slotBlocks slot i) :
    Still Holds i store.device (save tree store).2.device := by
  have hother : ¬ InSlot store.slotBlocks store.targetSlot i :=
    not_inSlot_of_inSlot hi (targetSlot_ne hactive).symm
  rcases (save_device tree store).2 with hsame | ⟨payload, hfits, hwritten⟩
  · rw [hsame]
    exact refl _
  · rw [hwritten]
    exact h.keeps_writeSnapshot hpos hfits hother store.device

/-- What a save writes is in the slot that is not active. -/
theorem calls_save {store : SnapshotStore (Traced D)} (hpos : 0 < store.slotBlocks) (tree : FileTree) :
    ∃ calls, (save tree store).2.device.calls = store.device.calls ++ calls ∧
      Traced.Only (InSlot store.slotBlocks store.targetSlot) calls := by
  rcases (save_device tree store).2 with hsame | ⟨payload, hfits, hwritten⟩
  · rw [hsame]
    exact ⟨[], (List.append_nil _).symm, Traced.only_nil⟩
  · rw [hwritten]
    exact Traced.emits_writeSnapshot hpos hfits store.device

theorem slotBlocks_openDevice {device device' : D} {tree? : Option FileTree}
    (h : openDevice device = (.ok (store, tree?), device')) :
    store.slotBlocks = BlockDevice.blockCount device / 2 := by
  rw [openDevice, Op.run_bind_ok (Op.run_read device)] at h
  split at h
  · cases h
  · obtain ⟨first, d₁, -, h⟩ := Op.bind_ok h
    obtain ⟨second, d₂, -, h⟩ := Op.bind_ok h
    cases h
    rfl

/-- What `open` reads is in the first slot, and then in the second; the second part is empty if the first slot cannot
    be read. -/
theorem calls_openDevice {device : Traced D} {blocks : Nat} (hcount : BlockDevice.blockCount device = blocks)
    (hblocks : 4 ≤ blocks) : ∃ first second,
      (openDevice device).2.calls = device.calls ++ (first ++ second) ∧
        Traced.Only (InSlot (blocks / 2) 0) first ∧ Traced.Only (InSlot (blocks / 2) 1) second := by
  have hlarge : ¬ blocks / 2 < 2 := by omega
  have hpos : 0 < blocks / 2 := by omega
  rw [openDevice, Op.run_bind_ok (Op.run_read device), hcount, if_neg hlarge]
  exact Traced.calls_bind (Traced.emits_readSlot hpos) (fun first => Op.Emits.bind_silent
    (Traced.emits_readSlot hpos) fun second => Op.Silent.read_bind fun _ => Op.Silent.pure _) device

theorem inSlot_lt {blocks i : Nat} {slot : Fin 2} (h : InSlot (blocks / 2) slot i) : i < blocks :=
  lt_of_lt_of_le h.2 (slot_le blocks slot)

theorem onDevice_slot {blocks : Nat} (hblocks : 4 ≤ blocks) (hbytes : blocks * blockSize < 2 ^ 64)
    (slot : Fin 2) : Words.OnDevice blocks (slot.val * (blocks / 2)) (blocks / 2) :=
  ⟨hbytes, slot_le blocks slot, Nat.mul_div_le blocks 2, by omega⟩

/-- **Bounds and frame of the two slots.** On a device of at least four blocks whose size in bytes is a word,
    whatever it holds and answers: `open` reads the first slot and then the second, and nothing outside them
    or the device, and does not panic; reading a tree does not panic on any payload, and its cursor stays in
    it; and after any saves, a further one does not panic, writes only blocks of the device in the slot that
    is not active, and leaves every block of the active one with what it holds, whether it succeeds or not. -/
theorem slots_bounded_and_framed (hframe : WritesOnly Holds) (device : Traced D) {blocks : Nat}
    (hcount : BlockDevice.blockCount device = blocks) (hblocks : 4 ≤ blocks)
    (hbytes : blocks * blockSize < 2 ^ 64) :
    ((∃ first second, (openDevice device).2.calls = device.calls ++ (first ++ second) ∧
        Traced.Only (fun i => InSlot (blocks / 2) 0 i ∧ i < blocks) first ∧
        Traced.Only (fun i => InSlot (blocks / 2) 1 i ∧ i < blocks) second) ∧
      Words.openDevice device = Op.raise openDevice device ∧
      (Words.openDevice device).1 ≠ .error .panic) ∧
    (∀ payload : Bytes, payload.length < 2 ^ 64 →
      Words.decodeTree payload = (decodeTree payload).mapError Stop.error ∧
        Words.decodeTree payload ≠ .error .panic ∧ (Words.readTree payload 0).2 ≤ payload.length) ∧
    ∀ store tree? device', openDevice device = (.ok (store, tree?), device') →
      ∀ trees tree before, before = runFrom (fun store tree => (save tree store).2) store trees →
        (Words.save tree before = Op.raise (save tree) before ∧
          (Words.save tree before).1 ≠ .error .panic) ∧
        (∃ calls, (save tree before).2.device.calls = before.device.calls ++ calls ∧
          Traced.Only (fun i => InSlot (blocks / 2) before.targetSlot i ∧ i < blocks) calls) ∧
        ∀ slot, before.activeSlot = some slot → slot ≠ before.targetSlot ∧
          ∀ i, InSlot (blocks / 2) slot i → ∀ block, Holds before.device.inner i block →
            Holds (save tree before).2.device.inner i block := by
  have hslots := onDevice_slot hblocks hbytes
  have honly : ∀ {slot : Fin 2} {calls : List BlockCall}, Traced.Only (InSlot (blocks / 2) slot) calls →
      Traced.Only (fun i => InSlot (blocks / 2) slot i ∧ i < blocks) calls :=
    fun h c hc i hi => ⟨h c hc i hi, inSlot_lt (h c hc i hi)⟩
  refine ⟨⟨?_, ?_⟩, fun payload hword => ?_, fun store tree? device' hopen trees tree before hrun => ?_⟩
  · obtain ⟨first, second, hcalls, hfirst, hsecond⟩ := calls_openDevice hcount hblocks
    exact ⟨first, second, hcalls, honly hfirst, honly hsecond⟩
  · rw [Words.openDevice_eq hcount hblocks hslots]
    exact ⟨rfl, Op.raise_ne_panic _ _⟩
  · rw [Words.decodeTree_eq hword, Words.readTree_eq hword, Op.snd_raise]
    refine ⟨rfl, ?_, (advances_readTree payload 0).2 (Nat.zero_le _)⟩
    cases decodeTree payload with
    | error e => exact fun h => nomatch h
    | ok tree => exact fun h => nomatch h
  · -- no save changes the size of the slots, so it is still half of the device
    have hsize : before.slotBlocks = blocks / 2 := by
      rw [hrun]
      refine Along.invariant (fun store : SnapshotStore (Traced D) => store.slotBlocks = blocks / 2)
        (fun store tree h _ => (save_device tree store).1.trans h)
        (Along.of_forall (fun _ _ => trivial) store trees) ?_
      rw [slotBlocks_openDevice hopen, hcount]
    have hpos : 0 < before.slotBlocks := by omega
    refine ⟨?_, ?_, fun slot hactive => ⟨targetSlot_ne hactive, fun i hi => ?_⟩⟩
    · rw [Words.save_eq (hsize ▸ hslots) tree]
      exact ⟨rfl, Op.raise_ne_panic _ _⟩
    · obtain ⟨calls, hcalls, hin⟩ := calls_save hpos tree
      exact ⟨calls, hcalls, honly (hsize ▸ hin)⟩
    · exact holds_save hframe.traced hpos tree hactive (hsize.symm ▸ hi)

end SnapshotStore

end Frame

namespace SnapshotStore

/-- A disk of four blocks with a tree in its first slot, under a record. -/
def tracedDisk : Traced Disk := ⟨heldAt 5 (directoryTree 'a'), []⟩

/-- The second tree is saved beside the first one. -/
theorem second_save_bounded_and_framed : ∃ store tree? device',
    openDevice tracedDisk = (.ok (store, tree?), device') ∧ store.activeSlot = some 0 ∧
      (Words.save (directoryTree 'b') store).1 ≠ .error .panic ∧
      (∃ calls, (save (directoryTree 'b') store).2.device.calls = store.device.calls ++ calls ∧
        Traced.Only (fun i => InSlot 2 store.targetSlot i ∧ i < 4) calls) ∧
      ∀ i, InSlot 2 0 i → ∀ block, store.device.inner.cells.Settled i ∧
        store.device.inner.cells.content i = block →
          (save (directoryTree 'b') store).2.device.inner.cells.Settled i ∧
            (save (directoryTree 'b') store).2.device.inner.cells.content i = block := by
  obtain ⟨⟨store, tree?⟩, hopen, h⟩ := exists_ok_of_all (x := (openDevice tracedDisk).1)
    (p := fun r => decide (r.1.activeSlot = some 0)) (by decide +kernel)
  have hactive := of_decide_eq_true h
  cases hrun : openDevice tracedDisk with
  | mk r device' =>
    rw [hrun] at hopen
    obtain rfl := hopen
    obtain ⟨-, -, hsaves⟩ := slots_bounded_and_framed Disk.writesOnly tracedDisk rfl (by decide) (by decide)
    obtain ⟨⟨-, hpanic⟩, hcalls, hkept⟩ := hsaves store tree? device' hrun [] (directoryTree 'b') store rfl
    exact ⟨store, tree?, device', rfl, hactive, hpanic, hcalls, (hkept 0 hactive).2⟩

end SnapshotStore

end Afos
