import Afos.Lib.Fold
import Afos.Proof.Reopen

/-!
# Damage to a payload

The checksum is a fold of steps that are injective both ways: exclusive or with a byte is, and so is
multiplication by an odd number modulo `2 ^ 64`, which has an inverse. So a payload with one byte
changed has another checksum, wherever the byte is; its slot is dropped and the other one is used.
What comes after a payload, up to the end of its last block, is not looked at.
-/

set_option autoImplicit false

namespace Afos

open Lib

/-! ## The checksum -/

/-- One step of `checksum`: the byte is mixed in, and the result is spread over the word. -/
def checksumStep (hash : UInt64) (byte : UInt8) : UInt64 :=
  (hash ^^^ byte.toUInt64) * 0x00000100000001b3

/-- The multiplier of the checksum has an inverse, as it is odd. That is what keeps a difference between two states
    from being lost in a later step. -/
theorem multiplier_mul_inverse : (0x00000100000001b3 : UInt64) * 0xce965057aff6957b = 1 := by decide

theorem mul_multiplier_injective :
    Function.Injective fun hash : UInt64 => hash * 0x00000100000001b3 := by
  intro hash hash' h
  have hinverse := congrArg (· * (0xce965057aff6957b : UInt64)) h
  simpa only [UInt64.mul_assoc, multiplier_mul_inverse, UInt64.mul_one] using hinverse

theorem checksumStep_injective_hash (byte : UInt8) :
    Function.Injective fun hash => checksumStep hash byte := by
  intro hash hash' h
  exact (UInt64.xor_left_inj _).mp (mul_multiplier_injective h)

theorem checksumStep_injective_byte (hash : UInt64) : Function.Injective (checksumStep hash) := by
  intro byte byte' h
  exact UInt8.toUInt64_inj.mp ((UInt64.xor_right_inj _).mp (mul_multiplier_injective h))

/-- One byte changed, whichever and to whatever, is another checksum. Two changes may cancel each other, so this is as
    far as it goes. -/
theorem checksum_set_ne {bytes : Bytes} {i : Nat} {byte : UInt8} (hi : i < bytes.length)
    (hbyte : bytes[i]? ≠ some byte) : checksum (bytes.set i byte) ≠ checksum bytes :=
  foldl_set_ne checksumStep_injective_hash checksumStep_injective_byte hi hbyte _

/-! ## Bytes of a disk that have changed -/

theorem Block.eq_of_bytes {block block' : Block} (h : block.bytes = block'.bytes) : block = block' := by
  cases block
  cases block'
  cases h
  rfl

/-- A block of which some bytes have changed, `change` by their places on the disk. -/
def Block.patched (change : Nat → Option UInt8) (place : Nat) (block : Block) : Block where
  bytes := block.bytes.mapIdx fun j byte => (change (place + j)).getD byte
  length_bytes := by rw [List.length_mapIdx, block.length_bytes]

/-- A disk of which some bytes have changed, and on which nothing fails from then on. -/
def Disk.patched (change : Nat → Option UInt8) (d : Disk) : Disk :=
  Disk.holding d.blockCount fun i => (d.cells.content i).patched change (i * blockSize)

/-- Exactly one byte changes, the one in this place. It may be changed to what it was, and then nothing is damaged. -/
def single (place : Nat) (byte : UInt8) (k : Nat) : Option UInt8 :=
  if k = place then some byte else none

/-- Where on the disk the payload of a slot begins, in bytes: behind the header, which is one block. -/
def Disk.payloadPlace (d : Disk) (slot : Fin 2) : Nat :=
  (slot.val * (d.blockCount / 2) + 1) * blockSize

section Patches

variable {change : Nat → Option UInt8} {d : Disk}

theorem mapIdx_of_none {l : Bytes} {place : Nat} (h : ∀ k, k < l.length → change (place + k) = none) :
    l.mapIdx (fun k byte => (change (place + k)).getD byte) = l := by
  refine List.ext_getElem? fun k => ?_
  rw [List.getElem?_mapIdx]
  cases hk : l[k]? with
  | none => rfl
  | some byte =>
    rw [Option.map_some, h k (List.getElem?_eq_some_iff.mp hk).1]
    rfl

/-- A change of one byte, by its place in a list. -/
theorem mapIdx_single (l : Bytes) (place offset : Nat) (byte : UInt8) :
    l.mapIdx (fun k b => (single (place + offset) byte (place + k)).getD b) = l.set offset byte := by
  refine List.ext_getElem? fun k => ?_
  rw [List.getElem?_mapIdx, List.getElem?_set]
  -- the byte that changes, if there is one in its place, and all the others
  by_cases hk : offset = k
  · subst hk
    rw [if_pos rfl]
    cases ho : l[offset]? with
    | none =>
      rw [if_neg (by simpa using ho)]
      rfl
    | some b =>
      rw [if_pos (List.getElem?_eq_some_iff.mp ho).1]
      simp [single]
  · rw [if_neg hk]
    cases l[k]? with
    | none => rfl
    | some b => simp [single, Ne.symm hk]

theorem bytesAt_patched (first count : Nat) :
    bytesAt (d.patched change).cells.content first count =
      (bytesAt d.cells.content first count).mapIdx
        fun k byte => (change (first * blockSize + k)).getD byte := by
  -- by the blocks: each is patched by the places it has on the disk
  induction count with
  | zero => rfl
  | succ count ih =>
    have hsucc : ∀ content : Nat → Block, bytesAt content first (count + 1) =
        bytesAt content first count ++ (content (first + count)).bytes := fun content => by
      rw [bytesAt, bytesAt, List.range_succ, List.flatMap_append, List.flatMap_singleton]
    rw [hsucc, hsucc, List.mapIdx_append, ih, length_bytesAt]
    have hplace : ∀ k, first * blockSize + (k + count * blockSize) =
        (first + count) * blockSize + k := fun k => by ring
    simp only [hplace]
    rfl

theorem payloadAt_patched (start len : Nat) :
    (d.patched change).payloadAt start len =
      (d.payloadAt start len).mapIdx
        fun k byte => (change ((start + 1) * blockSize + k)).getD byte := by
  rw [Disk.payloadAt, Disk.payloadAt, bytesAt_patched]
  refine List.ext_getElem? fun k => ?_
  simp only [List.getElem?_take, List.getElem?_mapIdx]
  split <;> rfl

theorem content_patched {i : Nat} (h : ∀ j, j < blockSize → change (i * blockSize + j) = none) :
    (d.patched change).cells.content i = d.cells.content i := by
  have hbytes : ((d.patched change).cells.content i).bytes = (d.cells.content i).bytes :=
    mapIdx_of_none (by rwa [(d.cells.content i).length_bytes])
  exact Block.eq_of_bytes hbytes

end Patches

/-! ## A slot whose payload has changed -/

section Slots

variable {change : Nat → Option UInt8} {d : Disk} {slot : Fin 2} {g : Nat} {tree : FileTree}

/-- The changes are in the blocks behind the header of a slot. So the header still says what it said, and the other
    slot is not touched. -/
def BehindHeader (d : Disk) (slot : Fin 2) (change : Nat → Option UInt8) : Prop :=
  ∀ k, change k ≠ none → d.payloadPlace slot ≤ k ∧
    k < (slot.val * (d.blockCount / 2) + d.blockCount / 2) * blockSize

/-- Only blocks behind the header change, so what the headers say, and what the other slot holds, is as it was. -/
theorem BehindHeader.content (h : BehindHeader d slot change) {i : Nat}
    (hi : i ≤ slot.val * (d.blockCount / 2) ∨ ¬ InSlot (d.blockCount / 2) slot i) :
    (d.patched change).cells.content i = d.cells.content i := by
  refine content_patched fun j hj => by_contra fun hne => ?_
  have hplace := h _ hne
  rw [Disk.payloadPlace] at hplace
  rw [InSlot] at hi
  simp only [blockSize] at hplace hj
  omega

/-- The other slot is as it was, snapshot and all, and can be found again when this one is dropped. -/
theorem BehindHeader.intact_other (h : BehindHeader d slot change)
    (hintact : d.Intact (d.blockCount / 2) (1 - slot) g tree) (hpos : 0 < d.blockCount / 2) :
    (d.patched change).Intact (d.blockCount / 2) (1 - slot) g tree := by
  refine hintact.keep hpos fun block hblock => h.content (Or.inr ?_)
  exact not_inSlot_of_inSlot hblock (by fin_cases slot <;> decide)

section Payload

variable {payload : Bytes} (hintact : d.Intact (d.blockCount / 2) slot g tree)
  (hpayload : encodeTree tree = .ok payload) (hpos : 0 < d.blockCount / 2)
include hintact hpayload

theorem Intact.payload_eq :
    payload.length < 2 ^ 64 ∧ blocksFor payload.length ≤ d.blockCount / 2 - 1 ∧
      d.cells.content (slot.val * (d.blockCount / 2)) = headerBlock g payload ∧
      d.payloadAt (slot.val * (d.blockCount / 2)) payload.length = payload := by
  obtain ⟨-, p, hp, hlen, hfit, hheader, hat⟩ := hintact
  obtain rfl := Except.ok.inj (hp.symm.trans hpayload)
  exact ⟨hlen, hfit, hheader, hat⟩

include hpos

/-- Bytes of the payload and of its padding are behind the header and in the slot, because the payload was saved only
    where it fits. -/
theorem behindHeader_of_image
    (h : ∀ k, change k ≠ none → d.payloadPlace slot ≤ k ∧
      k < d.payloadPlace slot + blocksFor payload.length * blockSize) :
    BehindHeader d slot change := by
  obtain ⟨-, hfit, -, -⟩ := Intact.payload_eq hintact hpayload
  intro k hk
  refine ⟨(h k hk).1, (h k hk).2.trans_le ?_⟩
  rw [Disk.payloadPlace, ← Nat.add_mul]
  exact Nat.mul_le_mul_right _ (by omega)

/-- With a byte of the payload changed, the slot is dropped. It is no error: the slot is read as if there were nothing
    in it. -/
theorem read_of_damaged {offset : Nat} {byte : UInt8} (hoffset : offset < payload.length)
    (hbyte : payload[offset]? ≠ some byte) :
    BehindHeader d slot (single (d.payloadPlace slot + offset) byte) ∧
      (readSlot slot (d.blockCount / 2)
        (d.patched (single (d.payloadPlace slot + offset) byte)).steady).1 = .ok none := by
  obtain ⟨hlen, hfit, hheader, hat⟩ := Intact.payload_eq hintact hpayload
  have hbehind : BehindHeader d slot (single (d.payloadPlace slot + offset) byte) := by
    -- a byte of the payload is in one of its blocks, and so behind the header
    refine behindHeader_of_image hintact hpayload hpos fun k hk => ?_
    have hplace : k = d.payloadPlace slot + offset := by
      by_contra hne
      exact hk (if_neg hne)
    have hbound := le_blocksFor payload.length
    omega
  refine ⟨hbehind, ?_⟩
  have hrange : slot.val * (d.blockCount / 2) + d.blockCount / 2 ≤
      (d.patched (single (d.payloadPlace slot + offset) byte)).blockCount :=
    slot_in_range (d := d) rfl slot
  have hread := readSlot_of_header hrange hpos ((hbehind.content (Or.inl le_rfl)).trans hheader)
    hintact.1 hlen
  -- the header is as it was, and what it announces is the payload with the byte changed
  have himage : (d.patched (single (d.payloadPlace slot + offset) byte)).payloadAt
      (slot.val * (d.blockCount / 2)) payload.length = payload.set offset byte := by
    rw [payloadAt_patched, hat]
    exact mapIdx_single payload _ offset byte
  rw [hread, if_neg (not_lt.mpr hfit), himage, if_pos (checksum_set_ne hoffset hbyte)]

/-- With its padding changed, the slot is as good as before. The checksum is that of the payload alone. -/
theorem intact_of_padding
    (h : ∀ k, change k ≠ none → d.payloadPlace slot + payload.length ≤ k ∧
      k < d.payloadPlace slot + blocksFor payload.length * blockSize) :
    BehindHeader d slot change ∧ (d.patched change).Intact (d.blockCount / 2) slot g tree := by
  obtain ⟨hlen, hfit, hheader, hat⟩ := Intact.payload_eq hintact hpayload
  have hbehind : BehindHeader d slot change :=
    behindHeader_of_image hintact hpayload hpos fun k hk => ⟨by have := (h k hk).1; omega, (h k hk).2⟩
  refine ⟨hbehind, hintact.1, payload, hpayload, hlen, hfit,
    (hbehind.content (Or.inl le_rfl)).trans hheader, ?_⟩
  -- the payload is what is before the padding
  rw [payloadAt_patched, hat]
  refine mapIdx_of_none fun k hk => by_contra fun hne => ?_
  have hplace := (h _ hne).1
  rw [Disk.payloadPlace] at hplace
  omega

end Payload

end Slots

/-! ## Opening a damaged disk -/

namespace SnapshotStore

/-- Opening finds this tree, on whatever slot. The store that comes with it may differ in which slot it goes on
    with. -/
def Finds (d : Disk) (tree : FileTree) : Prop := ∃ store, (openDevice d).1 = .ok (store, some tree)

variable {change : Nat → Option UInt8} {d : Disk} {slot : Fin 2} {g g' : Nat} {own other : FileTree}
  {payload : Bytes}

/-- A slot with a byte of its payload changed gives way to the other, even if that one is older. -/
theorem finds_other_of_damaged (hd : 2 ≤ d.blockCount / 2)
    (hintact : d.Intact (d.blockCount / 2) slot g own)
    (hother : d.Intact (d.blockCount / 2) (1 - slot) g' other)
    (hpayload : encodeTree own = .ok payload) {offset : Nat} {byte : UInt8}
    (hoffset : offset < payload.length) (hbyte : payload[offset]? ≠ some byte) :
    Finds (d.patched (single (d.payloadPlace slot + offset) byte)) other := by
  have hpos : 0 < d.blockCount / 2 := lt_of_lt_of_le Nat.two_pos hd
  obtain ⟨hbehind, hread⟩ := read_of_damaged hintact hpayload hpos hoffset hbyte
  have hreadOther := (hbehind.intact_other hother hpos).read rfl hpos
  exact openDevice_returns (d := d.patched (single (d.payloadPlace slot + offset) byte)) hd hread
    hreadOther

/-- Two slots in order: the newer one is found, whichever of the two slots it is in. -/
theorem finds_newer (hd : 2 ≤ d.blockCount / 2) (hsteady : d.steady = d)
    (hintact : d.Intact (d.blockCount / 2) slot g own)
    (hother : d.Intact (d.blockCount / 2) (1 - slot) g' other) (hlt : g' < g) : Finds d own := by
  have hpos : 0 < d.blockCount / 2 := lt_of_lt_of_le Nat.two_pos hd
  have hopen := openDevice_returns hd (hintact.read rfl hpos) (hother.read rfl hpos)
  have hbeats : Beats slot g g' := Or.inl hlt
  rw [hsteady, chosen, if_pos hbeats] at hopen
  exact hopen

/-- The two snapshots on a disk on which trees have been saved: the last tree is in one slot, and the one before it in
    the other. -/
theorem intact_of_savedDisk {blockCount : Nat} {earlier : List FileTree}
    {previous newest : FileTree} (hsaved : savedDisk blockCount (earlier ++ [previous, newest]) = .ok d)
    (hcount : earlier.length + 2 < 2 ^ 64)
    (hsized : ∀ tree ∈ earlier ++ [previous, newest], ∀ payload,
      encodeTree tree = .ok payload → payload.length < 2 ^ 64) :
    2 ≤ d.blockCount / 2 ∧
      d.Intact (d.blockCount / 2) (slotOf (earlier.length + 2)) (earlier.length + 2) newest ∧
      d.Intact (d.blockCount / 2) (slotOf (earlier.length + 1)) (earlier.length + 1) previous := by
  obtain ⟨hd, store, rfl, hstore⟩ := savedDisk_ok hsaved hsized
  have hlog : (earlier ++ [previous, newest]).reverse = newest :: previous :: earlier.reverse := by
    simp
  rw [hlog] at hstore
  have hnewest := hstore.newest _ _ rfl
  have hprevious := hstore.previous _ _ _ rfl
  -- saves are counted from one, and the generation is their number as long as that fits
  have hgeneration : ∀ n, n < 2 ^ 64 → generationOf n = n := fun n hn => by
    rw [generationOf]
    omega
  simp only [List.length_cons, List.length_reverse, Nat.add_sub_cancel] at hnewest hprevious
  rw [hgeneration _ (by omega)] at hnewest hprevious
  exact ⟨hd, hnewest, hprevious⟩

/-- Trees have been saved, `newest` last and `previous` before it. With one byte of the newest payload
    changed, `open` finds `previous`; with one byte of the older payload changed, or anything in the
    padding after either, it finds `newest`. -/
theorem open_after_payload_damage {blockCount : Nat} {earlier : List FileTree}
    {previous newest : FileTree} (hsaved : savedDisk blockCount (earlier ++ [previous, newest]) = .ok d)
    (hcount : earlier.length + 2 < 2 ^ 64)
    (hsized : ∀ tree ∈ earlier ++ [previous, newest], ∀ payload,
      encodeTree tree = .ok payload → payload.length < 2 ^ 64) :
    (∀ payload, encodeTree newest = .ok payload → ∀ offset byte, offset < payload.length →
      payload[offset]? ≠ some byte →
      Finds (d.patched (single (d.payloadPlace (slotOf (earlier.length + 2)) + offset) byte))
        previous) ∧
    (∀ payload, encodeTree previous = .ok payload → ∀ offset byte, offset < payload.length →
      payload[offset]? ≠ some byte →
      Finds (d.patched (single (d.payloadPlace (slotOf (earlier.length + 1)) + offset) byte))
        newest) ∧
    ∀ slot tree, slot = slotOf (earlier.length + 2) ∧ tree = newest ∨
        slot = slotOf (earlier.length + 1) ∧ tree = previous →
      ∀ payload, encodeTree tree = .ok payload → ∀ change,
      (∀ k, change k ≠ none → d.payloadPlace slot + payload.length ≤ k ∧
        k < d.payloadPlace slot + blocksFor payload.length * blockSize) →
      Finds (d.patched change) newest := by
  obtain ⟨hd, hnewest, hprevious⟩ := intact_of_savedDisk hsaved hcount hsized
  have hpos : 0 < d.blockCount / 2 := lt_of_lt_of_le Nat.two_pos hd
  have hnext : slotOf (earlier.length + 2) = 1 - slotOf (earlier.length + 1) :=
    (one_sub_slotOf _).symm
  have hback : slotOf (earlier.length + 1) = 1 - slotOf (earlier.length + 2) := by
    rw [hnext]
    omega
  have hprevious' := hback ▸ hprevious
  have hnewest' := hnext ▸ hnewest
  refine ⟨fun payload hpayload offset byte hoffset hbyte => ?_,
    fun payload hpayload offset byte hoffset hbyte => ?_, ?_⟩
  · exact finds_other_of_damaged hd hnewest hprevious' hpayload hoffset hbyte
  · exact finds_other_of_damaged hd hprevious hnewest' hpayload hoffset hbyte
  · -- the padding of the newest, and the padding of the one before it: both slots are as good as before
    rintro slot tree (⟨rfl, rfl⟩ | ⟨rfl, rfl⟩) payload hpayload change hpadding
    · obtain ⟨hbehind, hkept⟩ := intact_of_padding hnewest hpayload hpos hpadding
      exact finds_newer (d := d.patched change) hd rfl hkept (hbehind.intact_other hprevious' hpos)
        (Nat.lt_succ_self _)
    · obtain ⟨hbehind, hkept⟩ := intact_of_padding hprevious hpayload hpos hpadding
      have hother := hbehind.intact_other hnewest' hpos
      rw [← hnext] at hother
      exact finds_newer (d := d.patched change) hd rfl hother (hback ▸ hkept) (Nat.lt_succ_self _)

theorem open_after_first_byte_damage : ∃ d, savedDisk 4 twoTrees = .ok d ∧
    Finds (d.patched (single (d.payloadPlace (slotOf 2) + 0) 7)) (directoryTree 'a') := by
  obtain ⟨d, hd, -⟩ := exists_ok_of_all (x := savedDisk 4 twoTrees) (p := fun _ => true)
    (by decide +kernel)
  obtain ⟨payload, hpayload, h⟩ := exists_ok_of_all (x := encodeTree (directoryTree 'b'))
    (p := fun payload => decide (0 < payload.length ∧ payload[0]? ≠ some 7)) (by decide +kernel)
  obtain ⟨hlength, hbyte⟩ := of_decide_eq_true h
  have hall := @open_after_payload_damage d 4 [] (directoryTree 'a') (directoryTree 'b') hd
    (by decide) sized_twoTrees
  exact ⟨d, hd, hall.1 payload hpayload 0 7 hlength hbyte⟩

end SnapshotStore

end Afos
