import Afos.Disk
import Afos.Proof.Codec

/-!
# What a slot reads as

Reading does not change a disk that has no fault in store, and what it answers depends on the
blocks alone. A slot whose header block is zero reads as empty. A slot whose header block is the
header of a payload reads as the tree that was written if the blocks after it hold that payload,
and as empty if the checksum does not fit.

`ReadOnly` carries the comparison with a disk without faults through the combinators: either a
fault cuts the operation short, or it answers what it would have answered without any.
-/

set_option autoImplicit false

namespace Afos

open Lib

/-! ## Headers -/

theorem length_encodeHeader (generation len sum : Nat) :
    (encodeHeader generation len sum).length = blockSize := by
  simp only [encodeHeader, List.length_append, length_leBytes, List.length_replicate]
  decide

theorem bytes_ofBytes {bytes : Bytes} (h : bytes.length = blockSize) :
    (Block.ofBytes bytes).bytes = bytes := fit_of_length h

/-- The header block that a save writes. It has the length and the checksum of the payload in it, so a header says
    which payloads may follow it. -/
def headerBlock (generation : Nat) (payload : Bytes) : Block :=
  Block.ofBytes (encodeHeader generation payload.length (checksum payload).toNat)

theorem bytes_headerBlock (generation : Nat) (payload : Bytes) :
    (headerBlock generation payload).bytes =
      encodeHeader generation payload.length (checksum payload).toNat :=
  bytes_ofBytes (length_encodeHeader _ _ _)

theorem headerField_append {before after : Bytes} {offset w n : Nat} (hoffset : before.length = offset)
    (hn : n < 256 ^ w) : headerField (before ++ (leBytes w n ++ after)) offset w = n := by
  rw [headerField, ← hoffset, List.drop_left,
    List.take_left' (length_leBytes w n), leValue_leBytes hn]

theorem not_all_zero_of_magic {header : Bytes} (h : header.take 8 = magic) :
    ¬ header.all (fun byte => byte == 0) = true := by
  have hmagic : magic.all (fun byte => byte == 0) = false := by decide
  rw [← List.take_append_drop 8 header, h, List.all_append, hmagic, Bool.false_and]
  exact Bool.false_ne_true

section Fields

variable (generation len sum : Nat)

theorem take_encodeHeader : (encodeHeader generation len sum).take 8 = magic := by
  simp only [encodeHeader, List.append_assoc]
  exact List.take_left' (by decide)

theorem headerField_version :
    headerField (encodeHeader generation len sum) 8 4 = formatVersion := by
  simp only [encodeHeader, List.append_assoc]
  exact headerField_append (by decide) (by decide)

variable {generation len sum}

theorem headerField_generation (h : generation < 2 ^ 64) :
    headerField (encodeHeader generation len sum) 16 8 = generation := by
  have hsplit : encodeHeader generation len sum =
      (magic ++ leBytes 4 formatVersion ++ List.replicate 4 0) ++ (leBytes 8 generation ++
        (leBytes 8 len ++ leBytes 8 sum ++ List.replicate (blockSize - 40) 0)) := by
    simp only [encodeHeader, List.append_assoc]
  rw [hsplit]
  exact headerField_append (by decide) (lt_of_lt_of_eq h (by decide))

theorem headerField_payloadLen (h : len < 2 ^ 64) :
    headerField (encodeHeader generation len sum) 24 8 = len := by
  have hsplit : encodeHeader generation len sum =
      (magic ++ leBytes 4 formatVersion ++ List.replicate 4 0 ++ leBytes 8 generation) ++
        (leBytes 8 len ++ (leBytes 8 sum ++ List.replicate (blockSize - 40) 0)) := by
    simp only [encodeHeader, List.append_assoc]
  rw [hsplit]
  refine headerField_append ?_ (lt_of_lt_of_eq h (by decide))
  simp only [List.length_append, length_leBytes, List.length_replicate]
  decide

theorem headerField_checksum (h : sum < 2 ^ 64) :
    headerField (encodeHeader generation len sum) 32 8 = sum := by
  have hsplit : encodeHeader generation len sum =
      (magic ++ leBytes 4 formatVersion ++ List.replicate 4 0 ++ leBytes 8 generation ++
        leBytes 8 len) ++ (leBytes 8 sum ++ List.replicate (blockSize - 40) 0) := by
    simp only [encodeHeader, List.append_assoc]
  rw [hsplit]
  refine headerField_append ?_ (lt_of_lt_of_eq h (by decide))
  simp only [List.length_append, length_leBytes, List.length_replicate]
  decide

end Fields

/-! ## Blocks and bytes -/

theorem toList_fill (content : Nat → Block) (first count : Nat) :
    (fill content first (count * blockSize)).toList = bytesAt content first count := by
  have hdiv : count * blockSize / blockSize = count := Nat.mul_div_cancel _ (by decide)
  show (fit (count * blockSize) (bytesAt content first (count * blockSize / blockSize))) = _
  rw [hdiv, fit_of_length (length_bytesAt content first count)]

theorem toList_fill_one (content : Nat → Block) (first : Nat) :
    (fill content first blockSize).toList = (content first).bytes := by
  have h := toList_fill content first 1
  rw [Nat.one_mul] at h
  rw [h]
  exact List.append_nil _

theorem bytesAt_congr {content content' : Nat → Block} {first count : Nat}
    (h : ∀ i, i < count → content (first + i) = content' (first + i)) :
    bytesAt content first count = bytesAt content' first count := by
  refine List.flatMap_congr fun i hi => ?_
  rw [h i (List.mem_range.mp hi)]

/-- Blocks that hold what `spread` puts into them read as the data: writing a whole number of blocks and reading them
    back gives the same bytes. -/
theorem bytesAt_of_spread {content : Nat → Block} {first count : Nat} {data : Bytes}
    (hlen : data.length = count * blockSize)
    (h : ∀ i block, spread first data i = some block → content i = block) :
    bytesAt content first count = data := by
  have hcount : data.length / blockSize = count := by
    rw [hlen]
    exact Nat.mul_div_cancel _ (by decide)
  have hblock : ∀ i, i < count → (content (first + i)).bytes =
      (data.drop (i * blockSize)).take blockSize := by
    intro i hi
    have hspread : spread first data (first + i) =
        some (Block.ofBytes (data.drop (i * blockSize))) := by
      rw [spread, if_pos ⟨Nat.le_add_right _ _, by omega⟩, Nat.add_sub_cancel_left]
    have hroom : blockSize ≤ (data.drop (i * blockSize)).length := by
      have hmul : (i + 1) * blockSize ≤ count * blockSize := Nat.mul_le_mul_right _ hi
      rw [List.length_drop, hlen]
      rw [Nat.add_mul, Nat.one_mul] at hmul
      omega
    rw [h _ _ hspread]
    show fit blockSize _ = _
    rw [fit, Nat.sub_eq_zero_of_le hroom, List.replicate_zero, List.append_nil]
  -- block by block, what has been read so far is the beginning of the data
  have htake : ∀ n, n ≤ count → bytesAt content first n = data.take (n * blockSize) := by
    intro n hn
    induction n with
    | zero => rw [Nat.zero_mul, List.take_zero]; rfl
    | succ n ih =>
      have hsucc : bytesAt content first (n + 1) =
          bytesAt content first n ++ (content (first + n)).bytes := by
        simp [bytesAt, List.range_succ]
      rw [hsucc, ih (by omega), hblock n (by omega), Nat.add_mul, Nat.one_mul, List.take_add]
  rw [htake count (Nat.le_refl _), ← hlen, List.take_length]

theorem le_blocksFor (len : Nat) : len ≤ blocksFor len * blockSize := by
  simp only [blocksFor, blockSize]
  omega

theorem length_padded (data : Bytes) : (padded data).length = blocksFor data.length * blockSize := by
  have h := le_blocksFor data.length
  rw [padded, List.length_append, List.length_replicate]
  omega

theorem take_padded (data : Bytes) : (padded data).take data.length = data := List.take_left

/-! ## What device calls do to the blocks -/

namespace Disk

/-- The disk with no fault in store. It is the same disk to everything that looks at blocks only. -/
def steady (d : Disk) : Disk := d.supplied []

/-- No fault will cut a call short. -/
def Quiet (d : Disk) : Prop := ∀ pick, Fate.fault pick ∉ d.fates

/-- What the blocks can hold afterwards, they could hold before, or `new` allows it. What a block *can* hold is what
    it reads as now, and what a crash may leave there. -/
def Admits (new : Nat → Block → Prop) (d d' : Disk) : Prop :=
  d'.blockCount = d.blockCount ∧ d.cells.Admits new d'.cells

instance (new : Nat → Block → Prop) : IsPreorder Disk (Admits new) where
  refl _ := ⟨rfl, refl _⟩
  trans _ _ _ h h' := ⟨h'.1.trans h.1, IsTrans.trans _ _ _ h.2 h'.2⟩

/-- Disks that differ in their fates only hold the same. -/
theorem admits_of_steady {d d' : Disk} (h : d'.steady = d.steady) :
    d.Admits (fun _ _ => False) d' := by
  have hcount : d'.steady.blockCount = d.steady.blockCount := by rw [h]
  have hcells : d'.steady.cells = d.steady.cells := by rw [h]
  refine ⟨hcount, ?_⟩
  rw [show d'.cells = d.cells from hcells]
  exact refl _

variable {α : Type} {started finished : Volatile Nat Block → Volatile Nat Block}
  {answer : Volatile Nat Block → α} {new : Nat → Block → Prop}

/-- A call is cut short by the fault that is next, or it is not and does the whole of its
    work. -/
theorem call_cases {d d' : Disk} {r : Except StorageError α}
    (h : call started finished answer d = (r, d')) :
    (∃ pick rest, d.fates = .fault pick :: rest ∧ r = .error ioError ∧
        d' = { d with cells := (started d.cells).settle pick, fates := rest }) ∨
      (r = .ok (answer d.cells) ∧
        d' = { d with cells := finished d.cells, fates := d.fates.tail }) := by
  rw [call] at h
  cases hfates : d.fates with
  | nil =>
    rw [hfates] at h
    cases h
    exact Or.inr ⟨rfl, rfl⟩
  | cons fate rest =>
    rw [hfates] at h
    cases fate with
    | done =>
      cases h
      exact Or.inr ⟨rfl, rfl⟩
    | fault pick =>
      cases h
      exact Or.inl ⟨pick, rest, rfl, rfl, rfl⟩

theorem keeps_call (hstarted : ∀ v, Volatile.Admits new v (started v))
    (hfinished : ∀ v, Volatile.Admits new v (finished v)) :
    Op.Keeps (Admits new) (call started finished answer) := by
  intro d
  cases h : call started finished answer d with
  | mk r d' =>
    rcases call_cases h with ⟨pick, rest, -, -, rfl⟩ | ⟨-, rfl⟩
    · exact ⟨rfl, IsTrans.trans _ _ _ (hstarted d.cells) (Volatile.admits_settle pick _)⟩
    · exact ⟨rfl, hfinished d.cells⟩

theorem keeps_callAt {first len : Nat} {x : Op StorageError Disk α}
    (hx : Op.Keeps (Admits new) x) : Op.Keeps (Admits new) (callAt first len x) := by
  intro d
  rw [callAt]
  split
  · exact hx d
  · exact refl d

theorem keeps_writeBlocks {first : Nat} {data : Bytes}
    (hnew : ∀ i block, spread first data i = some block → new i block) :
    Op.Keeps (Admits new) (BlockDevice.writeBlocks (D := Disk) first data) :=
  keeps_callAt (keeps_call (Volatile.admits_write hnew) (Volatile.admits_write hnew))

theorem keeps_flush : Op.Keeps (Admits new) (BlockDevice.flush (D := Disk)) :=
  keeps_call (fun v => refl v) Volatile.admits_flush

end Disk

/-! ## Reading -/

/-- An operation that changes no block. A fault may cut it short; if none does, it answers what it would answer on the
    steady disk. The three fields are what the combinators need of each other: the second and third are stated for
    every disk because a bind runs its second half on whatever disk the first has left. -/
structure ReadOnly {α : Type} (x : Op StorageError Disk α) : Prop where
  keeps : ∀ new, Op.Keeps (Disk.Admits new) x
  steady : ∀ d : Disk, (x d.steady).2 = d.steady
  agrees : ∀ d : Disk, (¬ d.Quiet ∧ ∃ e, (x d).1 = .error e) ∨
    ((x d).1 = (x d.steady).1 ∧ (x d).2.steady = d.steady ∧ (d.Quiet → (x d).2.Quiet))

namespace ReadOnly

variable {α β : Type}

theorem ofExcept (r : Except StorageError α) : ReadOnly (Op.ofExcept r) where
  keeps _ := Op.Keeps.ofExcept r
  steady _ := rfl
  agrees _ := Or.inr ⟨rfl, rfl, id⟩

theorem pure (a : α) : ReadOnly (Pure.pure a) := ofExcept (.ok a)

theorem throw (e : StorageError) : ReadOnly (Op.throw e : Op StorageError Disk α) :=
  ofExcept (.error e)

theorem bind {x : Op StorageError Disk α} {f : α → Op StorageError Disk β} (hx : ReadOnly x)
    (hf : ∀ a, ReadOnly (f a)) : ReadOnly (x >>= f) := by
  refine ⟨fun new => Op.Keeps.bind (hx.keeps new) fun a => (hf a).keeps new, fun d => ?_, fun d => ?_⟩
  · have hsteady := hx.steady d
    rw [Op.run_bind]
    cases h : x d.steady with
    | mk r s =>
      rw [h] at hsteady
      simp only at hsteady
      subst hsteady
      cases r with
      | error e => rfl
      | ok a => exact (hf a).steady d
  · -- the first half may meet a fault; if not, the second starts from a disk that is the same but for its fates
    have hsteady := hx.steady d
    rw [Op.run_bind, Op.run_bind]
    cases h : x d with
    | mk r d' =>
      cases hs : x d.steady with
      | mk r' s =>
        have hagrees := hx.agrees d
        rw [h, hs] at hagrees
        rw [hs] at hsteady
        simp only at hagrees hsteady
        subst hsteady
        rcases hagrees with ⟨hfault, e, rfl⟩ | ⟨rfl, hsame, hquiet⟩
        · exact Or.inl ⟨hfault, e, rfl⟩
        · cases r with
          | error e => exact Or.inr ⟨rfl, hsame, hquiet⟩
          | ok a =>
            rcases (hf a).agrees d' with ⟨hfault, e, he⟩ | ⟨hres, hsame', hquiet'⟩
            · exact Or.inl ⟨fun hd => hfault (hquiet hd), e, he⟩
            · rw [hsame] at hres hsame'
              exact Or.inr ⟨hres, hsame', fun hd => hquiet' (hquiet hd)⟩

theorem map {x : Op StorageError Disk α} (f : α → β) (hx : ReadOnly x) : ReadOnly (f <$> x) :=
  hx.bind fun a => pure (f a)

theorem ite {p : Prop} [Decidable p] {x y : Op StorageError Disk α} (hx : ReadOnly x)
    (hy : ReadOnly y) : ReadOnly (if p then x else y) := by
  split
  · exact hx
  · exact hy

theorem call (answer : Volatile Nat Block → α) : ReadOnly (Disk.call id id answer) := by
  refine ⟨fun new => Disk.keeps_call (fun v => refl v) fun v => refl v, fun d => rfl, fun d => ?_⟩
  cases h : Disk.call id id answer d with
  | mk r d' =>
    rcases Disk.call_cases h with ⟨pick, rest, hfates, rfl, -⟩ | ⟨rfl, rfl⟩
    · refine Or.inl ⟨fun hquiet => hquiet pick ?_, _, rfl⟩
      rw [hfates]
      exact List.mem_cons_self
    · exact Or.inr ⟨rfl, rfl, fun hquiet pick hp => hquiet pick (List.mem_of_mem_tail hp)⟩

theorem callAt {x : Op StorageError Disk α} (hx : ReadOnly x) (first len : Nat) :
    ReadOnly (Disk.callAt first len x) := by
  refine ⟨fun new => Disk.keeps_callAt (hx.keeps new), fun d => ?_, fun d => ?_⟩
  · rw [Disk.callAt]
    split
    · exact hx.steady d
    · rfl
  · rw [Disk.callAt, Disk.callAt, show d.steady.inRange first len = d.inRange first len from rfl]
    split
    · exact hx.agrees d
    · exact Or.inr ⟨rfl, rfl, id⟩

theorem readBlocks (first len : Nat) : ReadOnly (BlockDevice.readBlocks (D := Disk) first len) :=
  (call _).callAt first len

theorem readPadded (first count : Nat) : ReadOnly (readPadded (D := Disk) first count) :=
  (pure _).ite ((readBlocks _ _).map _)

theorem readPayload (slotStart slotBlocks : Nat) (header : Bytes) :
    ReadOnly (readPayload (D := Disk) slotStart slotBlocks header) := by
  refine (pure _).ite ((pure _).ite ((throw _).ite ((pure _).ite ?_)))
  refine (readPadded _ _).bind fun image => (pure _).ite ?_
  exact (ofExcept _).bind fun tree => pure _

theorem readSlot (slot : Fin 2) (slotBlocks : Nat) :
    ReadOnly (readSlot (D := Disk) slot slotBlocks) :=
  (readBlocks _ _).bind fun _ => readPayload _ _ _

end ReadOnly

/-! ## What the blocks of a slot say -/

namespace Disk

/-- The `len` bytes after a header block: what is taken for the payload when the header says `len`, whether or not it
    was ever written as one. -/
def payloadAt (d : Disk) (slotStart len : Nat) : Bytes :=
  (bytesAt d.cells.content (slotStart + 1) (blocksFor len)).take len

theorem length_payloadAt (d : Disk) (slotStart len : Nat) :
    (d.payloadAt slotStart len).length = len := by
  have hroom := le_blocksFor len
  rw [payloadAt, List.length_take, length_bytesAt]
  omega

end Disk

section Slot

variable {d : Disk} {slot : Fin 2} {slotBlocks : Nat}

theorem readBlocks_steady {first count : Nat} (h : first + count ≤ d.blockCount) :
    BlockDevice.readBlocks first (count * blockSize) d.steady =
      (.ok (fill d.cells.content first (count * blockSize)), d.steady) := by
  have hdiv : count * blockSize / blockSize = count := Nat.mul_div_cancel _ (by decide)
  have hrange : d.steady.inRange first (count * blockSize) = true := by
    rw [Disk.inRange, hdiv, Nat.mul_mod_left]
    exact decide_eq_true ⟨rfl, h⟩
  exact if_pos hrange

theorem readPadded_steady {first count : Nat} (h : first + count ≤ d.blockCount) :
    readPadded first count d.steady = (.ok (bytesAt d.cells.content first count), d.steady) := by
  rw [readPadded]
  split
  case isTrue hcount =>
    rw [hcount]
    rfl
  case isFalse hcount =>
    rw [Op.run_map, readBlocks_steady h]
    simp only [toList_fill]

theorem readSlot_steady (h : slot.val * slotBlocks + slotBlocks ≤ d.blockCount) (hpos : 0 < slotBlocks) :
    readSlot slot slotBlocks d.steady =
      readPayload (slot.val * slotBlocks) slotBlocks (d.cells.content (slot.val * slotBlocks)).bytes
        d.steady := by
  have hread : BlockDevice.readBlocks (slot.val * slotBlocks) (1 * blockSize) d.steady =
      (.ok (fill d.cells.content (slot.val * slotBlocks) (1 * blockSize)), d.steady) :=
    readBlocks_steady (by omega)
  rw [Nat.one_mul] at hread
  rw [readSlot, Op.run_bind_ok hread, toList_fill_one]

theorem readSlot_of_zero (h : slot.val * slotBlocks + slotBlocks ≤ d.blockCount) (hpos : 0 < slotBlocks)
    (hzero : d.cells.content (slot.val * slotBlocks) = zeroBlock) :
    (readSlot slot slotBlocks d.steady).1 = .ok none := by
  have hall : zeroBlock.bytes.all (fun byte => byte == 0) = true := by
    show (fit blockSize []).all _ = true
    simp [fit]
  rw [readSlot_steady h hpos, hzero, readPayload, if_pos hall]
  rfl

/-- A slot whose header has the right beginning reads as what its blocks decode to, if the length in the header fits
    the slot and the checksum is theirs. Only in this last case can reading fail: blocks with the right checksum
    that do not decode are an error, all else that is wrong makes the slot an empty one. -/
theorem readSlot_of_fields (h : slot.val * slotBlocks + slotBlocks ≤ d.blockCount)
    (hpos : 0 < slotBlocks) {header : Bytes}
    (hheader : (d.cells.content (slot.val * slotBlocks)).bytes = header)
    (hmagic : header.take 8 = magic) (hversion : headerField header 8 4 = formatVersion) :
    (readSlot slot slotBlocks d.steady).1 =
      if slotBlocks - 1 < blocksFor (headerField header 24 8) then .ok none
      else if (checksum (d.payloadAt (slot.val * slotBlocks) (headerField header 24 8))).toNat ≠
          headerField header 32 8 then .ok none
      else (decodeTree (d.payloadAt (slot.val * slotBlocks) (headerField header 24 8))).map
        fun tree => some ⟨headerField header 16 8, tree⟩ := by
  rw [readSlot_steady h hpos, hheader, readPayload, if_neg (not_all_zero_of_magic hmagic),
    if_neg (not_not.mpr hmagic), if_neg (not_not.mpr hversion)]
  simp only
  by_cases hfit : slotBlocks - 1 < blocksFor (headerField header 24 8)
  · rw [if_pos hfit, if_pos hfit]
    rfl
  · have hread : readPadded (slot.val * slotBlocks + 1) (blocksFor (headerField header 24 8))
        d.steady = (.ok (bytesAt d.cells.content (slot.val * slotBlocks + 1)
          (blocksFor (headerField header 24 8))), d.steady) := readPadded_steady (by omega)
    rw [if_neg hfit, if_neg hfit, Op.run_bind_ok hread]
    rw [← Disk.payloadAt]
    split
    · rfl
    · rw [Op.run_bind, Op.run_ofExcept]
      cases decodeTree (d.payloadAt (slot.val * slotBlocks) (headerField header 24 8)) with
      | error e => rfl
      | ok tree => rfl

/-- A slot with the header of a payload reads as what its blocks decode to, if they fit in the
    slot and have the checksum of that payload. -/
theorem readSlot_of_header (h : slot.val * slotBlocks + slotBlocks ≤ d.blockCount)
    (hpos : 0 < slotBlocks) {generation : Nat} {payload : Bytes}
    (hheader : d.cells.content (slot.val * slotBlocks) = headerBlock generation payload)
    (hgeneration : generation < 2 ^ 64) (hlen : payload.length < 2 ^ 64) :
    (readSlot slot slotBlocks d.steady).1 =
      if slotBlocks - 1 < blocksFor payload.length then .ok none
      else if checksum (d.payloadAt (slot.val * slotBlocks) payload.length) ≠ checksum payload then
        .ok none
      else (decodeTree (d.payloadAt (slot.val * slotBlocks) payload.length)).map fun tree =>
        some ⟨generation, tree⟩ := by
  have hsum : (checksum payload).toNat < 2 ^ 64 := (checksum payload).toNat_lt
  have hbytes : (d.cells.content (slot.val * slotBlocks)).bytes =
      encodeHeader generation payload.length (checksum payload).toNat := by
    rw [hheader, bytes_headerBlock]
  rw [readSlot_of_fields h hpos hbytes (take_encodeHeader _ _ _) (headerField_version _ _ _),
    headerField_payloadLen hlen, headerField_checksum hsum, headerField_generation hgeneration]
  simp only [ne_eq, UInt64.toNat_inj]

/-- A slot that holds a payload and its header reads as the tree. -/
theorem readSlot_of_intact (h : slot.val * slotBlocks + slotBlocks ≤ d.blockCount)
    (hpos : 0 < slotBlocks) {generation : Nat} {payload : Bytes} {tree : FileTree}
    (hheader : d.cells.content (slot.val * slotBlocks) = headerBlock generation payload)
    (hgeneration : generation < 2 ^ 64) (hlen : payload.length < 2 ^ 64)
    (hfit : blocksFor payload.length ≤ slotBlocks - 1)
    (hpayload : d.payloadAt (slot.val * slotBlocks) payload.length = payload)
    (hencode : encodeTree tree = .ok payload) :
    (readSlot slot slotBlocks d.steady).1 = .ok (some ⟨generation, tree⟩) := by
  rw [readSlot_of_header h hpos hheader hgeneration hlen, if_neg (not_lt.mpr hfit), hpayload,
    if_neg (not_not.mpr rfl), decodeTree_of_encodeTree hencode]
  rfl

end Slot

/-! ## Opening -/

namespace SnapshotStore

/-- Two slots, one after the other. -/
def readBoth (slot other : Fin 2) (slotBlocks : Nat) :
    Op StorageError Disk (Option DecodedSnapshot × Option DecodedSnapshot) := do
  let first ← readSlot slot slotBlocks
  let second ← readSlot other slotBlocks
  pure (first, second)

/-- What `open` returns once it has chosen. On a disk with nothing in it the store has no slot in use, and the first
    save gets the generation 1. -/
def opened (slotBlocks : Nat) (selected : Option (Fin 2 × DecodedSnapshot)) (device : Disk) :
    SnapshotStore Disk × Option FileTree :=
  ({ device, slotBlocks, activeSlot := selected.map Prod.fst,
     generation := (selected.map fun p => p.2.generation).getD 0 },
   selected.map fun p => p.2.tree)

theorem readOnly_readBoth (slot other : Fin 2) (slotBlocks : Nat) :
    ReadOnly (readBoth slot other slotBlocks) :=
  (ReadOnly.readSlot _ _).bind fun _ => (ReadOnly.readSlot _ _).bind fun _ => ReadOnly.pure _

/-- `open` on a disk that is large enough: both slots are read, then one is chosen. -/
theorem openDevice_eq {d : Disk} (hd : 2 ≤ d.blockCount / 2) :
    openDevice d = (readBoth 0 1 (d.blockCount / 2) >>= fun both =>
      opened (d.blockCount / 2) (selectSlot both.1 both.2) <$> Op.read) d := by
  rw [openDevice, readBoth, Op.run_bind_ok (Op.run_read d)]
  simp only
  rw [show BlockDevice.blockCount d = d.blockCount from rfl, if_neg (not_lt.mpr hd)]
  cases h₀ : readSlot 0 (d.blockCount / 2) d with
  | mk first d₁ =>
    cases first with
    | error e => rw [Op.run_bind_error h₀, Op.run_bind_error (Op.run_bind_error h₀ _)]
    | ok first =>
      rw [Op.run_bind_ok h₀]
      cases h₁ : readSlot 1 (d.blockCount / 2) d₁ with
      | mk second d₂ =>
        cases second with
        | error e =>
          rw [Op.run_bind_error h₁,
            Op.run_bind_error ((Op.run_bind_ok h₀ _).trans (Op.run_bind_error h₁ _))]
        | ok second =>
          rw [Op.run_bind_ok h₁, Op.run_bind_ok ((Op.run_bind_ok h₀ _).trans (Op.run_bind_ok h₁ _))]
          rfl

/-- When both slots can be read, `open` fails only by a fault; if there is none it changes no block and returns the
    newer of what the slots hold. The disk it ends with may have used up some of its fates, so it is equal to the
    first one only as a steady disk. -/
theorem openDevice_cases {d : Disk} (hd : 2 ≤ d.blockCount / 2)
    {first second : Option DecodedSnapshot}
    (hfirst : (readSlot 0 (d.blockCount / 2) d.steady).1 = .ok first)
    (hsecond : (readSlot 1 (d.blockCount / 2) d.steady).1 = .ok second) :
    (¬ d.Quiet ∧ ∃ e d', openDevice d = (.error e, d') ∧ ∀ new, d.Admits new d') ∨
      ∃ d', d'.steady = d.steady ∧
        openDevice d = (.ok (opened (d.blockCount / 2) (selectSlot first second) d'), d') := by
  have hboth : (readBoth 0 1 (d.blockCount / 2) d.steady).1 = .ok (first, second) := by
    have h₀ : readSlot 0 (d.blockCount / 2) d.steady = (.ok first, d.steady) :=
      Prod.ext hfirst ((ReadOnly.readSlot 0 (d.blockCount / 2)).steady d)
    have h₁ : readSlot 1 (d.blockCount / 2) d.steady = (.ok second, d.steady) :=
      Prod.ext hsecond ((ReadOnly.readSlot 1 (d.blockCount / 2)).steady d)
    rw [readBoth, Op.run_bind_ok h₀, Op.run_bind_ok h₁]
    rfl
  have hkeeps := fun new => (readOnly_readBoth 0 1 (d.blockCount / 2)).keeps new d
  have hagrees := (readOnly_readBoth 0 1 (d.blockCount / 2)).agrees d
  rw [openDevice_eq hd, Op.run_bind]
  cases h : readBoth 0 1 (d.blockCount / 2) d with
  | mk r d' =>
    rw [h] at hkeeps hagrees
    rcases hagrees with ⟨hfault, e, rfl⟩ | ⟨hr, hsame, -⟩
    · exact Or.inl ⟨hfault, e, d', rfl, hkeeps⟩
    · rw [hboth] at hr
      cases hr
      exact Or.inr ⟨d', hsame, rfl⟩

/-- `open` on a disk that has no fault in store. -/
theorem openDevice_steady {d : Disk} (hd : 2 ≤ d.blockCount / 2) :
    (openDevice d.steady).1 = (do
      let first ← (readSlot 0 (d.blockCount / 2) d.steady).1
      let second ← (readSlot 1 (d.blockCount / 2) d.steady).1
      .ok (opened (d.blockCount / 2) (selectSlot first second) d.steady)) := by
  have hsteady := fun slot => (ReadOnly.readSlot slot (d.blockCount / 2)).steady d
  have h₀ := hsteady 0
  have h₁ := hsteady 1
  have hopen : openDevice d.steady = _ := openDevice_eq (d := d.steady) hd
  rw [hopen, show d.steady.blockCount = d.blockCount from rfl, readBoth, Op.run_bind, Op.run_bind]
  cases hfirst : readSlot 0 (d.blockCount / 2) d.steady with
  | mk first d₁ =>
    rw [hfirst] at h₀
    obtain rfl : d₁ = d.steady := h₀
    cases first with
    | error e => rfl
    | ok first =>
      simp only [Op.run_bind]
      cases hsecond : readSlot 1 (d.blockCount / 2) d.steady with
      | mk second d₂ =>
        rw [hsecond] at h₁
        obtain rfl : d₂ = d.steady := h₁
        cases second with
        | error e => rfl
        | ok second => rfl

end SnapshotStore

/-! ## Saving -/

namespace Disk

theorem writeBlocks_ok {first : Nat} {data : Bytes} {d d' : Disk}
    (h : BlockDevice.writeBlocks first data d = (.ok (), d')) :
    d'.cells = d.cells.write (spread first data) := by
  have hcall : call (Volatile.write (spread first data)) (Volatile.write (spread first data))
      (fun _ => ()) d = (.ok (), d') := by
    by_cases hrange : d.inRange first data.length = true
    · exact (if_pos hrange).symm.trans h
    · cases (if_neg hrange).symm.trans h
  rcases call_cases hcall with ⟨_, _, -, hr, -⟩ | ⟨-, rfl⟩
  · cases hr
  · rfl

theorem flush_ok {d d' : Disk} (h : BlockDevice.flush d = (.ok (), d')) :
    d'.cells = d.cells.flush := by
  rcases call_cases h with ⟨_, _, -, hr, -⟩ | ⟨-, rfl⟩
  · cases hr
  · rfl

end Disk

theorem spread_header {start generation i : Nat} {payload : Bytes} {block : Block}
    (h : spread start (encodeHeader generation payload.length (checksum payload).toNat) i =
      some block) : i = start ∧ block = headerBlock generation payload := by
  rw [spread, length_encodeHeader] at h
  by_cases hi : start ≤ i ∧ i < start + blockSize / blockSize
  · have hone : blockSize / blockSize = 1 := by decide
    have hstart : i = start := by omega
    rw [if_pos hi, hstart, Nat.sub_self, Nat.zero_mul, List.drop_zero] at h
    exact ⟨hstart, (Option.some.inj h).symm⟩
  · rw [if_neg hi] at h
    cases h

theorem spread_range {first i : Nat} {data : Bytes} {block : Block}
    (h : spread first data i = some block) :
    first ≤ i ∧ i < first + data.length / blockSize := by
  rw [spread] at h
  split at h
  case isTrue hi => exact hi
  case isFalse => cases h

namespace SnapshotStore

section Write

variable {start generation : Nat} {payload : Bytes}

/-- The four device calls of a save, the first of which is left out if there is nothing to write. -/
theorem writeSnapshot_eq {D : Type} [BlockDevice D] : writeSnapshot (D := D) start generation payload = (do
    let payloadWrite : Op StorageError D Unit := if padded payload = [] then pure ()
      else BlockDevice.writeBlocks (start + 1) (padded payload)
    payloadWrite
    BlockDevice.flush
    BlockDevice.writeBlocks start
      (encodeHeader generation payload.length (checksum payload).toNat)
    BlockDevice.flush) := by
  rw [writeSnapshot]
  split
  · rfl
  · rfl

/-- However far it gets, a save writes nothing but blocks of the payload and the header. -/
theorem keeps_writeSnapshot {new : Nat → Block → Prop}
    (hpayload : ∀ i block, spread (start + 1) (padded payload) i = some block → new i block)
    (hheader : new start (headerBlock generation payload)) :
    Op.Keeps (Disk.Admits new) (writeSnapshot (D := Disk) start generation payload) := by
  have hwrite : ∀ i block, spread start
      (encodeHeader generation payload.length (checksum payload).toNat) i = some block →
        new i block := by
    intro i block h
    obtain ⟨rfl, rfl⟩ := spread_header h
    exact hheader
  rw [writeSnapshot_eq]
  refine Op.Keeps.bind (Op.Keeps.ite (Op.Keeps.pure _) (Disk.keeps_writeBlocks hpayload)) fun _ => ?_
  refine Op.Keeps.bind Disk.keeps_flush fun _ => ?_
  exact Op.Keeps.bind (Disk.keeps_writeBlocks hwrite) fun _ => Disk.keeps_flush

/-- A snapshot that was written in full is on the medium: its header, and its payload behind it. The payload was
    flushed before the header was written, and the header does not overwrite it. -/
theorem writeSnapshot_ok {d d' : Disk} (h : writeSnapshot start generation payload d = (.ok (), d')) :
    (∀ i, d'.cells.Settled i) ∧ d'.cells.content start = headerBlock generation payload ∧
      bytesAt d'.cells.content (start + 1) (blocksFor payload.length) = padded payload := by
  rw [writeSnapshot_eq] at h
  obtain ⟨⟨⟩, d₁, h₁, h⟩ := Op.bind_ok h
  obtain ⟨⟨⟩, d₂, h₂, h⟩ := Op.bind_ok h
  obtain ⟨⟨⟩, d₃, h₃, h₄⟩ := Op.bind_ok h
  have hcells₃ := Disk.writeBlocks_ok h₃
  have hcells₄ := Disk.flush_ok h₄
  have hheader : spread start (encodeHeader generation payload.length (checksum payload).toNat) start =
      some (headerBlock generation payload) := by
    rw [spread, length_encodeHeader, if_pos ⟨Nat.le_refl _, Nat.lt_succ_self start⟩, Nat.sub_self,
      Nat.zero_mul, List.drop_zero]
    rfl
  have hpayload : ∀ i block, spread (start + 1) (padded payload) i = some block →
      d₁.cells.content i = block := by
    intro i block hi
    by_cases hempty : padded payload = []
    · have hrange := spread_range hi
      rw [hempty] at hrange
      simp only [List.length_nil, Nat.zero_div] at hrange
      omega
    · rw [if_neg hempty] at h₁
      rw [Disk.writeBlocks_ok h₁]
      exact (Volatile.write_of_some hi).1
  rw [hcells₄]
  refine ⟨fun i => Volatile.settled_flush _ i, ?_, ?_⟩
  · show d₃.cells.content start = _
    rw [hcells₃]
    exact (Volatile.write_of_some hheader).1
  · -- the header goes to one block, and the payload begins with the next
    refine bytesAt_of_spread (length_padded payload) fun i block hi => ?_
    show d₃.cells.content i = block
    have hother : spread start (encodeHeader generation payload.length (checksum payload).toNat) i =
        none := by
      cases hi' : spread start (encodeHeader generation payload.length (checksum payload).toNat) i with
      | none => rfl
      | some block' =>
        have hstart := (spread_header hi').1
        have hrange := spread_range hi
        omega
    rw [hcells₃, (Volatile.write_of_none hother).1, Disk.flush_ok h₂]
    exact hpayload i block hi

end Write

/-- A save is refused before it touches the device, or fails on the device and remembers nothing, or succeeds and the
    slot it wrote is the one in use. These are all the ways a save can go, over any device. -/
theorem save_cases {D : Type} [BlockDevice D] {tree : FileTree} {store store' : SnapshotStore D}
    {r : Except StorageError Unit} (h : save tree store = (r, store')) :
    (∃ e, r = .error e ∧ store' = store) ∨
      ∃ payload, encodeTree tree = .ok payload ∧ blocksFor payload.length ≤ store.slotBlocks - 1 ∧
        ∃ d', (∃ e, writeSnapshot (store.targetSlot.val * store.slotBlocks) store.nextGeneration
              payload store.device = (.error e, d') ∧ r = .error e ∧
              store' = { store with device := d' }) ∨
          (writeSnapshot (store.targetSlot.val * store.slotBlocks) store.nextGeneration
              payload store.device = (.ok (), d') ∧ r = .ok () ∧
            store' = { device := d', slotBlocks := store.slotBlocks,
                       activeSlot := some store.targetSlot, generation := store.nextGeneration }) := by
  rcases Op.bind_cases h with ⟨e, he, rfl⟩ | ⟨payload, s₁, hencode, h⟩
  · exact Or.inl ⟨e, rfl, (congrArg Prod.snd he).symm⟩
  · obtain ⟨hpayload, rfl⟩ : encodeTree tree = .ok payload ∧ store = s₁ :=
      ⟨congrArg Prod.fst hencode, congrArg Prod.snd hencode⟩
    rw [Op.run_bind_ok (Op.run_read store)] at h
    by_cases hfit : store.slotBlocks - 1 < blocksFor payload.length
    · rw [if_pos hfit] at h
      cases h
      exact Or.inl ⟨_, rfl, rfl⟩
    · rw [if_neg hfit] at h
      refine Or.inr ⟨payload, hpayload, not_lt.mp hfit, ?_⟩
      rcases Op.bind_cases h with ⟨e, he, rfl⟩ | ⟨⟨⟩, s₂, hok, h⟩
      · obtain ⟨d', hd', rfl⟩ := Op.zoom_eq he
        exact ⟨d', Or.inl ⟨e, hd', rfl, rfl⟩⟩
      · obtain ⟨d', hd', rfl⟩ := Op.zoom_eq hok
        cases h
        exact ⟨d', Or.inr ⟨hd', rfl, rfl⟩⟩

end SnapshotStore

end Afos
