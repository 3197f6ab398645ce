import Afos.Proof.Crash

/-!
# A damaged header

Two snapshots are on a disk, the newest in one slot and the one before it in the other, and then
one byte of one header block changes. The checksum in a header is that of the payload; nothing
covers the header itself. So what the damage does depends on the field it falls in. In the magic
number or the checksum it makes the slot read as empty, which is what the second slot is there
for. In the version it makes `open` fail, with a good snapshot in the other slot. In the
generation it can make the older slot win. In the length it can make the checksum be computed
over other bytes, and if these have the same one, what they decode to is taken.
-/

set_option autoImplicit false

namespace Afos

open Lib

/-! ## One byte of a header -/

section Bytes

variable {bytes : Bytes} {offset w i : Nat} {byte : UInt8}

theorem slice_set_of_outside (h : i < offset ∨ offset + w ≤ i) :
    ((bytes.set i byte).drop offset).take w = (bytes.drop offset).take w := by
  refine List.ext_getElem? fun j => ?_
  rw [List.getElem?_take, List.getElem?_take]
  split
  case isTrue hj => rw [List.getElem?_drop, List.getElem?_drop, List.getElem?_set_ne (by omega)]
  case isFalse => rfl

/-- A byte that has become another one changes every slice that it is in. -/
theorem slice_set_ne (hfrom : offset ≤ i) (hto : i < offset + w) (hlen : i < bytes.length)
    (hbyte : bytes[i]? ≠ some byte) :
    ((bytes.set i byte).drop offset).take w ≠ (bytes.drop offset).take w := by
  intro h
  have hi := congrArg (fun slice => slice[i - offset]?) h
  simp only [List.getElem?_take, List.getElem?_drop] at hi
  rw [if_pos (by omega), if_pos (by omega), show offset + (i - offset) = i by omega,
    List.getElem?_set_self hlen] at hi
  exact hbyte hi.symm

theorem headerField_set_of_outside (h : i < offset ∨ offset + w ≤ i) :
    headerField (bytes.set i byte) offset w = headerField bytes offset w := by
  rw [headerField, slice_set_of_outside h, headerField]

theorem headerField_set_ne (hfrom : offset ≤ i) (hto : i < offset + w) (hlen : i < bytes.length)
    (hbyte : bytes[i]? ≠ some byte) :
    headerField (bytes.set i byte) offset w ≠ headerField bytes offset w := by
  intro h
  have hslices := leValue_inj (by simp) h
  exact slice_set_ne hfrom hto hlen hbyte hslices

end Bytes

/-! ## Disks with two snapshots -/

namespace SnapshotStore

/-- Save some trees, one after the other. -/
def saveAll {D : Type} [BlockDevice D] : List FileTree → Op StorageError (SnapshotStore D) Unit
  | [] => pure ()
  | tree :: trees => do
      save tree
      saveAll trees

/-- The disk after a store was opened on a new one and has saved all of `trees`. That the store is
    one and the same makes no difference to the disk: what `open` finds after a save is what the
    store knows. -/
def savedDisk (blockCount : Nat) (trees : List FileTree) : Except StorageError Disk := do
  let (store, _) ← (openDevice (Disk.blank blockCount)).1
  match saveAll trees store with
  | (.error e, _) => .error e
  | (.ok (), store) => .ok store.device

end SnapshotStore

/-- The slot that the save with this number goes to; the first save has the number 1 and goes to slot 0, and from
    then on they take turns. -/
def slotOf (count : Nat) : Fin 2 := Fin.ofNat 2 (count + 1)

/-- The generation it gets. The source adds to it without going past the largest `u64`, so that after so many saves
    all further ones have the same. -/
def generationOf (count : Nat) : Nat := min count (2 ^ 64 - 1)

theorem one_sub_slotOf (count : Nat) : 1 - slotOf count = slotOf (count + 1) := by
  refine Fin.ext ?_
  simp only [slotOf, Fin.sub_def, Fin.ofNat]
  show (2 - (count + 1) % 2 + 1) % 2 = (count + 1 + 1) % 2
  omega

theorem slotOf_succ_ne (count : Nat) : slotOf (count + 1) ≠ slotOf count := by
  intro h
  have hval := congrArg Fin.val h
  simp only [slotOf, Fin.ofNat] at hval
  omega

/-- What is on the disk, and what the store knows of it, after saves of `log`, the newest first. Both of the last two
    are intact: a save does not touch the slot of the one before it. -/
structure Saved (slotBlocks : Nat) (log : List FileTree) (store : SnapshotStore Disk) : Prop where
  size : store.device.blockCount / 2 = slotBlocks
  slotBlocks_eq : store.slotBlocks = slotBlocks
  target : store.targetSlot = slotOf (log.length + 1)
  generation : store.generation = generationOf log.length
  settled : ∀ i, store.device.cells.Settled i
  newest : ∀ tree rest, log = tree :: rest →
    store.device.Intact slotBlocks (slotOf log.length) (generationOf log.length) tree
  previous : ∀ first tree rest, log = first :: tree :: rest →
    store.device.Intact slotBlocks (slotOf (log.length - 1)) (generationOf (log.length - 1)) tree

namespace SnapshotStore

/-- A save that went through: what the store has noted, that everything is settled, what is in the slot it was
    written to, and that nothing was written anywhere else. -/
theorem save_ok {tree : FileTree} {store store' : SnapshotStore Disk}
    (h : save tree store = (.ok (), store')) (hpos : 0 < store.slotBlocks)
    (hsized : ∀ payload, encodeTree tree = .ok payload → payload.length < 2 ^ 64) :
    store' = ⟨store'.device, store.slotBlocks, some store.targetSlot, store.nextGeneration⟩ ∧
      (∀ i, store'.device.cells.Settled i) ∧
      store'.device.Intact store.slotBlocks store.targetSlot store.nextGeneration tree ∧
      store.device.Admits (fun i _ => InSlot store.slotBlocks store.targetSlot i)
        store'.device := by
  rcases save_cases h with ⟨e, hr, -⟩ | ⟨payload, hencode, hfit, d', ⟨e, -, hr, -⟩ | ⟨hwrite, -, rfl⟩⟩
  · cases hr
  · cases hr
  · obtain ⟨hsettled, hheader, hbytes⟩ := writeSnapshot_ok hwrite
    have hspread : ∀ i block, spread (store.targetSlot.val * store.slotBlocks + 1)
        (padded payload) i = some block →
          World.Sound.Writes store.slotBlocks store.targetSlot block i block :=
      fun i block hi => World.Sound.writes_of_spread hfit hpos hi
    have hadmits : store.device.Admits (fun i _ => InSlot store.slotBlocks store.targetSlot i)
        (writeSnapshot (store.targetSlot.val * store.slotBlocks) store.nextGeneration payload
          store.device).2 :=
      keeps_writeSnapshot (fun i block hi => (hspread i block hi).1) (inSlot_start hpos) store.device
    rw [hwrite] at hadmits
    refine ⟨rfl, hsettled, ⟨?_, payload, hencode, hsized payload hencode, hfit, hheader, ?_⟩, hadmits⟩
    · rw [nextGeneration]
      omega
    · rw [Disk.payloadAt, hbytes, take_padded]

end SnapshotStore

namespace Saved

variable {slotBlocks : Nat} {log : List FileTree} {store store' : SnapshotStore Disk}

theorem start {blockCount : Nat} {tree? : Option FileTree}
    (h : (SnapshotStore.openDevice (Disk.blank blockCount)).1 = .ok (store, tree?)) :
    2 ≤ blockCount / 2 ∧ Saved (blockCount / 2) [] store := by
  by_cases hblocks : 2 ≤ blockCount / 2
  · have hread : ∀ slot : Fin 2, (readSlot slot (blockCount / 2) (Disk.blank blockCount).steady).1 =
        .ok none :=
      fun slot => readSlot_of_zero (slot_in_range (d := Disk.blank blockCount) rfl slot) (by omega) rfl
    have hopen := SnapshotStore.openDevice_steady (d := Disk.blank blockCount) hblocks
    rw [show (Disk.blank blockCount).blockCount = blockCount from rfl, hread 0, hread 1,
      show (Disk.blank blockCount).steady = Disk.blank blockCount from rfl, h] at hopen
    cases hopen
    exact ⟨hblocks, rfl, rfl, rfl, rfl, fun i b hb => List.mem_singleton.mp hb,
      fun _ _ hlog => (by cases hlog), fun _ _ _ hlog => (by cases hlog)⟩
  · rw [SnapshotStore.openDevice, Op.run_bind_ok (Op.run_read _)] at h
    have hsmall : BlockDevice.blockCount (Disk.blank blockCount) / 2 < 2 := not_le.mp hblocks
    simp only at h
    rw [if_pos hsmall] at h
    cases h

/-- One more save. -/
theorem step (h : Saved slotBlocks log store) (hpos : 0 < slotBlocks) {tree : FileTree}
    (hsave : SnapshotStore.save tree store = (.ok (), store'))
    (hsized : ∀ payload, encodeTree tree = .ok payload → payload.length < 2 ^ 64) :
    Saved slotBlocks (tree :: log) store' := by
  obtain ⟨hstore', hsettled, hintact, hcount, hadmits⟩ :=
    SnapshotStore.save_ok hsave (h.slotBlocks_eq ▸ hpos) hsized
  have hnext : store.nextGeneration = generationOf (log.length + 1) := by
    rw [SnapshotStore.nextGeneration, h.generation, generationOf, generationOf]
    omega
  rw [h.slotBlocks_eq, h.target, hnext] at hintact hstore'
  rw [h.slotBlocks_eq, h.target] at hadmits
  refine ⟨by rw [hcount]; exact h.size, by rw [hstore'], ?_, by rw [hstore']; rfl, hsettled, ?_, ?_⟩
  · rw [hstore']
    exact one_sub_slotOf _
  · intro first rest hlog
    cases hlog
    exact hintact
  · intro first second rest hlog
    cases hlog
    -- the slot written to is the other one, so this one keeps what it had
    refine (h.newest second rest rfl).keep hpos fun block hblock => ?_
    exact ((h.settled block).keep hadmits fun _ =>
      not_inSlot_of_inSlot hblock (slotOf_succ_ne _)).1

theorem run {trees : List FileTree} (h : Saved slotBlocks log store) (hpos : 0 < slotBlocks)
    (hsaved : SnapshotStore.saveAll trees store = (.ok (), store'))
    (hsized : ∀ tree ∈ trees, ∀ payload, encodeTree tree = .ok payload → payload.length < 2 ^ 64) :
    Saved slotBlocks (trees.reverse ++ log) store' := by
  -- over the trees that are still to be saved, with those that have been in `log`
  induction trees generalizing log store with
  | nil =>
    cases hsaved
    exact h
  | cons tree trees ih =>
    obtain ⟨⟨⟩, next, hsave, hrest⟩ := Op.bind_ok hsaved
    have hnext := h.step hpos hsave (hsized tree List.mem_cons_self)
    rw [List.reverse_cons, List.append_assoc]
    exact ih hnext hrest fun t ht => hsized t (List.mem_cons_of_mem _ ht)

end Saved

/-! ## The damage -/

/-- One byte of a slot's header block, and what it has become. -/
structure Damage where
  slot : Fin 2
  offset : Nat
  byte : UInt8

/-- Of two slots that can both be read, the one with the higher generation is taken; slot 0 if they are the same.
    That the two have the same takes damage, or `2 ^ 64` saves. -/
def Beats (slot : Fin 2) (generation other : Nat) : Prop :=
  other < generation ∨ other = generation ∧ slot = 0

instance (slot : Fin 2) (generation other : Nat) : Decidable (Beats slot generation other) :=
  inferInstanceAs (Decidable (_ ∨ _))

namespace Damage

def block (x : Damage) (d : Disk) : Nat := x.slot.val * (d.blockCount / 2)

def header (x : Damage) (d : Disk) : Bytes :=
  (d.cells.content (x.block d)).bytes.set x.offset x.byte

/-- The byte is one of the header and has become another. -/
def Changes (x : Damage) (d : Disk) : Prop :=
  x.offset < blockSize ∧ (d.cells.content (x.block d)).bytes[x.offset]? ≠ some x.byte

/-- The disk as it is found, with the damage in it. It is found after a restart, so every block is as it is for good
    and there are no faults to come. -/
def strike (x : Damage) (d : Disk) : Disk where
  blockCount := d.blockCount
  cells := Volatile.permanent fun i =>
    if i = x.block d then Block.ofBytes (x.header d) else d.cells.content i
  fates := []

/-- The damage can do no harm on a disk with `count` saves, of which the last two were of
    `previous` and `newest`: it is not in the version; if it leaves the older slot readable, it
    does not make its generation win; if it is in the length, then what is now taken for the
    payload does not fit the slot, or has another checksum, or decodes to a tree that may be
    returned if it is selected. -/
structure Harmless (x : Damage) (d : Disk) (count : Nat) (previous newest : FileTree) : Prop where
  version : ¬ (8 ≤ x.offset ∧ x.offset < 12)
  generation : x.slot = slotOf (count - 1) → 12 ≤ x.offset → (x.offset < 24 ∨ 40 ≤ x.offset) →
    Beats x.slot (headerField (x.header d) 16 8) (generationOf count) → previous = newest
  length : 24 ≤ x.offset → x.offset < 32 →
    blocksFor (headerField (x.header d) 24 8) ≤ d.blockCount / 2 - 1 →
    (checksum (d.payloadAt (x.block d) (headerField (x.header d) 24 8))).toNat =
      headerField (x.header d) 32 8 →
    ∃ tree, decodeTree (d.payloadAt (x.block d) (headerField (x.header d) 24 8)) = .ok tree ∧
      (x.slot = slotOf (count - 1) →
        Beats x.slot (generationOf (count - 1)) (generationOf count) → tree = newest) ∧
      (x.slot = slotOf count →
        Beats x.slot (generationOf count) (generationOf (count - 1)) →
          tree = newest ∨ tree = previous)

end Damage

/-! ## What the slots read as -/

namespace Damage

variable {x : Damage} {d : Disk}

theorem steady_strike (x : Damage) (d : Disk) : (x.strike d).steady = x.strike d := rfl

theorem length_header (x : Damage) (d : Disk) : (x.header d).length = blockSize := by
  rw [header, List.length_set, Block.length_bytes]

theorem strike_header (x : Damage) (d : Disk) :
    ((x.strike d).cells.content (x.block d)).bytes = x.header d := by
  show (if x.block d = x.block d then _ else _ : Block).bytes = _
  rw [if_pos rfl, bytes_ofBytes (x.length_header d)]

theorem strike_other {i : Nat} (h : i ≠ x.block d) :
    (x.strike d).cells.content i = d.cells.content i := if_neg h

theorem payloadAt_strike (x : Damage) (d : Disk) (len : Nat) :
    (x.strike d).payloadAt (x.block d) len = d.payloadAt (x.block d) len := by
  have hbytes : bytesAt (x.strike d).cells.content (x.block d + 1) (blocksFor len) =
      bytesAt d.cells.content (x.block d + 1) (blocksFor len) :=
    bytesAt_congr fun i _ => strike_other (by omega)
  rw [Disk.payloadAt, hbytes, Disk.payloadAt]

/-- What the slot reads as is in its header: the damage is in the header block, and the payload behind it is as it
    was. -/
theorem readSlot_strike (hpos : 0 < d.blockCount / 2) :
    (readSlot x.slot (d.blockCount / 2) (x.strike d)).1 =
      (readPayload (x.block d) (d.blockCount / 2) (x.header d) (x.strike d)).1 := by
  have h := readSlot_steady (d := x.strike d) (slot_in_range (d := x.strike d) rfl x.slot) hpos
  rw [steady_strike, show x.slot.val * ((x.strike d).blockCount / 2) = x.block d from rfl,
    x.strike_header d] at h
  exact congrArg Prod.fst h

/-- The header of a slot that is intact, field by field, in the order in which `read_slot` looks at them: magic
    number, version, generation, length, checksum, and what the payload decodes to. -/
theorem fields_of_intact {g : Nat} {tree : FileTree}
    (h : d.Intact (d.blockCount / 2) x.slot g tree) {header : Bytes}
    (hheader : header = (d.cells.content (x.block d)).bytes) :
    header.take 8 = magic ∧ headerField header 8 4 = formatVersion ∧
      headerField header 16 8 = g ∧ blocksFor (headerField header 24 8) ≤ d.blockCount / 2 - 1 ∧
      (checksum (d.payloadAt (x.block d) (headerField header 24 8))).toNat =
        headerField header 32 8 ∧
      decodeTree (d.payloadAt (x.block d) (headerField header 24 8)) = .ok tree := by
  obtain ⟨hg, payload, hencode, hlen, hfit, hblock, hpayload⟩ := h
  rw [block, hblock, bytes_headerBlock] at hheader
  rw [hheader, headerField_payloadLen hlen, headerField_checksum (checksum payload).toNat_lt, block,
    hpayload]
  exact ⟨take_encodeHeader _ _ _, headerField_version _ _ _, headerField_generation hg, hfit, rfl,
    decodeTree_of_encodeTree hencode⟩

/-- From the version field on, the magic number is there. -/
theorem magic_kept {g : Nat} {tree : FileTree}
    (hintact : d.Intact (d.blockCount / 2) x.slot g tree) (hoffset : 8 ≤ x.offset) : (x.header d).take 8 = magic := by
  obtain ⟨hmagic, -⟩ := fields_of_intact hintact rfl
  rw [← hmagic]
  have hslice : ((x.header d).drop 0).take 8 = (((d.cells.content (x.block d)).bytes).drop 0).take 8 :=
    slice_set_of_outside (Or.inr (by omega))
  exact hslice

section Reads

variable {g : Nat} {tree : FileTree} (hintact : d.Intact (d.blockCount / 2) x.slot g tree)
  (hpos : 0 < d.blockCount / 2) (hchanges : x.Changes d)
include hintact hpos

/-- After the version field, the slot reads as the header says. The bytes between the version and the generation, and
    those behind the checksum, are looked at by nothing. -/
theorem read_of_fields (hoffset : 12 ≤ x.offset) :
    (readSlot x.slot (d.blockCount / 2) (x.strike d)).1 =
      if d.blockCount / 2 - 1 < blocksFor (headerField (x.header d) 24 8) then .ok none
      else if (checksum (d.payloadAt (x.block d) (headerField (x.header d) 24 8))).toNat ≠
          headerField (x.header d) 32 8 then .ok none
      else (decodeTree (d.payloadAt (x.block d) (headerField (x.header d) 24 8))).map
        fun tree => some ⟨headerField (x.header d) 16 8, tree⟩ := by
  obtain ⟨-, hversion, -⟩ := fields_of_intact hintact rfl
  have hkept : headerField (x.header d) 8 4 = formatVersion := by
    rw [← hversion]
    exact headerField_set_of_outside (Or.inr (by omega))
  have h := readSlot_of_fields (d := x.strike d) (slot_in_range (d := x.strike d) rfl x.slot) hpos
    (x.strike_header d) (magic_kept hintact (by omega)) hkept
  rw [show x.slot.val * ((x.strike d).blockCount / 2) = x.block d from rfl,
    x.payloadAt_strike d] at h
  exact h

/-- Damage outside of length and checksum leaves the tree as it is; the generation is what the
    header now says. -/
theorem read_of_elsewhere (hfrom : 12 ≤ x.offset) (hto : x.offset < 24 ∨ 40 ≤ x.offset) :
    (readSlot x.slot (d.blockCount / 2) (x.strike d)).1 =
      .ok (some ⟨headerField (x.header d) 16 8, tree⟩) := by
  obtain ⟨-, -, -, hfit, hsum, hdecode⟩ := fields_of_intact hintact rfl
  have hlength : headerField (x.header d) 24 8 =
      headerField (d.cells.content (x.block d)).bytes 24 8 :=
    headerField_set_of_outside (by omega)
  have hchecksum : headerField (x.header d) 32 8 =
      headerField (d.cells.content (x.block d)).bytes 32 8 :=
    headerField_set_of_outside (by omega)
  rw [read_of_fields hintact hpos hfrom, hlength, if_neg (not_lt.mpr hfit), hchecksum, hsum,
    if_neg (not_not.mpr rfl), hdecode]
  rfl

include hchanges

/-- Without its magic number the slot counts as empty, whether or not the rest of it makes sense. -/
theorem read_of_magic (hoffset : x.offset < 8) :
    (readSlot x.slot (d.blockCount / 2) (x.strike d)).1 = .ok none := by
  obtain ⟨hmagic, -⟩ := fields_of_intact hintact rfl
  have hlen : x.offset < (d.cells.content (x.block d)).bytes.length := by
    rw [Block.length_bytes]
    exact hchanges.1
  have hne : (x.header d).take 8 ≠ magic := by
    rw [← hmagic]
    exact slice_set_ne (Nat.zero_le _) (by omega) hlen hchanges.2
  rw [readSlot_strike hpos, readPayload]
  by_cases hzero : (x.header d).all (fun byte => byte == 0) = true
  · rw [if_pos hzero]
    rfl
  · rw [if_neg hzero, if_pos hne]
    rfl

/-- Another version is an error and not an empty slot, so `open` fails whatever the other slot holds. -/
theorem read_of_version (hfrom : 8 ≤ x.offset) (hto : x.offset < 12) :
    ∃ e, (readSlot x.slot (d.blockCount / 2) (x.strike d)).1 = .error e := by
  obtain ⟨-, hversion, -⟩ := fields_of_intact hintact rfl
  have hmagic := magic_kept hintact hfrom
  have hlen : x.offset < (d.cells.content (x.block d)).bytes.length := by
    rw [Block.length_bytes]
    exact hchanges.1
  have hne : headerField (x.header d) 8 4 ≠ formatVersion := by
    rw [← hversion]
    exact headerField_set_ne hfrom (by omega) hlen hchanges.2
  rw [readSlot_strike hpos, readPayload, if_neg (not_all_zero_of_magic hmagic),
    if_neg (not_not.mpr hmagic), if_pos hne]
  exact ⟨_, rfl⟩

/-- With another checksum the slot counts as empty. -/
theorem read_of_checksum (hfrom : 32 ≤ x.offset) (hto : x.offset < 40) :
    (readSlot x.slot (d.blockCount / 2) (x.strike d)).1 = .ok none := by
  obtain ⟨-, -, -, hfit, hsum, -⟩ := fields_of_intact hintact rfl
  have hlen : x.offset < (d.cells.content (x.block d)).bytes.length := by
    rw [Block.length_bytes]
    exact hchanges.1
  have hkept : headerField (x.header d) 24 8 =
      headerField (d.cells.content (x.block d)).bytes 24 8 :=
    headerField_set_of_outside (Or.inr (by omega))
  have hne : headerField (x.header d) 32 8 ≠
      headerField (d.cells.content (x.block d)).bytes 32 8 :=
    headerField_set_ne hfrom (by omega) hlen hchanges.2
  rw [read_of_fields hintact hpos (by omega), hkept, if_neg (not_lt.mpr hfit), hsum,
    if_pos hne.symm]

end Reads

end Damage

/-! ## Opening the damaged disk -/

/-- The tree of a slot or of the other one, which can be read: the choice that `open` makes, written from the point of
    view of the damaged slot, whichever of the two it is. -/
def chosen (slot : Fin 2) (other : DecodedSnapshot) : Option DecodedSnapshot → FileTree
  | none => other.tree
  | some snapshot =>
      if Beats slot snapshot.generation other.generation then snapshot.tree else other.tree

/-- `open` compares the first slot with the second; seen from the damaged one there are two cases, since only the
    first of them wins a tie. -/
theorem selectSlot_of_other {reading : Fin 2 → Option DecodedSnapshot} {slot : Fin 2}
    {other : DecodedSnapshot} (hother : reading (1 - slot) = some other) :
    (selectSlot (reading 0) (reading 1)).map (fun p => p.2.tree) =
      some (chosen slot other (reading slot)) := by
  have hslot : slot = 0 ∨ slot = 1 := by omega
  rcases hslot with rfl | rfl
  · have h₁ : reading 1 = some other := hother
    rw [h₁]
    cases reading 0 with
    | none => rfl
    | some snapshot =>
      by_cases hlt : snapshot.generation < other.generation
      · have hloses : ¬ Beats 0 snapshot.generation other.generation := by
          rintro (h | ⟨h, -⟩)
          · omega
          · omega
        simp only [selectSlot, chosen, if_pos hlt, if_neg hloses, Option.map_some]
      · have hwins : Beats 0 snapshot.generation other.generation := by
          rcases lt_or_eq_of_le (not_lt.mp hlt) with h | h
          · exact Or.inl h
          · exact Or.inr ⟨h, rfl⟩
        simp only [selectSlot, chosen, if_neg hlt, if_pos hwins, Option.map_some]
  · have h₀ : reading 0 = some other := hother
    rw [h₀]
    cases reading 1 with
    | none => rfl
    | some snapshot =>
      by_cases hlt : other.generation < snapshot.generation
      · have hwins : Beats 1 snapshot.generation other.generation := Or.inl hlt
        simp only [selectSlot, chosen, if_pos hlt, if_pos hwins, Option.map_some]
      · have hloses : ¬ Beats 1 snapshot.generation other.generation := by
          rintro (h | ⟨-, h⟩)
          · exact hlt h
          · cases h
        simp only [selectSlot, chosen, if_neg hlt, if_neg hloses, Option.map_some]

namespace SnapshotStore

variable {d : Disk} {slot : Fin 2} {other : DecodedSnapshot}

/-- `open` fails with the error of a slot, also if the other one is in order. -/
theorem openDevice_fails (hd : 2 ≤ d.blockCount / 2) {e : StorageError}
    (h : (readSlot slot (d.blockCount / 2) d.steady).1 = .error e)
    (hother : (readSlot (1 - slot) (d.blockCount / 2) d.steady).1 = .ok (some other)) :
    (openDevice d.steady).1 = .error e := by
  have hslot : slot = 0 ∨ slot = 1 := by omega
  rw [openDevice_steady hd]
  rcases hslot with rfl | rfl
  · rw [h]
    rfl
  · have h₀ : (readSlot 0 (d.blockCount / 2) d.steady).1 = .ok (some other) := hother
    rw [h₀, h]
    rfl

theorem openDevice_returns (hd : 2 ≤ d.blockCount / 2) {read : Option DecodedSnapshot}
    (h : (readSlot slot (d.blockCount / 2) d.steady).1 = .ok read)
    (hother : (readSlot (1 - slot) (d.blockCount / 2) d.steady).1 = .ok (some other)) :
    ∃ store, (openDevice d.steady).1 = .ok (store, some (chosen slot other read)) := by
  have hne : 1 - slot ≠ slot := by omega
  let reading : Fin 2 → Option DecodedSnapshot := fun i => if i = slot then read else some other
  have hreading : ∀ i, (readSlot i (d.blockCount / 2) d.steady).1 = .ok (reading i) := by
    intro i
    by_cases hi : i = slot
    · rw [hi, h]
      exact congrArg _ (if_pos rfl).symm
    · have hi' : i = 1 - slot := by omega
      rw [hi', hother]
      exact congrArg _ (if_neg hne).symm
  have hselected : (selectSlot (reading 0) (reading 1)).map (fun p => p.2.tree) =
      some (chosen slot other read) := by
    rw [selectSlot_of_other (if_neg hne)]
    exact congrArg (fun r => some (chosen slot other r)) (if_pos rfl)
  refine ⟨(opened (d.blockCount / 2) (selectSlot (reading 0) (reading 1)) d.steady).1, ?_⟩
  rw [openDevice_steady hd, hreading 0, hreading 1, ← hselected]
  rfl

end SnapshotStore

namespace Damage

variable {x : Damage} {d : Disk} {g g' : Nat} {own other : FileTree}

theorem intact_strike {slot : Fin 2} (h : d.Intact (d.blockCount / 2) slot g other)
    (hne : slot ≠ x.slot) (hpos : 0 < d.blockCount / 2) :
    (x.strike d).Intact (d.blockCount / 2) slot g other := by
  refine h.keep hpos fun block hblock => strike_other fun heq => ?_
  rw [heq] at hblock
  exact not_inSlot_of_inSlot hblock hne.symm (inSlot_start hpos)

/-- `open` succeeds on the damaged disk, and finds a tree that is as wanted. What is wanted depends on the slot that
    is damaged, so it is a parameter, and the two slots are treated alike up to the end. -/
def Returns (x : Damage) (d : Disk) (P : FileTree → Prop) : Prop :=
  ∃ store tree, (SnapshotStore.openDevice (x.strike d)).1 = .ok (store, some tree) ∧ P tree

section Returns

variable {P : FileTree → Prop} (hd : 2 ≤ d.blockCount / 2)
  (hother : d.Intact (d.blockCount / 2) (1 - x.slot) g' other)
include hd hother

theorem read_other : (readSlot (1 - x.slot) (d.blockCount / 2) (x.strike d)).1 =
    .ok (some ⟨g', other⟩) := by
  have hpos : 0 < d.blockCount / 2 := by omega
  exact (intact_strike hother (by omega) hpos).read rfl hpos

theorem not_returns_of_error {e : StorageError}
    (h : (readSlot x.slot (d.blockCount / 2) (x.strike d)).1 = .error e) : ¬ x.Returns d P := by
  intro ⟨store, tree, hopen, _⟩
  cases hopen.symm.trans
    (SnapshotStore.openDevice_fails (d := x.strike d) hd h (read_other hd hother))

theorem returns_iff_of_ok {read : Option DecodedSnapshot}
    (h : (readSlot x.slot (d.blockCount / 2) (x.strike d)).1 = .ok read) :
    x.Returns d P ↔ P (chosen x.slot ⟨g', other⟩ read) := by
  obtain ⟨store, hopen⟩ :=
    SnapshotStore.openDevice_returns (d := x.strike d) hd h (read_other hd hother)
  constructor
  · intro ⟨store', tree, hopen', htree⟩
    cases hopen'.symm.trans hopen
    exact htree
  · intro h
    exact ⟨store, _, hopen, h⟩

variable (hP : P other)
include hP

theorem returns_of_none (h : (readSlot x.slot (d.blockCount / 2) (x.strike d)).1 = .ok none) :
    x.Returns d P := (returns_iff_of_ok hd hother h).mpr hP

theorem returns_iff_of_some {generation : Nat} {tree : FileTree}
    (h : (readSlot x.slot (d.blockCount / 2) (x.strike d)).1 = .ok (some ⟨generation, tree⟩)) :
    x.Returns d P ↔ (Beats x.slot generation g' → P tree) := by
  rw [returns_iff_of_ok hd hother h, chosen]
  by_cases hbeats : Beats x.slot generation g'
  · rw [if_pos hbeats]
    exact ⟨fun h _ => h, fun h => h hbeats⟩
  · rw [if_neg hbeats]
    exact ⟨fun _ h => absurd h hbeats, fun _ => hP⟩

/-- Damage in the length. The payload is read with the new length; if that fits into the slot and the checksum of
    these other bytes is by chance the one in the header, they are decoded. A tree that comes out is taken if the
    slot wins, and if none comes out `open` fails. -/
theorem returns_iff_of_length (hintact : d.Intact (d.blockCount / 2) x.slot g own)
    (hfrom : 24 ≤ x.offset) (hto : x.offset < 32) :
    x.Returns d P ↔ (blocksFor (headerField (x.header d) 24 8) ≤ d.blockCount / 2 - 1 →
      (checksum (d.payloadAt (x.block d) (headerField (x.header d) 24 8))).toNat =
        headerField (x.header d) 32 8 →
      ∃ tree, decodeTree (d.payloadAt (x.block d) (headerField (x.header d) 24 8)) = .ok tree ∧
        (Beats x.slot g g' → P tree)) := by
  obtain ⟨-, -, hgeneration, -⟩ := fields_of_intact hintact rfl
  have hkept : headerField (x.header d) 16 8 = g := by
    rw [← hgeneration]
    exact headerField_set_of_outside (Or.inr (by omega))
  have hread := read_of_fields hintact (by omega) (show 12 ≤ x.offset by omega)
  rw [hkept] at hread
  by_cases hfit : d.blockCount / 2 - 1 < blocksFor (headerField (x.header d) 24 8)
  · rw [if_pos hfit] at hread
    exact ⟨fun _ h => absurd hfit (not_lt.mpr h), fun _ => returns_of_none hd hother hP hread⟩
  · rw [if_neg hfit] at hread
    by_cases hsum : (checksum (d.payloadAt (x.block d) (headerField (x.header d) 24 8))).toNat =
        headerField (x.header d) 32 8
    · rw [if_neg (not_not.mpr hsum)] at hread
      cases hdecode : decodeTree (d.payloadAt (x.block d) (headerField (x.header d) 24 8)) with
      | error e =>
        rw [hdecode] at hread
        refine ⟨fun h => absurd h (not_returns_of_error hd hother hread), fun h => ?_⟩
        obtain ⟨tree, htree, -⟩ := h (not_lt.mp hfit) hsum
        cases htree
      | ok tree =>
        rw [hdecode] at hread
        rw [returns_iff_of_some hd hother hP hread]
        refine ⟨fun h _ _ => ⟨tree, rfl, h⟩, fun h => ?_⟩
        obtain ⟨tree', htree, h⟩ := h (not_lt.mp hfit) hsum
        cases htree
        exact h
    · rw [if_pos hsum] at hread
      exact ⟨fun _ _ h => absurd h hsum, fun _ => returns_of_none hd hother hP hread⟩

/-- What the damage does, field by field, when the tree in the other slot may be returned. The fields are gone through
    one after the other; those that only make the slot read as empty add no condition. -/
theorem returns_iff (hintact : d.Intact (d.blockCount / 2) x.slot g own) (hchanges : x.Changes d) :
    x.Returns d P ↔ ¬ (8 ≤ x.offset ∧ x.offset < 12) ∧
      (12 ≤ x.offset → (x.offset < 24 ∨ 40 ≤ x.offset) →
        Beats x.slot (headerField (x.header d) 16 8) g' → P own) ∧
      (24 ≤ x.offset → x.offset < 32 →
        blocksFor (headerField (x.header d) 24 8) ≤ d.blockCount / 2 - 1 →
        (checksum (d.payloadAt (x.block d) (headerField (x.header d) 24 8))).toNat =
          headerField (x.header d) 32 8 →
        ∃ tree, decodeTree (d.payloadAt (x.block d) (headerField (x.header d) 24 8)) = .ok tree ∧
          (Beats x.slot g g' → P tree)) := by
  have hpos : 0 < d.blockCount / 2 := by omega
  by_cases hversion : 8 ≤ x.offset ∧ x.offset < 12
  · obtain ⟨e, hread⟩ := read_of_version hintact hpos hchanges hversion.1 hversion.2
    exact ⟨fun h => absurd h (not_returns_of_error hd hother hread), fun h => absurd hversion h.1⟩
  by_cases hlength : 24 ≤ x.offset ∧ x.offset < 32
  · rw [returns_iff_of_length hd hother hP hintact hlength.1 hlength.2]
    exact ⟨fun h => ⟨hversion, fun _ hout => (by omega), fun _ _ => h⟩,
      fun h => h.2.2 hlength.1 hlength.2⟩
  by_cases helsewhere : 12 ≤ x.offset ∧ (x.offset < 24 ∨ 40 ≤ x.offset)
  · have hread := read_of_elsewhere hintact hpos helsewhere.1 helsewhere.2
    rw [returns_iff_of_some hd hother hP hread]
    exact ⟨fun h => ⟨hversion, fun _ _ => h, fun hfrom hto => absurd ⟨hfrom, hto⟩ hlength⟩,
      fun h => h.2.1 helsewhere.1 helsewhere.2⟩
  -- what is left is the magic number and the checksum
  have hread : (readSlot x.slot (d.blockCount / 2) (x.strike d)).1 = .ok none := by
    by_cases hmagic : x.offset < 8
    · exact read_of_magic hintact hpos hchanges hmagic
    · exact read_of_checksum hintact hpos hchanges (by omega) (by omega)
  exact ⟨fun _ => ⟨hversion, fun hfrom hout => absurd ⟨hfrom, hout⟩ helsewhere,
    fun hfrom hto => absurd ⟨hfrom, hto⟩ hlength⟩, fun _ => returns_of_none hd hother hP hread⟩

end Returns

end Damage

theorem SnapshotStore.savedDisk_ok {blockCount : Nat} {trees : List FileTree} {d : Disk}
    (h : savedDisk blockCount trees = .ok d)
    (hsized : ∀ tree ∈ trees, ∀ payload, encodeTree tree = .ok payload → payload.length < 2 ^ 64) :
    2 ≤ d.blockCount / 2 ∧
      ∃ store, store.device = d ∧ Saved (d.blockCount / 2) trees.reverse store := by
  rw [savedDisk] at h
  cases hopen : (openDevice (Disk.blank blockCount)).1 with
  | error e =>
    rw [hopen] at h
    cases h
  | ok opened =>
    obtain ⟨first, tree?⟩ := opened
    rw [hopen] at h
    obtain ⟨hblocks, hfirst⟩ := Saved.start hopen
    cases hsaved : saveAll trees first with
    | mk r store =>
      cases r with
      | error e =>
        simp only [bind, Except.bind, hsaved] at h
        cases h
      | ok =>
        simp only [bind, Except.bind, hsaved] at h
        cases h
        have hrun := hfirst.run (by omega) hsaved hsized
        rw [List.append_nil] at hrun
        rw [hrun.size]
        exact ⟨hblocks, store, rfl, hrun⟩

/-- Two trees have been saved, `newest` last. One byte of one header changes, and `open` still
    finds a tree, `newest` if the damage is in the other slot and one of the two if it is in its
    own, exactly when the damage is harmless. -/
theorem SnapshotStore.open_after_header_damage {blockCount : Nat} {earlier : List FileTree}
    {previous newest : FileTree} {d : Disk}
    (hsaved : savedDisk blockCount (earlier ++ [previous, newest]) = .ok d)
    (hsized : ∀ tree ∈ earlier ++ [previous, newest], ∀ payload,
      encodeTree tree = .ok payload → payload.length < 2 ^ 64)
    (x : Damage) (hchanges : x.Changes d) :
    (∃ store tree, (openDevice (x.strike d)).1 = .ok (store, some tree) ∧
        (x.slot = slotOf (earlier.length + 1) → tree = newest) ∧
        (x.slot = slotOf (earlier.length + 2) → tree = newest ∨ tree = previous)) ↔
      x.Harmless d (earlier.length + 2) previous newest := by
  obtain ⟨hd, store, rfl, hstore⟩ := savedDisk_ok hsaved hsized
  have hlog : (earlier ++ [previous, newest]).reverse = newest :: previous :: earlier.reverse := by
    simp
  rw [hlog] at hstore
  have hnewest := hstore.newest _ _ rfl
  have hprevious := hstore.previous _ _ _ rfl
  simp only [List.length_cons, List.length_reverse, Nat.add_sub_cancel] at hnewest hprevious
  have hdistinct := slotOf_succ_ne (earlier.length + 1)
  by_cases hslot : x.slot = slotOf (earlier.length + 1)
  · -- the older snapshot is damaged: `newest` has to be found
    rw [← hslot] at hprevious hdistinct
    rw [show slotOf (earlier.length + 1 + 1) = 1 - x.slot by rw [hslot, one_sub_slotOf]] at hnewest
    refine (Damage.returns_iff hd hnewest ⟨fun _ => rfl, fun _ => Or.inl rfl⟩ hprevious
      hchanges).trans ?_
    constructor
    · intro ⟨hversion, hgeneration, hlength⟩
      refine ⟨hversion, fun _ hfrom hout hbeats => (hgeneration hfrom hout hbeats).1 hslot, ?_⟩
      intro hfrom hto hfit hsum
      obtain ⟨tree, hdecode, htree⟩ := hlength hfrom hto hfit hsum
      exact ⟨tree, hdecode, fun _ hbeats => (htree hbeats).1 hslot,
        fun h => absurd h.symm hdistinct⟩
    · intro h
      refine ⟨h.version, fun hfrom hout hbeats => ?_, fun hfrom hto hfit hsum => ?_⟩
      · exact ⟨fun _ => h.generation hslot hfrom hout hbeats, fun heq => absurd heq.symm hdistinct⟩
      · obtain ⟨tree, hdecode, htree, -⟩ := h.length hfrom hto hfit hsum
        exact ⟨tree, hdecode, fun hbeats => ⟨fun _ => htree hslot hbeats,
          fun heq => absurd heq.symm hdistinct⟩⟩
  · -- the newest is damaged: either of the two may be found
    have hflip := one_sub_slotOf (earlier.length + 1)
    have hslot' : x.slot = slotOf (earlier.length + 1 + 1) := by omega
    rw [← hslot'] at hnewest
    rw [show slotOf (earlier.length + 1) = 1 - x.slot by omega] at hprevious
    refine (Damage.returns_iff hd hprevious ⟨fun h => absurd h hslot, fun _ => Or.inr rfl⟩ hnewest
      hchanges).trans ?_
    constructor
    · intro ⟨hversion, _, hlength⟩
      refine ⟨hversion, fun h => absurd h hslot, fun hfrom hto hfit hsum => ?_⟩
      obtain ⟨tree, hdecode, htree⟩ := hlength hfrom hto hfit hsum
      exact ⟨tree, hdecode, fun h => absurd h hslot, fun _ hbeats => (htree hbeats).2 hslot'⟩
    · intro h
      refine ⟨h.version, fun _ _ _ => ⟨fun heq => absurd heq hslot, fun _ => Or.inl rfl⟩, ?_⟩
      intro hfrom hto hfit hsum
      obtain ⟨tree, hdecode, -, htree⟩ := h.length hfrom hto hfit hsum
      exact ⟨tree, hdecode, fun hbeats => ⟨fun heq => absurd heq hslot, fun _ => htree hslot' hbeats⟩⟩

/-! ## Two saves -/

def twoTrees : List FileTree := [directoryTree 'a', directoryTree 'b']

/-- The last byte of the version in the newest snapshot's header. -/
def versionDamage : Damage := ⟨1, 11, 1⟩

/-- The highest byte of the generation in the older snapshot's header. -/
def generationDamage : Damage := ⟨0, 23, 1⟩

/-- The first byte of the magic number in the newest snapshot's header. -/
def magicDamage : Damage := ⟨1, 0, 0⟩

instance (x : Damage) (d : Disk) : Decidable (x.Changes d) := inferInstanceAs (Decidable (_ ∧ _))

theorem exists_ok_of_all {ε α : Type} {x : Except ε α} {p : α → Bool}
    (h : (x.map p).toOption = some true) : ∃ a, x = .ok a ∧ p a = true := by
  cases x with
  | error e => cases h
  | ok a => exact ⟨a, rfl, Option.some.inj h⟩

theorem sized_twoTrees : ∀ tree ∈ twoTrees, ∀ payload,
    encodeTree tree = .ok payload → payload.length < 2 ^ 64 := by
  intro tree htree payload h
  have hall : ∀ tree ∈ twoTrees, ((encodeTree tree).map List.length).toOption = some 13 := by
    decide +kernel
  have hlen := hall tree htree
  rw [h] at hlen
  rw [show payload.length = 13 from Option.some.inj hlen]
  decide

/-- With the version damaged `open` fails, though the other snapshot is in order. With the
    generation damaged the older snapshot wins. -/
theorem SnapshotStore.header_damage_loses_trees : ∃ d, savedDisk 4 twoTrees = .ok d ∧
    versionDamage.Changes d ∧ generationDamage.Changes d ∧
    (openDevice (versionDamage.strike d)).1.map Prod.snd = .error (.unsupportedVersion 16777217) ∧
    (openDevice (generationDamage.strike d)).1.map Prod.snd = .ok (some (directoryTree 'a')) := by
  obtain ⟨d, hd, h⟩ := exists_ok_of_all (x := savedDisk 4 twoTrees) (p := fun d => decide
    (versionDamage.Changes d ∧ generationDamage.Changes d ∧
      (openDevice (versionDamage.strike d)).1.map Prod.snd = .error (.unsupportedVersion 16777217) ∧
      (openDevice (generationDamage.strike d)).1.map Prod.snd = .ok (some (directoryTree 'a'))))
    (by decide +kernel)
  exact ⟨d, hd, of_decide_eq_true h⟩

theorem SnapshotStore.open_after_magic_damage : ∃ d, savedDisk 4 twoTrees = .ok d ∧
    ∃ store tree, (openDevice (magicDamage.strike d)).1 = .ok (store, some tree) ∧
      (magicDamage.slot = slotOf 1 → tree = directoryTree 'b') ∧
      (magicDamage.slot = slotOf 2 → tree = directoryTree 'b' ∨ tree = directoryTree 'a') := by
  obtain ⟨d, hd, h⟩ := exists_ok_of_all (x := savedDisk 4 twoTrees)
    (p := fun d => decide (magicDamage.Changes d)) (by decide +kernel)
  have hiff := @SnapshotStore.open_after_header_damage 4 [] (directoryTree 'a') (directoryTree 'b') d
    hd sized_twoTrees magicDamage (of_decide_eq_true h)
  refine ⟨d, hd, hiff.mpr ⟨by decide, fun _ hfrom => ?_, fun hfrom => ?_⟩⟩
  · exact absurd hfrom (by decide)
  · exact absurd hfrom (by decide)

end Afos
