import Afos.Proof.Slots

/-!
# What survives a crash

A save goes to the slot that is not in use, payload before header, with a flush after each. So
the slot that is in use is not written to, and the other one counts only once its header is on
the medium. That argument needs the slot in use to be on the medium itself. A save that fails at
its last flush leaves a header that reads back and is not there for good; a store that is then
opened *without a crash in between* takes that slot for the one in use, and the next save
overwrites the other, the only one that would survive.

The invariant (`Consistent`) names the slot in use and its generation `g`. Every block of the
slot is settled and it holds a tree that may be returned. The other slot's header is zero, or
that of a save with a generation below `g`, or that of a save made since, with generation
`g + 1`, whose tree may be returned as well. A disk on which nothing counts yet is the case
without a slot.
-/

set_option autoImplicit false

namespace Afos

open Lib

/-! ## What a history is about -/

def InSlot (slotBlocks : Nat) (slot : Fin 2) (block : Nat) : Prop :=
  slot.val * slotBlocks ≤ block ∧ block < slot.val * slotBlocks + slotBlocks

/-- The slot's blocks hold the tree, under this generation: as they read back now, its first block is the header of
    the tree's payload and the blocks after it are the payload. Nothing is said of whether they would still be there
    after a crash. -/
def Disk.Intact (d : Disk) (slotBlocks : Nat) (slot : Fin 2) (generation : Nat) (tree : FileTree) :
    Prop :=
  generation < 2 ^ 64 ∧ ∃ payload, encodeTree tree = .ok payload ∧ payload.length < 2 ^ 64 ∧
    blocksFor payload.length ≤ slotBlocks - 1 ∧
    d.cells.content (slot.val * slotBlocks) = headerBlock generation payload ∧
    d.payloadAt (slot.val * slotBlocks) payload.length = payload

namespace World

def slotBlocks (w : World) : Nat := w.disk.blockCount / 2

/-- A payload image passes the checksum in a header only if it is a payload that this header was written for. A
    header can be on the disk with blocks behind it that are not its payload, when a later save to the slot was cut
    off; the checksum of 64 bits is all that tells them from the payload, and chance can defeat it. The assumption
    is that it does not, in the blocks that are on this disk. -/
def NoCollision (w : World) : Prop :=
  ∀ slot : Fin 2, ∀ a ∈ w.log, ∀ payload, encodeTree a.tree = .ok payload →
    w.disk.cells.content (slot.val * w.slotBlocks) = headerBlock a.generation payload →
    checksum (w.disk.payloadAt (slot.val * w.slotBlocks) payload.length) = checksum payload →
    ∃ b ∈ w.log, headerBlock b.generation
        (w.disk.payloadAt (slot.val * w.slotBlocks) payload.length) =
          headerBlock a.generation payload ∧
      encodeTree b.tree = .ok (w.disk.payloadAt (slot.val * w.slotBlocks) payload.length)

/-- If a slot holds the newest snapshot, no block of the slot is waiting for a flush. It is a condition on the disk at
    the moment a store is opened, because `open` takes the newest snapshot for the slot in use and the next save
    overwrites the other. -/
def Anchored (w : World) : Prop :=
  ∀ slot generation tree, w.disk.Intact w.slotBlocks slot generation tree →
    (∀ other generation' tree', w.disk.Intact w.slotBlocks other generation' tree' →
      generation' ≤ generation) →
    ∀ block, InSlot w.slotBlocks slot block → w.disk.cells.Settled block

end World

/-- The length of what is saved is a machine number. -/
def DeviceEvent.Sized (e : DeviceEvent) : Prop :=
  ∀ tree, e.tree? = some tree → ∀ payload, encodeTree tree = .ok payload → payload.length < 2 ^ 64

/-- The slot that is not in use: the one a store writes to next. -/
def target (active : Option (Fin 2)) : Fin 2 := SnapshotStore.targetSlot (D := Unit) ⟨(), 0, active, 0⟩

theorem one_sub_target (slot : Fin 2) : 1 - target (some slot) = slot := by
  show 1 - (1 - slot) = slot
  omega

/-- The saves so far, when the slot in use has generation `g`. There may be several of generation `g + 1`: each save
    that fails is tried under it again. All of them came after the last that returned `Ok`, so whichever of them
    comes to be found, its tree may be returned. -/
structure Logged (g : Nat) (log : List Attempt) : Prop where
  reached : g ≤ log.length
  counted : ∀ a ∈ log, a.generation ≤ log.length
  bounded : ∀ a ∈ log, a.generation ≤ g + 1
  newest : ∀ a ∈ log, a.generation = g + 1 → a.tree ∈ eligible log
  sized : ∀ a ∈ log, ∀ payload, encodeTree a.tree = .ok payload → payload.length < 2 ^ 64

/-- The disk, when `active` is the slot in use and has generation `g`. The slot in use is described as it is
    (`held`), and is settled. Of the other slot only the header is described, with all that it may turn into at a
    crash (`headers`): whether the blocks behind it count is decided by the checksum when it is read. -/
structure Consistent (slotBlocks : Nat) (active : Option (Fin 2)) (g : Nat) (log : List Attempt)
    (d : Disk) : Prop where
  size : d.blockCount / 2 = slotBlocks
  headers : ∀ block ∈ d.cells.candidates ((target active).val * slotBlocks), block = zeroBlock ∨
    ∃ a ∈ log, a.generation ≠ g ∧
      ∃ payload, encodeTree a.tree = .ok payload ∧ block = headerBlock a.generation payload
  held : ∀ slot, active = some slot →
    (∃ a ∈ log, a.generation = g ∧ a.tree ∈ eligible log ∧ d.Intact slotBlocks slot g a.tree) ∧
      ∀ block, InSlot slotBlocks slot block → d.cells.Settled block
  fresh : active = none → g = 0 ∧ (∀ a ∈ log, a.returnedOk = false) ∧
    ∀ block ∈ d.cells.candidates ((1 : Fin 2).val * slotBlocks), block = zeroBlock

/-- What the store remembers is the slot in use. Without a store there is nothing to remember: the next `open` finds
    it out from the disk. -/
def Remembers (slotBlocks : Nat) (active : Option (Fin 2)) (g : Nat) : Holder → Prop
  | .closed _ => True
  | .opened store =>
      store.slotBlocks = slotBlocks ∧ store.activeSlot = active ∧ store.generation = g

/-- The invariant of a history: the log, the disk and the store agree about one slot in use. Which slot it is changes
    with each save that goes through, and with an `open` that finds a newer snapshot. -/
structure World.Sound (slotBlocks : Nat) (active : Option (Fin 2)) (g : Nat) (w : World) : Prop where
  logged : Logged g w.log
  consistent : Consistent slotBlocks active g w.log w.disk
  remembers : Remembers slotBlocks active g w.holder

/-! ## Slots -/

section Slots

variable {d d' : Disk} {slotBlocks g : Nat} {slot : Fin 2} {tree : FileTree}

/-- Both slots are on the device, also if it has an odd number of blocks. -/
theorem slot_le (blocks : Nat) (slot : Fin 2) : slot.val * (blocks / 2) + blocks / 2 ≤ blocks := by
  have hmul : slot.val * (blocks / 2) ≤ 1 * (blocks / 2) := Nat.mul_le_mul_right _ (by omega)
  omega

theorem slot_in_range (h : d.blockCount / 2 = slotBlocks) (slot : Fin 2) :
    slot.val * slotBlocks + slotBlocks ≤ d.blockCount := by
  rw [← h]
  exact slot_le d.blockCount slot

theorem inSlot_start (hpos : 0 < slotBlocks) : InSlot slotBlocks slot (slot.val * slotBlocks) :=
  ⟨Nat.le_refl _, by omega⟩

/-- The two slots have no block in common, so that what is written to one of them leaves the other. -/
theorem not_inSlot_of_inSlot {other : Fin 2} {block : Nat} (h : InSlot slotBlocks slot block)
    (hne : other ≠ slot) : ¬ InSlot slotBlocks other block := by
  intro h'
  have hslot : (slot.val = 0 ∧ other.val = 1) ∨ (slot.val = 1 ∧ other.val = 0) := by omega
  rcases hslot with ⟨hs, ho⟩ | ⟨hs, ho⟩
  · rw [InSlot, hs] at h
    rw [InSlot, ho] at h'
    omega
  · rw [InSlot, hs] at h
    rw [InSlot, ho] at h'
    omega

theorem headerBlock_inj {g' : Nat} {payload payload' : Bytes}
    (h : headerBlock g payload = headerBlock g' payload') (hg : g < 2 ^ 64) (hg' : g' < 2 ^ 64) :
    g = g' := by
  have hbytes := congrArg Block.bytes h
  rw [bytes_headerBlock, bytes_headerBlock] at hbytes
  have hfield := congrArg (fun header => headerField header 16 8) hbytes
  simp only [headerField_generation hg, headerField_generation hg'] at hfield
  exact hfield

theorem Disk.Intact.read (h : d.Intact slotBlocks slot g tree) (hsize : d.blockCount / 2 = slotBlocks)
    (hpos : 0 < slotBlocks) :
    (readSlot slot slotBlocks d.steady).1 = .ok (some ⟨g, tree⟩) := by
  obtain ⟨hg, payload, hencode, hlen, hfit, hheader, hpayload⟩ := h
  exact readSlot_of_intact (slot_in_range hsize slot) hpos hheader hg hlen hfit hpayload hencode

/-- A snapshot is where it was if the blocks of its slot are: header and payload both lie within the slot. -/
theorem Disk.Intact.keep (h : d.Intact slotBlocks slot g tree) (hpos : 0 < slotBlocks)
    (hcontent : ∀ block, InSlot slotBlocks slot block →
      d'.cells.content block = d.cells.content block) : d'.Intact slotBlocks slot g tree := by
  obtain ⟨hg, payload, hencode, hlen, hfit, hheader, hpayload⟩ := h
  refine ⟨hg, payload, hencode, hlen, hfit, (hcontent _ (inSlot_start hpos)).trans hheader, ?_⟩
  have hbytes : bytesAt d'.cells.content (slot.val * slotBlocks + 1) (blocksFor payload.length) =
      bytesAt d.cells.content (slot.val * slotBlocks + 1) (blocksFor payload.length) :=
    bytesAt_congr fun i hi => hcontent _ ⟨by omega, by omega⟩
  rw [Disk.payloadAt, hbytes]
  exact hpayload

/-- A snapshot that is newer than what the other slot reads as is selected, whichever of the slots it is in.
    `open` takes the second only if its generation is greater, so the first would win a tie; in a sound history
    there is none. -/
theorem selectSlot_newest {reading : Fin 2 → Option DecodedSnapshot} {snapshot : DecodedSnapshot}
    (h : reading slot = some snapshot)
    (hother : ∀ other, reading (1 - slot) = some other → other.generation < snapshot.generation) :
    selectSlot (reading 0) (reading 1) = some (slot, snapshot) := by
  have hslot : slot = 0 ∨ slot = 1 := by omega
  rcases hslot with rfl | rfl
  · rw [h]
    cases hr : reading 1 with
    | none => rfl
    | some other =>
      have hlt := hother other hr
      show ite _ _ _ = _
      rw [if_neg (by omega)]
  · rw [h]
    cases hr : reading 0 with
    | none => rfl
    | some other =>
      have hlt := hother other hr
      show ite _ _ _ = _
      rw [if_pos hlt]

end Slots

/-! ## What the slots read as -/

theorem Consistent.other_headers {slotBlocks g : Nat} {active : Option (Fin 2)} {log : List Attempt}
    {d : Disk} (h : Consistent slotBlocks active g log d) (hpos : 0 < slotBlocks) :
    ∀ block ∈ d.cells.candidates ((1 - target active).val * slotBlocks), block = zeroBlock ∨
      ∃ a ∈ log, a.generation = g ∧
        ∃ payload, encodeTree a.tree = .ok payload ∧ block = headerBlock a.generation payload := by
  intro block hblock
  cases active with
  | none => exact Or.inl ((h.fresh rfl).2.2 block hblock)
  | some slot =>
    obtain ⟨⟨a, ha, hgeneration, -, -, payload, hencode, -, -, hheader, -⟩, hsettled⟩ := h.held slot rfl
    rw [one_sub_target] at hblock
    refine Or.inr ⟨a, ha, hgeneration, payload, hencode, ?_⟩
    rw [hsettled _ (inSlot_start hpos) block hblock, hheader, hgeneration]

/-- What is written to the other slot, its header apart, does not matter; and a log may grow by saves whose trees may
    be returned. `new` says which blocks may have come to which places, now or after a crash. All that happens to a
    disk between two moments at which the slot in use changes is an instance of this. -/
theorem Consistent.admit {slotBlocks g : Nat} {active : Option (Fin 2)} {log log' : List Attempt}
    {d d' : Disk} {new : Nat → Block → Prop} (h : Consistent slotBlocks active g log d)
    (hpos : 0 < slotBlocks) (hadmits : d.Admits new d')
    (hnew : ∀ i block, new i block → InSlot slotBlocks (target active) i)
    (hheader : ∀ block, new ((target active).val * slotBlocks) block → ∃ a ∈ log', a.generation ≠ g ∧
      ∃ payload, encodeTree a.tree = .ok payload ∧ block = headerBlock a.generation payload)
    (hlog : log ⊆ log') (heligible : eligible log ⊆ eligible log')
    (hok : (∀ a ∈ log, a.returnedOk = false) → ∀ a ∈ log', a.returnedOk = false) :
    Consistent slotBlocks active g log' d' := by
  refine ⟨?_, ?_, ?_, ?_⟩
  · rw [hadmits.1]
    exact h.size
  · intro block hblock
    rcases hadmits.2 _ block hblock with hblock | hblock
    · rcases h.headers block hblock with hzero | ⟨a, ha, hrest⟩
      · exact Or.inl hzero
      · exact Or.inr ⟨a, hlog ha, hrest⟩
    · exact Or.inr (hheader block hblock)
  · -- the slot in use is settled and is not written to, so it reads as before, also after a crash
    intro slot hslot
    obtain ⟨⟨a, ha, hgeneration, htree, hintact⟩, hsettled⟩ := h.held slot hslot
    have hkeep : ∀ i, InSlot slotBlocks slot i →
        d'.cells.content i = d.cells.content i ∧ d'.cells.Settled i := by
      intro i hi
      refine (hsettled i hi).keep hadmits.2 fun block hblock => ?_
      refine not_inSlot_of_inSlot hi ?_ (hnew i block hblock)
      rw [hslot]
      show 1 - slot ≠ slot
      omega
    exact ⟨⟨a, hlog ha, hgeneration, heligible htree, hintact.keep hpos fun i hi => (hkeep i hi).1⟩,
      fun i hi => (hkeep i hi).2⟩
  · intro hnone
    obtain ⟨hg, hnot, hzero⟩ := h.fresh hnone
    refine ⟨hg, hok hnot, fun block hblock => ?_⟩
    rcases hadmits.2 _ block hblock with hblock | hblock
    · exact hzero block hblock
    · refine absurd (hnew _ block hblock) (not_inSlot_of_inSlot (inSlot_start hpos) ?_)
      rw [hnone]
      decide

/-- Nothing is written. -/
theorem Consistent.narrow {slotBlocks g : Nat} {active : Option (Fin 2)} {log : List Attempt}
    {d d' : Disk} (h : Consistent slotBlocks active g log d) (hpos : 0 < slotBlocks)
    (hadmits : d.Admits (fun _ _ => False) d') : Consistent slotBlocks active g log d' :=
  h.admit hpos hadmits (fun _ _ hf => hf.elim) (fun _ hf => hf.elim) (List.Subset.refl _)
    (List.Subset.refl _) id

section Attempts

variable {g : Nat} {log : List Attempt} {tree : FileTree}

/-- A save that failed: it goes to the log under the next generation, and the slot in use stays the same. -/
theorem Logged.attempt (h : Logged g log)
    (hsized : ∀ payload, encodeTree tree = .ok payload → payload.length < 2 ^ 64) :
    Logged g (⟨g + 1, tree, false⟩ :: log) := by
  refine ⟨Nat.le_succ_of_le h.reached, ?_, ?_, ?_, ?_⟩ <;> intro a ha <;>
    rcases List.mem_cons.mp ha with rfl | ha
  · exact Nat.succ_le_succ h.reached
  · exact Nat.le_succ_of_le (h.counted a ha)
  · exact Nat.le_refl _
  · exact h.bounded a ha
  · exact fun _ => List.mem_cons_self
  · exact fun hg => List.mem_cons_of_mem _ (h.newest a ha hg)
  · exact hsized
  · exact h.sized a ha

/-- A save that went through, whether or not its caller was told. The two come apart where the power is cut after
    the last flush and before `save` has returned. -/
theorem Logged.advance (h : Logged g log)
    (hsized : ∀ payload, encodeTree tree = .ok payload → payload.length < 2 ^ 64) (told : Bool) :
    Logged (g + 1) (⟨g + 1, tree, told⟩ :: log) := by
  refine ⟨Nat.succ_le_succ h.reached, ?_, ?_, ?_, ?_⟩ <;> intro a ha <;>
    rcases List.mem_cons.mp ha with rfl | ha
  · exact Nat.succ_le_succ h.reached
  · exact Nat.le_succ_of_le (h.counted a ha)
  · exact Nat.le_succ _
  · exact Nat.le_succ_of_le (h.bounded a ha)
  · exact fun hg => absurd hg (Nat.ne_of_lt (Nat.lt_succ_self _))
  · intro hg
    have hle := h.bounded a ha
    omega
  · exact hsized
  · exact h.sized a ha

variable {slotBlocks : Nat} {active : Option (Fin 2)} {d d' : Disk} {new : Nat → Block → Prop}

/-- Whatever a failed save has written is in the slot that is not in use, and its header, if it came to that, is that
    of the save. -/
theorem Consistent.attempt (h : Consistent slotBlocks active g log d) (hpos : 0 < slotBlocks)
    (hadmits : d.Admits new d')
    (hnew : ∀ i block, new i block → InSlot slotBlocks (target active) i)
    (hheader : ∀ block, new ((target active).val * slotBlocks) block →
      ∃ payload, encodeTree tree = .ok payload ∧ block = headerBlock (g + 1) payload) :
    Consistent slotBlocks active g (⟨g + 1, tree, false⟩ :: log) d' := by
  refine h.admit hpos hadmits hnew (fun block hblock => ?_) (List.subset_cons_self _ _)
    (List.subset_cons_self _ _) fun hnot a ha => ?_
  · exact ⟨_, List.mem_cons_self, Nat.succ_ne_self g, hheader block hblock⟩
  · rcases List.mem_cons.mp ha with rfl | ha
    · rfl
    · exact hnot a ha

/-- A save that went through turns the slots round: the one it has written is settled, and becomes the one in use. -/
theorem Consistent.advance (h : Consistent slotBlocks active g log d) (hpos : 0 < slotBlocks)
    (hadmits : d.Admits new d')
    (hnew : ∀ i block, new i block → InSlot slotBlocks (target active) i)
    (hintact : d'.Intact slotBlocks (target active) (g + 1) tree)
    (hsettled : ∀ i, d'.cells.Settled i) (told : Bool) :
    Consistent slotBlocks (some (target active)) (g + 1) (⟨g + 1, tree, told⟩ :: log) d' := by
  refine ⟨hadmits.1 ▸ h.size, fun block hblock => ?_, fun slot hslot => ?_, fun hnone => (by cases hnone)⟩
  · -- the slot that was in use is the other one now, and was not written to
    rcases hadmits.2 _ block hblock with hblock | hblock
    · rcases h.other_headers hpos block hblock with hzero | ⟨a, ha, hgeneration, hrest⟩
      · exact Or.inl hzero
      · refine Or.inr ⟨a, List.mem_cons_of_mem _ ha, ?_, hrest⟩
        omega
    · refine absurd (hnew _ block hblock) (not_inSlot_of_inSlot (inSlot_start hpos) ?_)
      show target active ≠ 1 - target active
      omega
  · cases hslot
    exact ⟨⟨_, List.mem_cons_self, rfl, List.mem_cons_self, hintact⟩, fun i _ => hsettled i⟩

end Attempts

namespace World.Sound

variable {slotBlocks g : Nat} {active : Option (Fin 2)} {w : World}

theorem generation_lt (h : w.Sound slotBlocks active g) (hlog : w.log.length < 2 ^ 64 - 1) :
    ∀ a ∈ w.log, a.generation < 2 ^ 64 := by
  intro a ha
  have hcounted := h.logged.counted a ha
  omega

/-- The slot that is not in use reads as empty or as the tree of a save. Three things can make it read as empty: no
    header, a length that does not fit into the slot, and a checksum that does not match. If it reads as a tree, it
    is the tree of the save whose header it has, or of another with the same header; that is what the assumption
    about checksums gives. -/
theorem read_target (h : w.Sound slotBlocks active g) (hpos : 0 < slotBlocks)
    (hlog : w.log.length < 2 ^ 64 - 1) (hcollision : w.NoCollision) :
    (readSlot (target active) slotBlocks w.disk.steady).1 = .ok none ∨
      ∃ b ∈ w.log, b.generation ≠ g ∧
        (readSlot (target active) slotBlocks w.disk.steady).1 = .ok (some ⟨b.generation, b.tree⟩) ∧
        w.disk.Intact slotBlocks (target active) b.generation b.tree := by
  have hrange := slot_in_range h.consistent.size (target active)
  have hsize : w.slotBlocks = slotBlocks := h.consistent.size
  rcases h.consistent.headers _ (Volatile.content_mem_candidates _ _) with
    hzero | ⟨a, ha, hgeneration, payload, hencode, hheader⟩
  · exact Or.inl (readSlot_of_zero hrange hpos hzero)
  · have hlt := h.generation_lt hlog
    have hread := readSlot_of_header hrange hpos hheader (hlt a ha) (h.logged.sized a ha _ hencode)
    by_cases hfit : slotBlocks - 1 < blocksFor payload.length
    · rw [if_pos hfit] at hread
      exact Or.inl hread
    · rw [if_neg hfit] at hread
      by_cases hsum : checksum (w.disk.payloadAt ((target active).val * slotBlocks) payload.length) ≠
          checksum payload
      · rw [if_pos hsum] at hread
        exact Or.inl hread
      · rw [if_neg hsum] at hread
        -- the image is the payload of a save with the same header, hence of the same generation
        have hmatch := hcollision (target active) a ha payload hencode
        rw [hsize] at hmatch
        obtain ⟨b, hb, hsame, hb_encode⟩ := hmatch hheader (not_not.mp hsum)
        have hb_generation := headerBlock_inj hsame (hlt b hb) (hlt a ha)
        have hlen := w.disk.length_payloadAt ((target active).val * slotBlocks) payload.length
        rw [decodeTree_of_encodeTree hb_encode, ← hb_generation] at hread
        refine Or.inr ⟨b, hb, hb_generation ▸ hgeneration, hread, hlt b hb, _, hb_encode,
          h.logged.sized b hb _ hb_encode, ?_, hheader.trans hsame.symm, ?_⟩
        · rw [hlen]
          exact not_lt.mp hfit
        · rw [hlen]

/-- The slot in use reads as its tree; without one, the second slot is empty. (A store that remembers no slot writes
    to the first, so on a new disk it is the first that may have a header in it.) -/
theorem read_active (h : w.Sound slotBlocks active g) (hpos : 0 < slotBlocks) :
    (active = none ∧ (readSlot 1 slotBlocks w.disk.steady).1 = .ok none) ∨
      ∃ slot, active = some slot ∧ ∃ a ∈ w.log, a.generation = g ∧ a.tree ∈ eligible w.log ∧
        (readSlot slot slotBlocks w.disk.steady).1 = .ok (some ⟨g, a.tree⟩) := by
  cases active with
  | none =>
    have hzero := (h.consistent.fresh rfl).2.2 _ (Volatile.content_mem_candidates _ _)
    exact Or.inl ⟨rfl, readSlot_of_zero (slot_in_range h.consistent.size 1) hpos hzero⟩
  | some slot =>
    obtain ⟨⟨a, ha, hgeneration, htree, hintact⟩, -⟩ := h.consistent.held slot rfl
    exact Or.inr ⟨slot, rfl, a, ha, hgeneration, htree,
      hintact.read h.consistent.size hpos⟩

/-- What `open` selects: nothing, the slot in use, or a newer snapshot in the other one. The last is a save that
    failed at its last flush, or was cut off, with everything in place all the same. -/
inductive Selects (slotBlocks : Nat) (active : Option (Fin 2)) (g : Nat) (w : World) :
    Option (Fin 2 × DecodedSnapshot) → Prop where
  | nothing (h : active = none) : Selects slotBlocks active g w none
  | inUse {slot : Fin 2} {tree : FileTree} (h : active = some slot) (htree : tree ∈ eligible w.log) :
      Selects slotBlocks active g w (some (slot, ⟨g, tree⟩))
  | newer {b : Attempt} (hb : b ∈ w.log) (hgeneration : b.generation = g + 1)
      (hintact : w.disk.Intact slotBlocks (target active) (g + 1) b.tree) :
      Selects slotBlocks active g w (some (target active, ⟨g + 1, b.tree⟩))

/-- Every slot can be read, and nothing on the disk is newer than the next save. Reading never fails on a disk without
    faults: a slot that makes no sense is an empty one. -/
theorem reads (h : w.Sound slotBlocks active g) (hpos : 0 < slotBlocks)
    (hlog : w.log.length < 2 ^ 64 - 1) (hcollision : w.NoCollision) (slot : Fin 2) :
    ∃ r, (readSlot slot slotBlocks w.disk.steady).1 = .ok r ∧
      ∀ snapshot, r = some snapshot → snapshot.generation ≤ g + 1 := by
  by_cases hslot : slot = target active
  · rw [hslot]
    rcases h.read_target hpos hlog hcollision with hr | ⟨b, hb, -, hr, -⟩
    · exact ⟨_, hr, fun _ hs => (by cases hs)⟩
    · refine ⟨_, hr, fun _ hs => ?_⟩
      cases hs
      exact h.logged.bounded b hb
  · rcases h.read_active hpos with ⟨rfl, hr⟩ | ⟨used, rfl, a, -, -, -, hr⟩
    · have hone : slot = 1 := by
        have hzero : slot ≠ 0 := hslot
        omega
      exact ⟨_, hone ▸ hr, fun _ hs => (by cases hs)⟩
    · have hused : slot = used := by
        have hne : slot ≠ 1 - used := hslot
        omega
      refine ⟨_, hused ▸ hr, fun _ hs => ?_⟩
      cases hs
      exact Nat.le_succ g

/-- `open` selects in one of the three ways, depending on what the slot that is not in use reads as: nothing, a
    snapshot older than the one in use, or one that is newer. -/
theorem selects (h : w.Sound slotBlocks active g) (hpos : 0 < slotBlocks)
    (hlog : w.log.length < 2 ^ 64 - 1) (hcollision : w.NoCollision) :
    ∃ reading : Fin 2 → Option DecodedSnapshot,
      (∀ slot, (readSlot slot slotBlocks w.disk.steady).1 = .ok (reading slot)) ∧
      Selects slotBlocks active g w (selectSlot (reading 0) (reading 1)) := by
  have htarget := h.read_target hpos hlog hcollision
  have hactive := h.read_active hpos
  choose reading hreading hle using h.reads hpos hlog hcollision
  have hat : ∀ {slot : Fin 2} {r : Option DecodedSnapshot},
      (readSlot slot slotBlocks w.disk.steady).1 = .ok r → reading slot = r := by
    intro slot r hr
    exact Except.ok.inj ((hreading slot).symm.trans hr)
  refine ⟨reading, hreading, ?_⟩
  rcases htarget with hr | ⟨b, hb, hne, hr, hintact⟩
  · rcases hactive with ⟨rfl, hr'⟩ | ⟨slot, rfl, a, -, -, htree, hr'⟩
    · rw [hat hr', show reading 0 = none from hat hr]
      exact .nothing rfl
    · rw [selectSlot_newest (hat hr') (fun other ho => by
        rw [show reading (1 - slot) = none from hat hr] at ho
        cases ho)]
      exact .inUse rfl htree
  · have hbound := h.logged.bounded b hb
    -- its generation is at most `g + 1` and not `g`, so it is newer than the slot in use or older
    by_cases hnewer : b.generation = g + 1
    · rw [hnewer] at hr hintact
      rw [selectSlot_newest (hat hr) (fun other ho => ?_)]
      · exact .newer hb hnewer hintact
      · rcases hactive with ⟨rfl, hr'⟩ | ⟨slot, rfl, a, -, -, -, hr'⟩
        · rw [show reading (1 - target none) = none from hat hr'] at ho
          cases ho
        · rw [one_sub_target, hat hr'] at ho
          cases ho
          exact Nat.lt_succ_self g
    · rcases hactive with ⟨rfl, -⟩ | ⟨slot, rfl, a, -, -, htree, hr'⟩
      · have hg := (h.consistent.fresh rfl).1
        omega
      · rw [selectSlot_newest (hat hr') (fun other ho => by
          rw [show reading (1 - slot) = some _ from hat hr] at ho
          cases ho
          show b.generation < g
          omega)]
        exact .inUse rfl htree

/-- The other slot is taken for the one in use when it holds a newer snapshot for good. Nothing is written; it is only
    the description that changes, and the old slot in use becomes the one that is written to next. -/
theorem adopt (h : w.Sound slotBlocks active g) (hpos : 0 < slotBlocks) {b : Attempt}
    (hb : b ∈ w.log) (hgeneration : b.generation = g + 1)
    (hintact : w.disk.Intact slotBlocks (target active) (g + 1) b.tree)
    (hsettled : ∀ block, InSlot slotBlocks (target active) block → w.disk.cells.Settled block) :
    Logged (g + 1) w.log ∧ Consistent slotBlocks (some (target active)) (g + 1) w.log w.disk := by
  have hbounded := h.logged.bounded
  constructor
  · refine ⟨hgeneration ▸ h.logged.counted b hb, h.logged.counted, ?_, ?_, h.logged.sized⟩
    · intro a ha
      have := hbounded a ha
      omega
    · intro a ha hnext
      have := hbounded a ha
      omega
  · refine ⟨h.consistent.size, ?_, ?_, fun hnone => (by cases hnone)⟩
    · intro block hblock
      rcases h.consistent.other_headers hpos block hblock with hzero | ⟨a, ha, hga, hpayload⟩
      · exact Or.inl hzero
      · exact Or.inr ⟨a, ha, by omega, hpayload⟩
    · intro slot hslot
      cases hslot
      exact ⟨⟨b, hb, hgeneration, h.logged.newest b hb hgeneration, hintact⟩, hsettled⟩

/-! ## Opening -/

/-- `open` is cut short by a fault, or answers with what is selected and leaves the blocks as they are. It only
    reads, so a fault costs an answer and nothing else. -/
theorem open_cases (h : w.Sound slotBlocks active g) (hblocks : 2 ≤ slotBlocks)
    (hlog : w.log.length < 2 ^ 64 - 1) (hcollision : w.NoCollision) (fates : List Fate) :
    (¬ (w.disk.supplied fates).Quiet ∧ ∃ e d',
        SnapshotStore.openDevice (w.disk.supplied fates) = (.error e, d') ∧
          ∀ new, w.disk.Admits new d') ∨
      ∃ selected d', Selects slotBlocks active g w selected ∧ d'.steady = w.disk.steady ∧
        SnapshotStore.openDevice (w.disk.supplied fates) =
          (.ok (SnapshotStore.opened slotBlocks selected d'), d') := by
  obtain ⟨reading, hreading, hselects⟩ := h.selects (by omega) hlog hcollision
  have hsize : (w.disk.supplied fates).blockCount / 2 = slotBlocks := h.consistent.size
  have hfirst : (readSlot 0 ((w.disk.supplied fates).blockCount / 2)
      (w.disk.supplied fates).steady).1 = .ok (reading 0) := by
    rw [hsize]
    exact hreading 0
  have hsecond : (readSlot 1 ((w.disk.supplied fates).blockCount / 2)
      (w.disk.supplied fates).steady).1 = .ok (reading 1) := by
    rw [hsize]
    exact hreading 1
  have hcases := SnapshotStore.openDevice_cases (by omega) hfirst hsecond
  rw [hsize] at hcases
  rcases hcases with hfault | ⟨d', hsame, hopen⟩
  · exact Or.inl hfault
  · exact Or.inr ⟨_, d', hselects, hsame, hopen⟩

/-- What `open` answers when no fault cuts it short: the tree of the last save that returned `Ok` or of one tried
    since, in each of the three ways it can select. -/
theorem answer_eligible (h : w.Sound slotBlocks active g) (hblocks : 2 ≤ slotBlocks)
    (hlog : w.log.length < 2 ^ 64 - 1) (hcollision : w.NoCollision) {fates : List Fate}
    (hfates : ∀ pick, Fate.fault pick ∉ fates) :
    ∃ tree?, w.answer fates = .ok tree? ∧ (∀ tree, tree? = some tree → tree ∈ eligible w.log) ∧
      (tree? = none → ∀ a ∈ w.log, a.returnedOk = false) := by
  rcases h.open_cases hblocks hlog hcollision fates with
    ⟨hfault, -⟩ | ⟨selected, d', hselects, -, hopen⟩
  · exact absurd hfates hfault
  · refine ⟨selected.map fun p => p.2.tree, by rw [World.answer, hopen]; rfl, ?_⟩
    cases hselects with
    | nothing hnone =>
      exact ⟨fun tree ht => (by cases ht), fun _ => (h.consistent.fresh hnone).2.1⟩
    | inUse _ htree =>
      refine ⟨fun tree ht => ?_, fun hnone => (by cases hnone)⟩
      cases ht
      exact htree
    | newer hb hgeneration _ =>
      refine ⟨fun tree ht => ?_, fun hnone => (by cases hnone)⟩
      cases ht
      exact h.logged.newest _ hb hgeneration

/-- Opening keeps the invariant. It is the only step that needs the disk to be anchored, and only where `open` takes
    a newer snapshot for the one in use. -/
theorem step_open (h : w.Sound slotBlocks active g) (hblocks : 2 ≤ slotBlocks)
    (hlog : w.log.length < 2 ^ 64 - 1) (hcollision : w.NoCollision) (hanchored : w.Anchored)
    (fates : List Fate) : ∃ active' g', (w.step (.openStore fates)).Sound slotBlocks active' g' := by
  have hpos : 0 < slotBlocks := by omega
  have hsize : w.slotBlocks = slotBlocks := h.consistent.size
  rcases h.open_cases hblocks hlog hcollision fates with
    ⟨-, e, d', hopen, hadmits⟩ | ⟨selected, d', hselects, hsame, hopen⟩
  · have hstep : w.step (.openStore fates) = ⟨.closed d', w.log⟩ := by
      rw [World.step, hopen]
    rw [hstep]
    exact ⟨active, g, h.logged, h.consistent.narrow hpos (hadmits _), trivial⟩
  · have hstep : w.step (.openStore fates) =
        ⟨.opened (SnapshotStore.opened slotBlocks selected d').1, w.log⟩ := by
      rw [World.step, hopen]
    have hd' := Disk.admits_of_steady hsame
    rw [hstep]
    cases hselects with
    | nothing hnone =>
      obtain rfl := hnone
      have hg := (h.consistent.fresh rfl).1
      subst hg
      exact ⟨none, 0, h.logged, h.consistent.narrow hpos hd', rfl, rfl, rfl⟩
    | inUse hactive _ =>
      obtain rfl := hactive
      exact ⟨some _, g, h.logged, h.consistent.narrow hpos hd', rfl, rfl, rfl⟩
    | newer hb hgeneration hintact =>
      -- here the condition is used: the header that reads back is there for good
      have hsettled := hanchored (target active) _ _ (by rw [hsize]; exact hintact) (by
        intro other generation' tree' hother
        rw [hsize] at hother
        obtain ⟨r, hr, hle⟩ := h.reads hpos hlog hcollision other
        have hread := hother.read h.consistent.size hpos
        exact hle _ (Except.ok.inj (hr.symm.trans hread)))
      rw [hsize] at hsettled
      obtain ⟨hlogged, hconsistent⟩ := h.adopt hpos hb hgeneration hintact hsettled
      exact ⟨some (target active), g + 1, hlogged, hconsistent.narrow hpos hd', rfl, rfl, rfl⟩

/-! ## Saving -/

/-- What a save may put on the disk: blocks of the slot that is not in use, and as its header that of the payload. It
    does not matter how far the save gets, and in which order the blocks reach the medium. -/
def Writes (slotBlocks : Nat) (slot : Fin 2) (header : Block) (i : Nat) (block : Block) : Prop :=
  InSlot slotBlocks slot i ∧ (i = slot.val * slotBlocks → block = header)

theorem writes_of_spread {payload : Bytes} (hfit : blocksFor payload.length ≤ slotBlocks - 1)
    (hpos : 0 < slotBlocks) {slot : Fin 2} {header : Block} {i : Nat} {block : Block}
    (h : spread (slot.val * slotBlocks + 1) (padded payload) i = some block) :
    Writes slotBlocks slot header i block := by
  have hrange := spread_range h
  rw [length_padded, Nat.mul_div_cancel _ (by decide)] at hrange
  exact ⟨⟨by omega, by omega⟩, fun hi => (by omega)⟩

variable {store store' : SnapshotStore Disk} {tree : FileTree} {fates : List Fate}
  {r : Except StorageError Unit} {told : Bool}

/-- A save that fails leaves the slot in use as it is; one that goes through changes it. The source notes the new slot
    and generation in the store only after the last flush has returned, so a store whose save has failed still
    remembers the slot in use. `told` is what the log has of the answer; it is `false` for a save that was cut off. -/
theorem attempt (h : w.Sound slotBlocks active g) (hblocks : 2 ≤ slotBlocks)
    (hlog : w.log.length < 2 ^ 64 - 1)
    (hsized : ∀ payload, encodeTree tree = .ok payload → payload.length < 2 ^ 64)
    (hopened : w.holder = .opened store)
    (hsave : SnapshotStore.save tree (store.supplied fates) = (r, store'))
    (htold : told = true → r = .ok ()) :
    ∃ active' g', World.Sound slotBlocks active' g'
      ⟨.opened store', ⟨store.nextGeneration, tree, told⟩ :: w.log⟩ := by
  have hpos : 0 < slotBlocks := by omega
  obtain ⟨hstoreBlocks, hstoreActive, hstoreGeneration⟩ :
      store.slotBlocks = slotBlocks ∧ store.activeSlot = active ∧ store.generation = g := by
    have hremembers := h.remembers
    rw [hopened] at hremembers
    exact hremembers
  have hdisk : w.disk = store.device := by rw [World.disk, hopened]
  have hnext : store.nextGeneration = g + 1 := by
    have hreached := h.logged.reached
    rw [SnapshotStore.nextGeneration, hstoreGeneration]
    omega
  have htarget : (store.supplied fates).targetSlot = target active := by
    rw [← hstoreActive]
    rfl
  have hconsistent := h.consistent
  rw [hdisk] at hconsistent
  rw [hnext]
  have hnot : ∀ {e}, r = .error e → told = false := by
    intro e he
    rw [he] at htold
    cases told with
    | false => rfl
    | true => cases htold rfl
  rcases SnapshotStore.save_cases hsave with ⟨e, hr, rfl⟩ | ⟨payload, hencode, hfit, d', hwritten⟩
  · -- the tree cannot be encoded or is too large: nothing has been written
    rw [hnot hr]
    exact ⟨active, g, h.logged.attempt hsized, hconsistent.attempt hpos
      (Disk.admits_of_steady rfl) (fun _ _ hf => hf.elim)
      (fun _ hf => hf.elim), hstoreBlocks, hstoreActive, hstoreGeneration⟩
  · have hkeeps : store.device.Admits
        (Writes slotBlocks (target active) (headerBlock (g + 1) payload))
        (SnapshotStore.writeSnapshot ((target active).val * slotBlocks) (g + 1) payload
          (store.supplied fates).device).2 :=
      SnapshotStore.keeps_writeSnapshot
        (fun i block hi => writes_of_spread (hstoreBlocks ▸ hfit) hpos hi)
        ⟨inSlot_start hpos, fun _ => rfl⟩ (store.supplied fates).device
    rw [htarget, show (store.supplied fates).slotBlocks = slotBlocks from hstoreBlocks,
      show (store.supplied fates).nextGeneration = g + 1 from hnext] at hwritten
    rcases hwritten with ⟨e, hwrite, hr, rfl⟩ | ⟨hwrite, -, rfl⟩
    · -- a fault on the way: some of the blocks are written, all in the other slot
      rw [hwrite] at hkeeps
      rw [hnot hr]
      exact ⟨active, g, h.logged.attempt hsized, hconsistent.attempt hpos hkeeps
        (fun _ _ hw => hw.1) (fun block hw => ⟨payload, hencode, hw.2 rfl⟩), rfl, hstoreActive,
        hstoreGeneration⟩
    · -- everything is written and flushed
      rw [hwrite] at hkeeps
      obtain ⟨hsettled, hheader, hbytes⟩ := SnapshotStore.writeSnapshot_ok hwrite
      have hintact : d'.Intact slotBlocks (target active) (g + 1) tree := by
        refine ⟨?_, payload, hencode, hsized payload hencode, hstoreBlocks ▸ hfit, hheader, ?_⟩
        · have hreached := h.logged.reached
          omega
        · rw [Disk.payloadAt, hbytes, take_padded]
      exact ⟨some (target active), g + 1, h.logged.advance hsized told,
        hconsistent.advance hpos hkeeps (fun _ _ hw => hw.1) hintact hsettled told, rfl, rfl, rfl⟩

/-! ## Runs -/

/-- A crash settles each block as something that it might have been, and the invariant is about all that it might
    have been. -/
theorem step_crash (h : w.Sound slotBlocks active g) (hpos : 0 < slotBlocks) (pick : Nat → Nat) :
    (w.step (.crash pick)).Sound slotBlocks active g :=
  ⟨h.logged, h.consistent.narrow hpos ⟨rfl, Volatile.admits_crash pick _⟩, trivial⟩

/-- One event of a history. -/
theorem step (h : w.Sound slotBlocks active g) (hblocks : 2 ≤ slotBlocks)
    (hlog : w.log.length < 2 ^ 64 - 1) {e : DeviceEvent}
    (hsized : e.Sized)
    (hcollision : e.isOpen = true → w.NoCollision) (hanchored : e.isOpen = true → w.Anchored) :
    ∃ active' g', (w.step e).Sound slotBlocks active' g' := by
  cases e with
  | openStore fates => exact h.step_open hblocks hlog (hcollision rfl) (hanchored rfl) fates
  | crash pick => exact ⟨active, g, h.step_crash (by omega) pick⟩
  | save tree fates =>
    cases hholder : w.holder with
    | closed disk =>
      have hstep : w.step (.save tree fates) = w := by rw [World.step, hholder]
      rw [hstep]
      exact ⟨active, g, h⟩
    | opened store =>
      obtain ⟨r, store', hsave⟩ : ∃ r store',
        SnapshotStore.save tree (store.supplied fates) = (r, store') := ⟨_, _, rfl⟩
      have hstep : w.step (.save tree fates) =
          ⟨.opened store', ⟨store.nextGeneration, tree, r.isOk⟩ :: w.log⟩ := by
        rw [World.step, hholder]
        simp only [hsave]
      rw [hstep]
      refine h.attempt hblocks hlog (hsized tree rfl) hholder hsave fun htold => ?_
      cases r with
      | ok u => rfl
      | error e => cases htold
  | cut tree fates pick =>
    cases hholder : w.holder with
    | closed disk =>
      have hstep : w.step (.cut tree fates pick) = w := by rw [World.step, hholder]
      rw [hstep]
      exact ⟨active, g, h⟩
    | opened store =>
      have hcut : false = true → (SnapshotStore.save tree (store.supplied fates)).1 = .ok () :=
        fun ht => (by cases ht)
      obtain ⟨active', g', hsound⟩ := h.attempt hblocks hlog (hsized tree rfl) hholder rfl hcut
      rw [World.step, hholder]
      exact ⟨active', g', hsound.step_crash (by omega) pick⟩

end World.Sound

namespace World

/-- Only a save adds to the log, and one save adds one entry. The generations are bounded by its length, which is how
    they stay below the largest machine number. -/
theorem length_log_step (w : World) (e : DeviceEvent) :
    (w.step e).log.length ≤ w.log.length + if e.isSave then 1 else 0 := by
  cases e with
  | openStore fates =>
    rw [step]
    split
    · exact Nat.le_refl _
    · exact Nat.le_refl _
  | crash pick => exact Nat.le_refl _
  | save tree fates =>
    rw [step]
    split
    · exact Nat.le_succ _
    · exact Nat.le_refl _
  | cut tree fates pick =>
    rw [step]
    split
    · exact Nat.le_succ _
    · exact Nat.le_refl _

/-- A whole history, from any world in which the invariant holds. -/
theorem run_sound {slotBlocks : Nat} (hblocks : 2 ≤ slotBlocks) {events : List DeviceEvent} {w : World}
    {active : Option (Fin 2)} {g : Nat} (h : w.Sound slotBlocks active g)
    (hsaves : w.log.length + events.countP DeviceEvent.isSave < 2 ^ 64 - 1)
    (hsized : ∀ e ∈ events, e.Sized)
    (hcollision : w.Along (fun w e => e.isOpen = true → w.NoCollision) events)
    (hanchored : w.Along (fun w e => e.isOpen = true → w.Anchored) events) :
    (w.run events).log.length < 2 ^ 64 - 1 ∧
      ∃ active' g', (w.run events).Sound slotBlocks active' g' := by
  -- over the events, with the slot in use and its generation free to change at each of them
  induction events generalizing w active g with
  | nil => exact ⟨lt_of_le_of_lt (Nat.le_add_right _ _) hsaves, active, g, h⟩
  | cons e events ih =>
    have hstep := w.length_log_step e
    rw [List.countP_cons] at hsaves
    obtain ⟨active', g', h'⟩ := h.step hblocks (by omega) (hsized e List.mem_cons_self) hcollision.1
      hanchored.1
    exact ih h' (by omega) (fun e' he' => hsized e' (List.mem_cons_of_mem _ he')) hcollision.2
      hanchored.2

theorem sound_start (blockCount : Nat) : (start blockCount).Sound (blockCount / 2) none 0 := by
  have hzero : ∀ i, ∀ block ∈ (start blockCount).disk.cells.candidates i, block = zeroBlock :=
    fun _ _ hblock => List.mem_singleton.mp hblock
  refine ⟨⟨Nat.le_refl _, ?_, ?_, ?_, ?_⟩, ⟨rfl, fun block hblock => Or.inl (hzero _ block hblock),
    fun _ hslot => (by cases hslot), fun _ => ⟨rfl, ?_, hzero _⟩⟩, trivial⟩
  all_goals
    intro a ha
    cases ha

/-! ## When the condition holds -/

theorem anchored_of_settled {w : World} (h : ∀ i, w.disk.cells.Settled i) : w.Anchored :=
  fun _ _ _ _ _ block _ => h block

theorem anchored_start (blockCount : Nat) : (start blockCount).Anchored :=
  anchored_of_settled fun _ _ hblock => List.mem_singleton.mp hblock

/-- After a crash nothing is waiting any more: a machine that opens its disk once each time it
    starts meets the condition. -/
theorem anchored_step_crash (w : World) (pick : Nat → Nat) : (w.step (.crash pick)).Anchored :=
  anchored_of_settled fun i => Volatile.settled_flush _ i

end World

/-- A device that was blank is opened, saved to, cut off and opened again, in any order, so that
    each time a store is opened no block of the newest snapshot is waiting for a flush. Then `open`,
    if no fault cuts it short, returns the tree of the last save that returned `Ok` or of one
    attempted after it, and no tree only if no save has returned `Ok`. -/
theorem SnapshotStore.open_after_history {blockCount : Nat} (hblocks : 4 ≤ blockCount)
    {events : List DeviceEvent} (hsaves : events.countP DeviceEvent.isSave < 2 ^ 64 - 1)
    (hsized : ∀ e ∈ events, e.Sized)
    (hcollision : (World.start blockCount).Along (fun w e => e.isOpen = true → w.NoCollision) events)
    (hlast : ((World.start blockCount).run events).NoCollision)
    (hanchored : (World.start blockCount).Along (fun w e => e.isOpen = true → w.Anchored) events)
    {fates : List Fate} (hfates : ∀ pick, Fate.fault pick ∉ fates) :
    ∃ tree?, ((World.start blockCount).run events).answer fates = .ok tree? ∧
      (∀ tree, tree? = some tree → tree ∈ eligible ((World.start blockCount).run events).log) ∧
      (tree? = none → ∀ a ∈ ((World.start blockCount).run events).log, a.returnedOk = false) := by
  have htwo : 2 ≤ blockCount / 2 := by omega
  obtain ⟨hlog, active, g, hsound⟩ := World.run_sound htwo (World.sound_start blockCount)
    (by simpa [World.start] using hsaves) hsized hcollision hanchored
  exact hsound.answer_eligible htwo hlog hlast hfates

/-! ## A header that does not stay -/

namespace World

/-- The blocks behind this header are the payload it was written for, or do not pass for it. It implies the assumption
    about checksums for one slot and one save, and can be computed on a given disk. -/
def clearOf (w : World) (slot : Fin 2) (a : Attempt) : Bool :=
  match encodeTree a.tree with
  | .error _ => true
  | .ok payload =>
      let image := w.disk.payloadAt (slot.val * w.slotBlocks) payload.length
      decide (w.disk.cells.content (slot.val * w.slotBlocks) ≠ headerBlock a.generation payload) ||
        decide (checksum image ≠ checksum payload) || decide (image = payload)

theorem noCollision_of_clearOf {w : World} (h : ∀ slot, ∀ a ∈ w.log, w.clearOf slot a = true) :
    w.NoCollision := by
  intro slot a ha payload hencode hheader hsum
  have hclear := h slot a ha
  rw [clearOf, hencode] at hclear
  simp only [Bool.or_eq_true, decide_eq_true_eq] at hclear
  rcases hclear with (hne | hne) | himage
  · exact absurd hheader hne
  · exact absurd hsum hne
  · exact ⟨a, ha, by rw [himage], by rw [himage, hencode]⟩

end World

/-- A tree with one directory. -/
def directoryTree (name : Char) : FileTree :=
  ⟨OrdMap.empty, OrdMap.empty.insert [name] ()⟩

/-- A save goes through; the next one fails at its last flush, its header in the cache; the device
    is opened again, and a crash cuts off the third save after its first write. The header in the
    second slot is lost, and the payload in the first one is overwritten. -/
def lostHeader : List DeviceEvent :=
  [.openStore [],
   .save (directoryTree 'a') [],
   .save (directoryTree 'b') [.done, .done, .done, .fault fun _ => 0],
   .openStore [],
   .cut (directoryTree 'c') [.fault fun _ => 0] fun block => if block = 2 then 3 else 0]

def DeviceEvent.sizedBy (e : DeviceEvent) (bound : Nat) : Bool :=
  e.tree?.all fun tree => (encodeTree tree).toOption.all fun payload => decide (payload.length < bound)

theorem DeviceEvent.sized_of_sizedBy {e : DeviceEvent} (h : e.sizedBy (2 ^ 64) = true) : e.Sized := by
  intro tree htree payload hencode
  rw [sizedBy, htree, Option.all_some, hencode] at h
  exact of_decide_eq_true h

/-- The assumptions on a history all hold, a save has returned `Ok`, and `open` finds nothing. Only the condition that
    the newest snapshot is settled when a store is opened is not met, at the second `open`. -/
theorem SnapshotStore.lost_header_loses_tree :
    lostHeader.countP DeviceEvent.isSave < 2 ^ 64 - 1 ∧ (∀ e ∈ lostHeader, e.Sized) ∧
      (World.start 4).Along (fun w e => e.isOpen = true → w.NoCollision) lostHeader ∧
      ((World.start 4).run lostHeader).NoCollision ∧
      ((World.start 4).run lostHeader).log.map Attempt.returnedOk = [false, false, true] ∧
      ((World.start 4).run lostHeader).answer [] = .ok none := by
  have hsized : ∀ e ∈ lostHeader, e.sizedBy (2 ^ 64) = true := by decide +kernel
  refine ⟨by decide, fun e he => DeviceEvent.sized_of_sizedBy (hsized e he),
    ⟨fun _ => ?_, fun h => (by cases h), fun h => (by cases h), fun _ => ?_,
      fun h => (by cases h), trivial⟩, ?_, by decide +kernel, by decide +kernel⟩
  · exact World.noCollision_of_clearOf (by decide +kernel)
  · exact World.noCollision_of_clearOf (by decide +kernel)
  · exact World.noCollision_of_clearOf (by decide +kernel)

/-- The same two saves, with the crash before the device is opened again. -/
def keptHeader : List DeviceEvent :=
  [.openStore [],
   .save (directoryTree 'a') [],
   .save (directoryTree 'b') [.done, .done, .done, .fault fun _ => 0],
   .crash fun _ => 1,
   .openStore [],
   .cut (directoryTree 'c') [.fault fun _ => 0] fun block => if block = 2 then 3 else 0]

theorem SnapshotStore.open_after_kept_header :
    ∃ tree?, ((World.start 4).run keptHeader).answer [] = .ok tree? ∧
      (∀ tree, tree? = some tree → tree ∈ eligible ((World.start 4).run keptHeader).log) ∧
      (tree? = none → ∀ a ∈ ((World.start 4).run keptHeader).log, a.returnedOk = false) := by
  have hsized : ∀ e ∈ keptHeader, e.sizedBy (2 ^ 64) = true := by decide +kernel
  refine SnapshotStore.open_after_history (by decide) (by decide)
    (fun e he => DeviceEvent.sized_of_sizedBy (hsized e he))
    ⟨fun _ => ?_, fun h => (by cases h), fun h => (by cases h), fun h => (by cases h), fun _ => ?_,
      fun h => (by cases h), trivial⟩ ?_
    ⟨fun _ => World.anchored_start 4, fun h => (by cases h), fun h => (by cases h),
      fun h => (by cases h), fun _ => World.anchored_step_crash _ _, fun h => (by cases h), trivial⟩
    (fun _ hf => (by cases hf))
  · exact World.noCollision_of_clearOf (by decide +kernel)
  · exact World.noCollision_of_clearOf (by decide +kernel)
  · exact World.noCollision_of_clearOf (by decide +kernel)

end Afos
