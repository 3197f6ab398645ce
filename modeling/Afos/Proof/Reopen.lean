import Afos.Proof.Damage

/-!
# Saving, and opening again

A device with any contents that `open` accepts, a tree saved on the opened store, and the device
opened again. The snapshot just written has one generation more than the one in use, so it wins,
except at the top of the range: there the generations are equal, and of two equal ones the lower slot
wins. A snapshot written into slot 1 over a generation of `2 ^ 64 - 1` is lost at once, although its
save reported success.
-/

set_option autoImplicit false

namespace Afos

open Lib

/-- A disk with these contents, on which nothing fails. The contents are arbitrary; they need not be those of a
    store. -/
def Disk.holding (blockCount : Nat) (content : Nat → Block) : Disk :=
  ⟨blockCount, Volatile.permanent content, []⟩

theorem settled_holding {blockCount : Nat} {content : Nat → Block} (i : Nat) :
    (Disk.holding blockCount content).cells.Settled i := fun _ hb => List.mem_singleton.mp hb

/-! ## What a slot is read from -/

section Slot

variable {d d' : Disk} {slot : Fin 2} {slotBlocks : Nat}

/-- A slot reads the same if its blocks are the same, its header and as many behind it as the header says. -/
theorem readSlot_congr (hsize : d.blockCount / 2 = slotBlocks) (hcount : d'.blockCount = d.blockCount)
    (hpos : 0 < slotBlocks)
    (h : ∀ block, InSlot slotBlocks slot block → d'.cells.content block = d.cells.content block) :
    (readSlot slot slotBlocks d'.steady).1 = (readSlot slot slotBlocks d.steady).1 := by
  have hrange := slot_in_range hsize slot
  have hrange' : slot.val * slotBlocks + slotBlocks ≤ d'.blockCount := hcount ▸ hrange
  rw [readSlot_steady hrange hpos, readSlot_steady hrange' hpos, h _ (inSlot_start hpos)]
  generalize (d.cells.content (slot.val * slotBlocks)).bytes = header
  simp only [readPayload]
  -- the checks of the header, which is the same block on both sides
  split
  · rfl
  split
  · rfl
  split
  · rfl
  split
  · rfl
  rename_i hfit
  rw [not_lt] at hfit
  generalize hcount : blocksFor (headerField header 24 8) = count at hfit ⊢
  have hfirst : slot.val * slotBlocks + 1 + count ≤ d.blockCount := by omega
  have hfirst' : slot.val * slotBlocks + 1 + count ≤ d'.blockCount := by omega
  -- the payload is in blocks of the slot, as many as the header says
  have hbytes : bytesAt d'.cells.content (slot.val * slotBlocks + 1) count =
      bytesAt d.cells.content (slot.val * slotBlocks + 1) count :=
    bytesAt_congr fun i hi => h _ ⟨by omega, by omega⟩
  rw [Op.run_bind_ok (readPadded_steady hfirst), Op.run_bind_ok (readPadded_steady hfirst'), hbytes]
  split
  · rfl
  · rw [Op.run_bind, Op.run_bind, Op.run_ofExcept, Op.run_ofExcept]
    cases decodeTree _ <;> rfl

/-- A snapshot was decoded from as many bytes as the header says, and they fit into the slot. Nothing else that is in
    the header is of interest here. -/
theorem readPayload_some {D : Type} [BlockDevice D] {start : Nat} {header : Bytes}
    {device device' : D} {snapshot : DecodedSnapshot}
    (h : readPayload start slotBlocks header device = (.ok (some snapshot), device')) :
    snapshot.generation = headerField header 16 8 ∧
      blocksFor (headerField header 24 8) ≤ slotBlocks - 1 ∧
      ∃ image : Bytes, decodeTree (image.take (headerField header 24 8)) = .ok snapshot.tree := by
  -- a header that fails one of the checks ends the reading, without a snapshot
  simp only [readPayload] at h
  split at h
  · cases h
  split at h
  · cases h
  split at h
  · cases h
  split at h
  · cases h
  rename_i hfit
  obtain ⟨image, d₁, -, h⟩ := Op.bind_ok h
  split at h
  · cases h
  obtain ⟨tree, d₂, hdecode, h⟩ := Op.bind_ok h
  cases h
  exact ⟨rfl, not_lt.mp hfit, image, congrArg Prod.fst hdecode⟩

/-- A generation is what eight bytes of a header say. -/
theorem generation_lt_of_readPayload {D : Type} [BlockDevice D] {start : Nat} {header : Bytes}
    {device device' : D} {snapshot : DecodedSnapshot}
    (h : readPayload start slotBlocks header device = (.ok (some snapshot), device')) :
    snapshot.generation < 2 ^ 64 := by
  have hlen : ((header.drop 16).take 8).length ≤ 8 := by
    rw [List.length_take]
    exact Nat.min_le_left _ _
  calc snapshot.generation = headerField header 16 8 := (readPayload_some h).1
    _ < 256 ^ ((header.drop 16).take 8).length := leValue_lt _
    _ ≤ 256 ^ 8 := Nat.pow_le_pow_right (by decide) hlen
    _ = 2 ^ 64 := by decide

theorem generation_lt_of_readSlot {snapshot : DecodedSnapshot}
    (h : (readSlot slot slotBlocks d).1 = .ok (some snapshot)) : snapshot.generation < 2 ^ 64 := by
  cases hrun : readSlot slot slotBlocks d with
  | mk r d' =>
    rw [hrun] at h
    cases h
    obtain ⟨header, d₁, -, hpayload⟩ := Op.bind_ok hrun
    exact generation_lt_of_readPayload hpayload

end Slot

/-! ## Opening, saving, opening -/

/-- The snapshot in use is the one that was read from its slot. This is all that is needed of the selection but for
    the generations. -/
theorem reading_of_selectSlot {reading : Fin 2 → Option DecodedSnapshot} {slot : Fin 2}
    {snapshot : DecodedSnapshot}
    (h : selectSlot (reading 0) (reading 1) = some (slot, snapshot)) :
    reading slot = some snapshot := by
  -- by what the two slots hold; with both, the generations decide
  cases hleft : reading 0 with
  | none =>
    cases hright : reading 1 with
    | none =>
      rw [hleft, hright] at h
      cases h
    | some right =>
      rw [hleft, hright] at h
      cases h
      exact hright
  | some left =>
    cases hright : reading 1 with
    | none =>
      rw [hleft, hright] at h
      cases h
      exact hleft
    | some right =>
      rw [hleft, hright, selectSlot] at h
      split at h
      · cases h
        exact hright
      · cases h
        exact hleft

theorem readings_of_selectSlot_none {reading : Fin 2 → Option DecodedSnapshot}
    (h : selectSlot (reading 0) (reading 1) = none) : ∀ slot, reading slot = none := by
  cases hleft : reading 0 with
  | none =>
    cases hright : reading 1 with
    | none => exact fun slot => by fin_cases slot <;> assumption
    | some right =>
      rw [hleft, hright] at h
      cases h
  | some left =>
    cases hright : reading 1 with
    | none =>
      rw [hleft, hright] at h
      cases h
    | some right =>
      rw [hleft, hright, selectSlot] at h
      split at h <;> cases h

namespace SnapshotStore

/-- What `open` read, if it succeeded: both slots could be read, and the store is made of what was found in them. -/
theorem openDevice_readings {d : Disk} {store : SnapshotStore Disk} {tree? : Option FileTree}
    (h : (openDevice d.steady).1 = .ok (store, tree?)) :
    2 ≤ d.blockCount / 2 ∧ ∃ reading : Fin 2 → Option DecodedSnapshot,
      (∀ slot, (readSlot slot (d.blockCount / 2) d.steady).1 = .ok (reading slot)) ∧
      (store, tree?) = opened (d.blockCount / 2) (selectSlot (reading 0) (reading 1)) d.steady := by
  -- a device that is too small is refused before anything is read
  have hblocks : 2 ≤ d.blockCount / 2 := by
    by_contra hsmall
    rw [openDevice, Op.run_bind_ok (Op.run_read _)] at h
    have hsmall' : BlockDevice.blockCount d.steady / 2 < 2 := not_le.mp hsmall
    simp only at h
    rw [if_pos hsmall'] at h
    cases h
  refine ⟨hblocks, ?_⟩
  rw [openDevice_steady hblocks] at h
  cases hfirst : (readSlot 0 (d.blockCount / 2) d.steady).1 with
  | error e =>
    rw [hfirst] at h
    cases h
  | ok first =>
    cases hsecond : (readSlot 1 (d.blockCount / 2) d.steady).1 with
    | error e =>
      rw [hfirst, hsecond] at h
      cases h
    | ok second =>
      rw [hfirst, hsecond] at h
      refine ⟨fun slot => if slot = 0 then first else second, fun slot => ?_, (Except.ok.inj h).symm⟩
      fin_cases slot
      · exact hfirst
      · exact hsecond

/-- The next generation beats the one it follows, except from slot 1 at the end of the range. There it is the same
    generation, and of two that are the same slot 0 is selected. -/
theorem beats_next_iff (slot : Fin 2) {g : Nat} (h : g < 2 ^ 64) :
    Beats (1 - slot) (min (g + 1) (2 ^ 64 - 1)) g ↔ ¬ (slot = 0 ∧ g = 2 ^ 64 - 1) := by
  have hslot : (1 - slot = 0) ↔ slot ≠ 0 := by
    fin_cases slot <;> decide
  rw [Beats, hslot]
  by_cases htop : g = 2 ^ 64 - 1
  · subst htop
    simp
  · have hlt : g < min (g + 1) (2 ^ 64 - 1) := by omega
    exact iff_of_true (Or.inl hlt) fun hboth => htop hboth.2

/-- After a save, the slot that was written to reads as what was written, and the other as before. -/
theorem readSlot_after_save {store store' : SnapshotStore Disk} {tree : FileTree}
    {reading : Fin 2 → Option DecodedSnapshot} (hsave : save tree store = (.ok (), store'))
    (hsettled : ∀ i, store.device.cells.Settled i)
    (hsize : store.device.blockCount / 2 = store.slotBlocks) (hpos : 0 < store.slotBlocks)
    (hsized : ∀ payload, encodeTree tree = .ok payload → payload.length < 2 ^ 64)
    (hread : ∀ slot, (readSlot slot store.slotBlocks store.device.steady).1 = .ok (reading slot)) :
    store'.device.blockCount / 2 = store.slotBlocks ∧
      ∀ slot, (readSlot slot store.slotBlocks store'.device.steady).1 =
        .ok (if slot = store.targetSlot then some ⟨store.nextGeneration, tree⟩ else reading slot) := by
  obtain ⟨-, -, hintact, hcount, hadmits⟩ := save_ok hsave hpos hsized
  have hsize' : store'.device.blockCount / 2 = store.slotBlocks := by rw [hcount, hsize]
  refine ⟨hsize', fun slot => ?_⟩
  -- the target is what has just been written, and the other slot has not been touched
  by_cases htarget : slot = store.targetSlot
  · rw [if_pos htarget, htarget]
    exact hintact.read hsize' hpos
  · rw [if_neg htarget, ← hread slot]
    refine readSlot_congr hsize hcount hpos fun block hblock => ?_
    exact ((hsettled block).keep hadmits fun _ =>
      not_inSlot_of_inSlot hblock (Ne.symm htarget)).1

theorem openDevice_of_readings {d : Disk} {reading : Fin 2 → Option DecodedSnapshot}
    (hblocks : 2 ≤ d.blockCount / 2)
    (hread : ∀ slot, (readSlot slot (d.blockCount / 2) d.steady).1 = .ok (reading slot)) :
    (openDevice d.steady).1 =
      .ok (opened (d.blockCount / 2) (selectSlot (reading 0) (reading 1)) d.steady) := by
  rw [openDevice_steady hblocks, hread 0, hread 1]
  rfl

/-- Between what a store has in use and what it writes next, the selection is for the new one, with the one
    exception. -/
theorem selectSlot_after_save {store : SnapshotStore Disk} {tree : FileTree}
    {reading : Fin 2 → Option DecodedSnapshot}
    (hactive : store.activeSlot = (selectSlot (reading 0) (reading 1)).map Prod.fst)
    (hgeneration : store.generation =
      ((selectSlot (reading 0) (reading 1)).map fun p => p.2.generation).getD 0)
    (hbound : ∀ slot snapshot, reading slot = some snapshot → snapshot.generation < 2 ^ 64)
    {reading' : Fin 2 → Option DecodedSnapshot}
    (hreading' : ∀ slot, reading' slot =
      if slot = store.targetSlot then some ⟨store.nextGeneration, tree⟩ else reading slot) :
    (selectSlot (reading' 0) (reading' 1)).map (fun p => p.2.tree) = some tree ↔
      ¬ (store.activeSlot = some 0 ∧ store.generation = 2 ^ 64 - 1 ∧
        (selectSlot (reading 0) (reading 1)).map (fun p => p.2.tree) ≠ some tree) := by
  -- nothing in use: the target is slot 0, and it is the only one
  cases hselected : selectSlot (reading 0) (reading 1) with
  | none =>
    rw [hselected] at hactive
    have htarget : store.targetSlot = 0 := by rw [targetSlot, hactive]; rfl
    rw [hreading' 0, hreading' 1, htarget, if_pos rfl, if_neg (by decide),
      readings_of_selectSlot_none hselected 1, hactive]
    exact iff_of_true rfl fun h => by cases h.1
  -- the slot in use is the other one, and the new generation is one more than its own, or the same at the end
  | some selected =>
    obtain ⟨slot, snapshot⟩ := selected
    rw [hselected] at hactive hgeneration
    have hslot : store.activeSlot = some slot := hactive
    have hsnapshot : store.generation = snapshot.generation := hgeneration
    have hfound := reading_of_selectSlot hselected
    have hlt := hbound slot snapshot hfound
    have htarget : store.targetSlot = 1 - slot := by rw [targetSlot, hslot]
    have hback : (1 : Fin 2) - (1 - slot) = slot := by fin_cases slot <;> rfl
    have hdiffer : slot ≠ 1 - slot := by fin_cases slot <;> decide
    have hother : reading' (1 - (1 - slot)) = some snapshot := by
      rw [hreading', htarget, hback, if_neg hdiffer, hfound]
    have hbeats := beats_next_iff slot hlt
    rw [selectSlot_of_other hother, hreading', htarget, if_pos rfl, chosen, nextGeneration, hsnapshot,
      hslot, Option.some.injEq, Option.map_some, ne_eq, Option.some.injEq, Option.some.injEq]
    by_cases htop : slot = 0 ∧ snapshot.generation = 2 ^ 64 - 1
    · rw [if_neg fun h => hbeats.mp h htop]
      constructor
      · exact fun heq h => h.2.2 heq
      · exact fun h => by_contra fun hne => h ⟨htop.1, htop.2, hne⟩
    · rw [if_pos (hbeats.mpr htop)]
      exact iff_of_true rfl fun h => htop ⟨h.1, h.2.1⟩

/-- On every device that `open` accepts: the tree that was just saved is the one that is found again,
    unless slot 0 is in use with the highest generation there is, for another tree. -/
theorem open_after_save_iff {blockCount : Nat} {content : Nat → Block} {store store' : SnapshotStore Disk}
    {tree? : Option FileTree} {tree : FileTree}
    (hopen : (openDevice (Disk.holding blockCount content)).1 = .ok (store, tree?))
    (hsave : save tree store = (.ok (), store'))
    (hsized : ∀ payload, encodeTree tree = .ok payload → payload.length < 2 ^ 64) :
    (∃ s, (openDevice store'.device.steady).1 = .ok (s, some tree)) ↔
      ¬ (store.activeSlot = some 0 ∧ store.generation = 2 ^ 64 - 1 ∧ tree? ≠ some tree) := by
  obtain ⟨hblocks, reading, hread, hopened⟩ :=
    openDevice_readings (d := Disk.holding blockCount content) hopen
  obtain ⟨hstore, htree⟩ := Prod.mk.inj hopened
  have hpos : 0 < blockCount / 2 := lt_of_lt_of_le Nat.two_pos hblocks
  have hslots : store.slotBlocks = blockCount / 2 := by rw [hstore]; rfl
  have hdevice : store.device = Disk.holding blockCount content := by rw [hstore]; rfl
  -- what was read when the store was opened, and what is read when it is opened again
  have hread₀ : ∀ slot, (readSlot slot store.slotBlocks store.device.steady).1 =
      .ok (reading slot) := by
    rw [hdevice, hslots]
    exact hread
  obtain ⟨hsize', hread'⟩ := readSlot_after_save hsave (hdevice ▸ settled_holding)
    (by rw [hdevice, hslots]; rfl) (hslots ▸ hpos) hsized hread₀
  rw [← hsize'] at hread'
  have hopen' := openDevice_of_readings (by rw [hsize', hslots]; exact hblocks) hread'
  rw [hopen', htree]
  refine Iff.trans ⟨?_, fun h => ⟨_, congrArg Except.ok (Prod.ext rfl h)⟩⟩
    (selectSlot_after_save (by rw [hstore]) (by rw [hstore])
      (fun slot snapshot h => generation_lt_of_readSlot ((hread slot).trans (by rw [h])))
      fun slot => rfl)
  rintro ⟨s, hs⟩
  have htree' := congrArg Prod.snd (Except.ok.inj hs)
  exact htree'

/-! ### The highest generation -/

/-- A disk of four blocks with a tree in slot 0 under this generation. -/
def heldAt (generation : Nat) (tree : FileTree) : Disk :=
  Disk.holding 4 fun i =>
    if i = 0 then headerBlock generation ((encodeTree tree).toOption.getD [])
    else if i = 1 then Block.ofBytes ((encodeTree tree).toOption.getD [])
    else zeroBlock

/-- What is found after a tree has been saved on a device: opened, saved, and opened again. -/
def resaved (d : Disk) (tree : FileTree) : Except StorageError (Option FileTree) := do
  let (store, _) ← (openDevice d).1
  match save tree store with
  | (.error e, _) => .error e
  | (.ok (), store) => (openDevice store.device.steady).1.map Prod.snd

/-- A save that reports success and is lost: the tree from before is found. One generation earlier it is not lost. -/
theorem save_lost_at_last_generation :
    (openDevice (heldAt (2 ^ 64 - 1) (directoryTree 'a'))).1.map Prod.snd =
        .ok (some (directoryTree 'a')) ∧
      resaved (heldAt (2 ^ 64 - 1) (directoryTree 'a')) (directoryTree 'b') =
        .ok (some (directoryTree 'a')) ∧
      resaved (heldAt (2 ^ 64 - 2) (directoryTree 'a')) (directoryTree 'b') =
        .ok (some (directoryTree 'b')) := by
  decide +kernel

theorem sized_directoryTree {payload : Bytes} (h : encodeTree (directoryTree 'b') = .ok payload) :
    payload.length < 2 ^ 64 :=
  sized_twoTrees (directoryTree 'b') (by simp [twoTrees]) payload h

theorem saved_tree_found_again : ∃ store tree? store',
    (openDevice (heldAt 5 (directoryTree 'a'))).1 = .ok (store, tree?) ∧
      save (directoryTree 'b') store = (.ok (), store') ∧
      ∃ s, (openDevice store'.device.steady).1 = .ok (s, some (directoryTree 'b')) := by
  obtain ⟨⟨store, tree?⟩, hopen, h⟩ :=
    exists_ok_of_all (x := (openDevice (heldAt 5 (directoryTree 'a'))).1)
      (p := fun r => decide ((save (directoryTree 'b') r.1).1 = .ok () ∧ r.1.generation = 5))
      (by decide +kernel)
  obtain ⟨hsave, hgeneration⟩ := of_decide_eq_true h
  have hrun : save (directoryTree 'b') store = (.ok (), (save (directoryTree 'b') store).2) :=
    Prod.ext hsave rfl
  refine ⟨store, tree?, (save (directoryTree 'b') store).2, hopen, hrun, ?_⟩
  refine (open_after_save_iff hopen hrun fun _ h => sized_directoryTree h).mpr ?_
  rintro ⟨-, htop, -⟩
  rw [hgeneration] at htop
  exact absurd htop (by decide)

end SnapshotStore

end Afos
