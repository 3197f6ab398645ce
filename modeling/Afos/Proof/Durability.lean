import Afos.Lib.Run
import Afos.Power
import Afos.Proof.Crash

/-!
# What a loss of power leaves

A storage call that has returned `Ok` is on the disk for good, and one that has not returned has happened or
not. What `Proof.Crash` shows of a device that is opened and saved to in any order holds there on a condition,
that no block of the newest snapshot waits for a flush when a store is opened. The kernel opens its disk once
each time it is switched on, so here the condition is met (`Kept.settled`), and what is left to assume is that
checksums tell payloads apart.

The trees of the log are the ones the machine had in memory or was about to have, so a property of trees that
the storage calls keep is one that no loss of power can break.
-/

set_option autoImplicit false

namespace Afos

open Lib

/-! ## A call and its commit -/

namespace StorageOp

open BareMetalPlatform

variable {D η : Type} [BlockDevice D]

/-- What `storage_rename` does once the target is free: a change of the tree, and then the commit. -/
theorem moveEntry_eq_plan (source target : Str) (previous : FileTree) (p : BareMetalPlatform D η) :
    moveEntry source target previous p =
      (onTree (planMove source target) >>= fun _ => commit previous) p := by
  simp only [moveEntry, planMove, Op.run_bind, run_onTree, Op.run_read]
  cases p.tree.files.lookup source with
  | some data => rfl
  | none => cases p.tree.directories.contains source <;> rfl

/-- Every storage call that does anything is a change of the tree followed by a commit against the tree it found. The
    four functions of the source are written out one by one; this is the form in which they are all alike. -/
theorem run_eq_plan {op : StorageOp} (hidle : op.isIdle = false) (p : BareMetalPlatform D η) :
    op.run p = (onTree op.plan >>= fun _ => commit p.tree) p := by
  cases op with
  | write path data =>
    simp only [run, storageWrite, plan, Op.run_bind, run_onTree, Op.run_read]
    cases p.tree.directories.contains path with
    | true => rfl
    | false =>
      simp only [Bool.false_eq_true, if_false, Op.run_bind, run_onTree]
      cases FileTree.addParents (parent path) p.tree with
      | mk r t => cases r <;> rfl
  | createDirAll path => rfl
  | remove path =>
    simp only [run, storageRemove, plan, Op.run_bind, run_onTree, Op.run_read]
    cases p.tree.files.contains path with
    | true => rfl
    | false => cases p.tree.directories.contains path <;> rfl
  | rename source target =>
    simp only [run, storageRename, plan, Op.run_bind, run_onTree, Op.run_read]
    rw [if_neg (of_decide_eq_false hidle)]
    cases p.tree.existsAt target with
    | true => rfl
    | false =>
      cases (stripPrefix source target).any (fun suffix => suffix.head? == some '/') with
      | true => rfl
      | false =>
        simp only [Bool.false_eq_true, if_false, Op.run_bind, run_onTree]
        cases FileTree.addParents (parent target) p.tree with
        | mk r t =>
          cases r with
          | error e => rfl
          | ok u => simp only [moveEntry_eq_plan, Op.run_bind, run_onTree]

theorem run_idle {op : StorageOp} (hidle : op.isIdle = true) (p : BareMetalPlatform D η) :
    op.run p = (.ok (), p) := by
  cases op with
  | rename source target =>
    obtain rfl : source = target := of_decide_eq_true hidle
    simp only [run, storageRename, Op.run_bind, Op.run_read, if_true, Op.run_pure]
  | write | createDirAll | remove => cases hidle

end StorageOp

/-! ## Starting -/

namespace Kernel

variable {η : Type} [Hardware η] {k : Kernel} {hardware : η} {disk : Disk}

/-- The machine is on exactly when `new` has succeeded. `startUp` also says in which state the disk is left when it
    has not, which `new` drops with the platform. -/
theorem startUp_eq_on_iff {p : BareMetalPlatform Disk η} :
    k.startUp hardware disk = .on p ↔
      BareMetalPlatform.new k.counterFrequency k.files (some disk) hardware = .ok p := by
  rw [startUp, BareMetalPlatform.new, BareMetalPlatform.openPersistence]
  cases hopen : SnapshotStore.openDevice disk with
  | mk r d =>
    cases r with
    | error e => exact ⟨fun h => (by cases h), fun h => (by cases h)⟩
    | ok out =>
      obtain ⟨store, restored⟩ := out
      rcases hcount : Hardware.counter hardware with ⟨started, hardware'⟩
      simp only [found, hcount, bind, Except.bind]
      rcases BareMetalPlatform.seedIfEmpty k.files _ with ⟨_ | _, q⟩
      · exact ⟨fun h => (by cases h), fun h => (by cases h)⟩
      · exact ⟨fun h => (by cases h; rfl), fun h => (by cases h; rfl)⟩

end Kernel

theorem FileTree.isEmpty_iff {t : FileTree} :
    (t.files.isEmpty && t.directories.isEmpty) = true ↔ t = FileTree.empty := by
  rw [Bool.and_eq_true, OrdMap.isEmpty, OrdMap.isEmpty, List.isEmpty_iff, List.isEmpty_iff]
  constructor
  · intro ⟨hfiles, hdirectories⟩
    obtain ⟨files, directories⟩ := t
    rw [FileTree.empty, FileTree.mk.injEq]
    exact ⟨OrdMap.ext_entries hfiles, OrdMap.ext_entries hdirectories⟩
  · rintro rfl
    exact ⟨rfl, rfl⟩

/-- What is found on the disk is what the machine starts with, unless it is empty. The source tests the tree, not
    whether a snapshot was found, so an empty snapshot is filled with the initial files once more. -/
theorem Kernel.startUp_of_restored {η : Type} [Hardware η] {k : Kernel} {hardware : η} {disk d : Disk}
    {store : SnapshotStore Disk} {tree : FileTree}
    (hopen : SnapshotStore.openDevice disk = (.ok (store, some tree), d)) (hnonempty : tree ≠ FileTree.empty) :
    k.startUp hardware disk = .on (k.found hardware store (some tree)) := by
  have hfound : (k.found hardware store (some tree)).tree = tree := rfl
  simp only [startUp, hopen, BareMetalPlatform.seedIfEmpty, Op.run_bind, Op.run_read]
  rw [hfound, if_neg fun h => hnonempty (FileTree.isEmpty_iff.mp h)]
  rfl

/-- The ways a start can go: how the machine is afterwards, and what was to be saved. All that is later said of a
    start is said by cases on this; the code of `new` is looked at once, in `starting`. -/
inductive Starting {η : Type} [Hardware η] (k : Kernel) (hardware : η) (disk : Disk) :
    Power η → List Attempt → Prop
  | unread {e : StorageError} {d : Disk} (opened : SnapshotStore.openDevice disk = (.error e, d)) :
      Starting k hardware disk (.halted d) []
  | restored {store : SnapshotStore Disk} {tree : FileTree} {d : Disk}
      (opened : SnapshotStore.openDevice disk = (.ok (store, some tree), d)) (nonempty : tree ≠ FileTree.empty) :
      Starting k hardware disk (.on (k.found hardware store (some tree))) []
  | unseeded {store : SnapshotStore Disk} {found : Option FileTree} {d : Disk}
      (opened : SnapshotStore.openDevice disk = (.ok (store, found), d)) :
      Starting k hardware disk (.halted store.device) []
  | seeded {store store' : SnapshotStore Disk} {found : Option FileTree} {d : Disk} {tree : FileTree}
      {r : Except StorageError Unit}
      (opened : SnapshotStore.openDevice disk = (.ok (store, found), d))
      (seed : FileTree.seed k.files FileTree.empty = (.ok (), tree))
      (saved : SnapshotStore.save tree store = (r, store')) :
      Starting k hardware disk
        (if r.isOk then .on { k.found hardware store found with tree, persistence := some store' }
          else .halted store'.device)
        [⟨store.nextGeneration, tree, r.isOk⟩]

theorem starting {η : Type} [Hardware η] (k : Kernel) (hardware : η) (disk : Disk) :
    Starting k hardware disk (k.startUp hardware disk) (Life.seeding k disk) := by
  rw [Kernel.startUp, Life.seeding]
  rcases hopen : SnapshotStore.openDevice disk with ⟨_ | ⟨store, found⟩, d⟩
  · exact .unread hopen
  simp only [BareMetalPlatform.seedIfEmpty, Op.run_bind, Op.run_read]
  have hfound : (k.found hardware store found).tree = found.getD FileTree.empty := rfl
  -- no snapshot and an empty one are the same to `seed_if_empty`
  by_cases hempty : found.getD FileTree.empty = FileTree.empty
  · rw [if_pos hempty, hfound, hempty, if_pos (FileTree.isEmpty_iff.mpr rfl), Op.run_bind,
      BareMetalPlatform.run_onTree, hfound, hempty]
    rcases hseed : FileTree.seed k.files FileTree.empty with ⟨_ | _, tree⟩
    · exact .unseeded hopen
    · rcases hsave : SnapshotStore.save tree store with ⟨r, store'⟩
      have hstart : Starting k hardware disk _ _ := .seeded hopen hseed hsave
      simp only [BareMetalPlatform.persist, Kernel.found, hsave] at hstart ⊢
      cases r with
      | ok u => exact hstart
      | error e => exact hstart
  · rw [if_neg hempty, hfound, if_neg fun h => hempty (FileTree.isEmpty_iff.mp h)]
    cases found with
    | none => exact absurd rfl hempty
    | some tree => exact .restored hopen hempty

/-- The ways a call can go: what it answers, the platform it leaves, and what was to be saved. `failed` is a call
    that did not get to its commit, and may leave a tree other than the one it found; a commit that fails puts the
    old tree back. -/
inductive Calling {η : Type} (op : StorageOp) (p : BareMetalPlatform Disk η) (store : SnapshotStore Disk) :
    Except Error Unit × BareMetalPlatform Disk η → List Attempt → Prop
  | idle (idle : op.isIdle = true) : Calling op p store (.ok (), p) []
  | failed {e : Error} {tree : FileTree} (idle : op.isIdle = false) (plan : op.plan p.tree = (.error e, tree)) :
      Calling op p store (.error e, { p with tree }) []
  | saved {tree : FileTree} {r : Except StorageError Unit} {store' : SnapshotStore Disk}
      (proposal : op.proposal p.tree = some tree) (saved : SnapshotStore.save tree store = (r, store')) :
      Calling op p store
        (BareMetalPlatform.mapStorageError r,
          { p with persistence := some store', tree := if r.isOk then tree else p.tree })
        [⟨store.nextGeneration, tree, r.isOk⟩]

theorem calling {η : Type} (op : StorageOp) {p : BareMetalPlatform Disk η} {store : SnapshotStore Disk}
    (hstore : p.persistence = some store) : Calling op p store (op.run p) (Life.saving op p) := by
  rw [Life.saving]
  cases hidle : op.isIdle with
  | true =>
    rw [StorageOp.run_idle hidle, StorageOp.proposal, hidle]
    exact .idle hidle
  | false =>
    rcases hplan : op.plan p.tree with ⟨e | ⟨⟨⟩⟩, tree⟩
    · have hrun : op.run p = (.error e, { p with tree }) := by
        rw [StorageOp.run_eq_plan hidle, Op.run_bind, BareMetalPlatform.run_onTree, hplan]
      have hproposal : op.proposal p.tree = none := by simp [StorageOp.proposal, hidle, hplan]
      rw [hrun, hproposal]
      exact .failed hidle hplan
    · rcases hsave : SnapshotStore.save tree store with ⟨r, store'⟩
      have hproposal : op.proposal p.tree = some tree := by simp [StorageOp.proposal, hidle, hplan]
      have hrun : op.run p = (BareMetalPlatform.mapStorageError r,
          { p with persistence := some store', tree := if r.isOk then tree else p.tree }) := by
        rw [StorageOp.run_eq_plan hidle, Op.run_bind, BareMetalPlatform.run_onTree, hplan]
        simp only [BareMetalPlatform.commit, BareMetalPlatform.persist, hstore, hsave]
        cases r <;> rfl
      have hok : (op.run p).1.isOk = r.isOk := by
        rw [hrun]
        cases r <;> rfl
      rw [hproposal, hstore]
      simp only [hok]
      rw [hrun]
      exact .saved hproposal hsave

/-! ## The disk over the events -/

/-- A store that is given up leaves its device. -/
theorem World.Sound.close {w : World} {slotBlocks g : Nat} {active : Option (Fin 2)}
    (h : w.Sound slotBlocks active g) : World.Sound slotBlocks active g ⟨.closed w.disk, w.log⟩ :=
  ⟨h.logged, h.consistent, trivial⟩

/-- What the device has in store for later calls is no part of what it holds, so the faults to come can be chosen
    anew for each call. -/
theorem World.Sound.supplied {store : SnapshotStore Disk} {log : List Attempt} {slotBlocks g : Nat}
    {active : Option (Fin 2)} (h : World.Sound slotBlocks active g ⟨.opened store, log⟩)
    (hpos : 0 < slotBlocks) (fates : List Fate) :
    World.Sound slotBlocks active g ⟨.opened (store.supplied fates), log⟩ :=
  ⟨h.logged, h.consistent.narrow hpos (Disk.admits_of_steady rfl), h.remembers⟩

theorem told_ok (r : Except StorageError Unit) : r.isOk = true → r = .ok () := by
  cases r with
  | ok u => exact fun _ => rfl
  | error e => exact fun h => (by cases h)

/-- The length of what is saved is a machine number. -/
def Attempt.Sized (a : Attempt) : Prop :=
  ∀ payload, encodeTree a.tree = .ok payload → payload.length < 2 ^ 64

namespace Life

variable {η : Type} {l : Life η} {slotBlocks : Nat}

/-- What is on the disk is in order, and on a machine that is off nothing of it waits for a flush. The second holds
    because a machine goes off only by losing its power, which settles every block, and it is what a start needs:
    the condition under which `open` may take what it reads for what will stay. -/
structure Kept (slotBlocks : Nat) (l : Life η) : Prop where
  sound : ∃ active g, l.world.Sound slotBlocks active g
  settled : ∀ disk, l.power = .off disk → ∀ i, disk.cells.Settled i
  stored : ∀ p, l.power = .on p → ∃ store, p.persistence = some store

theorem kept_new (blockCount : Nat) : (new blockCount : Life η).Kept (blockCount / 2) where
  sound := ⟨none, 0, World.sound_start blockCount⟩
  settled := by
    intro disk hoff i block hblock
    cases hoff
    exact List.mem_singleton.mp hblock
  stored := by
    intro p hon
    cases hon

theorem kept_on {p : BareMetalPlatform Disk η} {store : SnapshotStore Disk} {log : List Attempt}
    {active : Option (Fin 2)} {g : Nat} (hstore : p.persistence = some store)
    (hsound : World.Sound slotBlocks active g ⟨.opened store, log⟩) : Kept slotBlocks ⟨.on p, log⟩ where
  sound := ⟨active, g, by rwa [world, Power.holder, hstore]⟩
  settled := by
    intro disk hoff
    cases hoff
  stored := by
    intro q hon
    cases hon
    exact ⟨store, hstore⟩

theorem kept_halted {disk : Disk} {log : List Attempt} {active : Option (Fin 2)} {g : Nat}
    (hsound : World.Sound slotBlocks active g ⟨.closed disk, log⟩) :
    Kept slotBlocks (⟨.halted disk, log⟩ : Life η) where
  sound := ⟨active, g, hsound⟩
  settled := by
    intro disk hoff
    cases hoff
  stored := by
    intro q hon
    cases hon

theorem Kept.on_sound {p : BareMetalPlatform Disk η} {store : SnapshotStore Disk} {log : List Attempt}
    (h : Kept slotBlocks ⟨.on p, log⟩) (hstore : p.persistence = some store) :
    ∃ active g, World.Sound slotBlocks active g ⟨.opened store, log⟩ := by
  have hsound := h.sound
  rwa [world, Power.holder, hstore] at hsound

variable [Hardware η] (k : Kernel)

theorem Kept.loss (h : l.Kept slotBlocks) (hpos : 0 < slotBlocks) (pick : Nat → Nat) :
    (l.step k (.loss pick)).Kept slotBlocks where
  sound := by
    obtain ⟨active, g, hsound⟩ := h.sound
    exact ⟨active, g, hsound.step_crash hpos pick⟩
  settled := by
    intro disk hoff i
    cases hoff
    exact Volatile.settled_flush _ i
  stored := by
    intro p hon
    cases hon

/-- A call keeps the disk in order. It is a save or none at all; where it is none, the store has only been given
    other faults to come. -/
theorem Kept.call (h : l.Kept slotBlocks) (hblocks : 2 ≤ slotBlocks) (hlog : l.log.length < 2 ^ 64 - 1)
    (op : StorageOp) (fates : List Fate) (hsized : ∀ a ∈ l.attempts k (.call op fates), a.Sized) :
    (l.step k (.call op fates)).Kept slotBlocks := by
  obtain ⟨power, log⟩ := l
  cases power with
  | off disk => exact h
  | halted disk => exact h
  | on p =>
    obtain ⟨store, hstore⟩ := h.stored p rfl
    obtain ⟨active, g, hsound⟩ := h.on_sound hstore
    have hsupplied : (p.supplied fates).persistence = some (store.supplied fates) := by
      rw [BareMetalPlatform.supplied, hstore]
      rfl
    have hpos : 0 < slotBlocks := by omega
    have hcalling := calling op hsupplied
    have hsized' : ∀ a ∈ saving op (p.supplied fates), a.Sized := hsized
    show Kept slotBlocks ⟨.on (op.run (p.supplied fates)).2, saving op (p.supplied fates) ++ log⟩
    -- only the three ways a call can go are left of the call
    generalize op.run (p.supplied fates) = out at hcalling ⊢
    generalize saving op (p.supplied fates) = tried at hcalling hsized' ⊢
    cases hcalling with
    | idle => exact kept_on hsupplied (hsound.supplied hpos fates)
    | failed => exact kept_on hsupplied (hsound.supplied hpos fates)
    | saved _ saved =>
      obtain ⟨active', g', hsound'⟩ := hsound.attempt hblocks hlog (hsized' _ List.mem_cons_self) rfl saved
        (told_ok _)
      exact kept_on rfl hsound'

/-- A start keeps the disk in order: it opens the store once, on a disk that is settled, and then saves once at
    most. -/
theorem Kept.start (h : l.Kept slotBlocks) (hblocks : 2 ≤ slotBlocks) (hlog : l.log.length < 2 ^ 64 - 1)
    (hcollision : l.world.NoCollision) (hardware : η) (fates : List Fate)
    (hsized : ∀ a ∈ l.attempts k (.start hardware fates), a.Sized) :
    (l.step k (.start hardware fates)).Kept slotBlocks := by
  obtain ⟨power, log⟩ := l
  cases power with
  | on p => exact h
  | halted disk => exact h
  | off disk =>
    obtain ⟨active, g, hsound⟩ := h.sound
    have hanchored : (⟨.closed disk, log⟩ : World).Anchored := World.anchored_of_settled (h.settled disk rfl)
    obtain ⟨active', g', hopened⟩ := hsound.step_open hblocks hlog hcollision hanchored fates
    have hstarting := starting k hardware (disk.supplied fates)
    have hsized' : ∀ a ∈ seeding k (disk.supplied fates), a.Sized := hsized
    show Kept slotBlocks
      ⟨k.startUp hardware (disk.supplied fates), seeding k (disk.supplied fates) ++ log⟩
    generalize k.startUp hardware (disk.supplied fates) = power at hstarting ⊢
    generalize seeding k (disk.supplied fates) = tried at hstarting hsized' ⊢
    have hworld : (⟨Power.off disk, log⟩ : Life η).world.disk = disk := rfl
    rw [World.step, hworld] at hopened
    cases hstarting with
    | unread opened =>
      -- the kernel stops, and gives up the device as it is
      rw [opened] at hopened
      exact kept_halted hopened
    | restored opened nonempty =>
      rw [opened] at hopened
      exact kept_on rfl hopened
    | unseeded opened =>
      rw [opened] at hopened
      exact kept_halted hopened.close
    | seeded opened seed saved =>
      rw [opened] at hopened
      obtain ⟨active'', g'', hsaved⟩ := hopened.attempt hblocks hlog (hsized' _ List.mem_cons_self) rfl saved
        (told_ok _)
      split
      · exact kept_on rfl hsaved
      · exact kept_halted hsaved.close

/-- An event tries one save at most, so a run of fewer than `2 ^ 64 - 1` events does not run out of generations. -/
theorem length_attempts (l : Life η) (e : PowerEvent η) : (l.attempts k e).length ≤ 1 := by
  obtain ⟨power, log⟩ := l
  cases e with
  | start hardware fates =>
    cases power with
    | off disk =>
      show (seeding k (disk.supplied fates)).length ≤ 1
      have hstarting := starting k hardware (disk.supplied fates)
      generalize k.startUp hardware (disk.supplied fates) = power at hstarting
      generalize seeding k (disk.supplied fates) = tried at hstarting ⊢
      cases hstarting <;> simp
    | on p => exact Nat.zero_le _
    | halted disk => exact Nat.zero_le _
  | call op fates =>
    cases power with
    | on p =>
      show (saving op (p.supplied fates)).length ≤ 1
      rw [saving]
      split
      · exact Nat.le_refl _
      · exact Nat.zero_le _
    | off disk => exact Nat.zero_le _
    | halted disk => exact Nat.zero_le _
  | loss pick => exact Nat.zero_le _

theorem Kept.step (h : l.Kept slotBlocks) (hblocks : 2 ≤ slotBlocks) (hlog : l.log.length < 2 ^ 64 - 1)
    {e : PowerEvent η} (hsized : ∀ a ∈ l.attempts k e, a.Sized)
    (hcollision : e.isStart = true → l.world.NoCollision) : (l.step k e).Kept slotBlocks := by
  cases e with
  | start hardware fates => exact h.start k hblocks hlog (hcollision rfl) hardware fates hsized
  | call op fates => exact h.call k hblocks hlog op fates hsized
  | loss pick => exact h.loss k (by omega) pick

/-- What a whole run assumes of an event: the sizes are machine numbers, and where the disk is read checksums
    tell payloads apart. -/
def Fair (l : Life η) (e : PowerEvent η) : Prop :=
  (∀ a ∈ l.attempts k e, a.Sized) ∧ (e.isStart = true → l.world.NoCollision)

/-- A property that every event keeps, once the disk is in order, holds after every run. `P` is what is further
    assumed of the events, each in the state in which it comes. -/
theorem run_invariant {blockCount : Nat} (hblocks : 4 ≤ blockCount) (Inv : Life η → Prop)
    (P : Life η → PowerEvent η → Prop) (hnew : Inv (new blockCount))
    (hstep : ∀ l e, l.Kept (blockCount / 2) → l.log.length < 2 ^ 64 - 1 → Inv l → Fair k l e → P l e →
      Inv (l.step k e))
    {events : List (PowerEvent η)} (hcount : events.length < 2 ^ 64 - 1)
    (hfair : Along (step k) (Fair k) (new blockCount) events)
    (hrun : Along (step k) P (new blockCount) events) :
    let l := runFrom (step k) (new blockCount) events
    l.Kept (blockCount / 2) ∧ l.log.length ≤ events.length ∧ Inv l := by
  -- the induction is over the events from an arbitrary state, with room in the log for one save for each of them
  suffices hgeneral : ∀ (l : Life η), l.Kept (blockCount / 2) → l.log.length + events.length < 2 ^ 64 - 1 →
      Inv l → Along (step k) (Fair k) l events → Along (step k) P l events →
      (runFrom (step k) l events).Kept (blockCount / 2) ∧
        (runFrom (step k) l events).log.length ≤ l.log.length + events.length ∧
        Inv (runFrom (step k) l events) by
    simpa [new] using hgeneral _ (kept_new blockCount) (by simpa [new] using hcount) hnew hfair hrun
  clear hfair hrun hcount
  induction events with
  | nil => exact fun l hkept _ hinv _ _ => ⟨hkept, Nat.le_refl _, hinv⟩
  | cons e events ih =>
    intro l hkept hlog hinv hfair hrun
    have hlength : (l.step k e).log.length ≤ l.log.length + 1 := by
      have := length_attempts k l e
      simp only [step, List.length_append]
      omega
    simp only [List.length_cons] at hlog ⊢
    have hfit : l.log.length < 2 ^ 64 - 1 := by omega
    obtain ⟨hkept', hlog', hinv'⟩ := ih (l.step k e) (hkept.step k (by omega) hfit hfair.1.1 hfair.1.2) (by omega)
      (hstep l e hkept hfit hinv hfair.1 hrun.1) hfair.2 hrun.2
    exact ⟨hkept', by rw [runFrom, List.foldl_cons]; exact hlog'.trans (by omega), hinv'⟩

theorem run_kept {blockCount : Nat} (hblocks : 4 ≤ blockCount) {events : List (PowerEvent η)}
    (hcount : events.length < 2 ^ 64 - 1) (hfair : Along (step k) (Fair k) (new blockCount) events) :
    let l := runFrom (step k) (new blockCount) events
    l.Kept (blockCount / 2) ∧ l.log.length ≤ events.length := by
  obtain ⟨hkept, hlog, -⟩ := run_invariant k hblocks (fun _ => True) (fun _ _ => True) trivial
    (fun _ _ _ _ _ _ _ => trivial) hcount hfair (Along.of_forall (fun _ _ => trivial) _ _)
  exact ⟨hkept, hlog⟩

/-! ## What is found again -/

omit [Hardware η] in
/-- Whatever a start reads was to be saved, by the last save that returned `Ok` or by one after it. Here faults are
    allowed for: if one keeps the store from being opened, nothing is read. -/
theorem Kept.opened {disk : Disk} {log : List Attempt} (h : Kept slotBlocks (⟨.off disk, log⟩ : Life η))
    (hblocks : 2 ≤ slotBlocks) (hlog : log.length < 2 ^ 64 - 1)
    (hcollision : (⟨.closed disk, log⟩ : World).NoCollision) {fates : List Fate} {store : SnapshotStore Disk}
    {restored : Option FileTree} {d : Disk}
    (hopen : SnapshotStore.openDevice (disk.supplied fates) = (.ok (store, restored), d)) :
    ∀ tree, restored = some tree → tree ∈ eligible log := by
  obtain ⟨active, g, hsound⟩ := h.sound
  have hdisk : (⟨Power.off disk, log⟩ : Life η).world.disk = disk := rfl
  rcases hsound.open_cases hblocks hlog hcollision fates with
    ⟨-, e, d', hfailed, -⟩ | ⟨selected, d', hselects, -, hopened⟩
  · rw [hdisk, hopen] at hfailed
    cases hfailed
  · rw [hdisk, hopen] at hopened
    have hrestored : restored = selected.map fun p => p.2.tree := by
      cases hopened
      rfl
    intro tree htree
    rw [hrestored] at htree
    cases hselects with
    | nothing => cases htree
    | inUse _ hfound =>
      cases htree
      exact hfound
    | newer hb hgeneration _ =>
      cases htree
      exact hsound.logged.newest _ hb hgeneration

/-- The tree in memory was the last to be saved, or one that may be found again in its place. It can fail to be: a
    call that ends before its commit may leave a tree in memory that was never to be saved. -/
def Remembered (l : Life η) : Prop := ∀ p, l.power = .on p → p.tree ∈ eligible l.log

end Life

/-- A call that fails leaves the tree it has found. A rename does not always do so: it adds the parents of its target
    before it finds that there is nothing to move. -/
def PowerEvent.FailsCleanly {η : Type} (l : Life η) (e : PowerEvent η) : Prop :=
  ∀ op fates p, e = .call op fates → l.power = .on p →
    ∀ error, (op.run (p.supplied fates)).1 = .error error → (op.run (p.supplied fates)).2.tree = p.tree

namespace Life

variable {η : Type} {l : Life η} {slotBlocks : Nat} [Hardware η] (k : Kernel)

theorem remembered_call (h : l.Remembered) (hkept : l.Kept slotBlocks) {op : StorageOp} {fates : List Fate}
    (hclean : PowerEvent.FailsCleanly l (.call op fates)) : (l.step k (.call op fates)).Remembered := by
  obtain ⟨power, log⟩ := l
  cases power with
  | off disk => exact h
  | halted disk => exact h
  | on p =>
    obtain ⟨store, hstore⟩ := hkept.stored p rfl
    have hsupplied : (p.supplied fates).persistence = some (store.supplied fates) := by
      rw [BareMetalPlatform.supplied, hstore]
      rfl
    have hcalling := calling op hsupplied
    have hclean := hclean op fates p rfl rfl
    have htree : p.tree ∈ eligible log := h p rfl
    show Remembered ⟨.on (op.run (p.supplied fates)).2, saving op (p.supplied fates) ++ log⟩
    generalize op.run (p.supplied fates) = out at hcalling hclean ⊢
    generalize saving op (p.supplied fates) = tried at hcalling ⊢
    intro q hq
    cases hq
    cases hcalling with
    | idle => exact htree
    | failed => exact (hclean _ rfl) ▸ htree
    | @saved tree r store' _ _ =>
      cases r with
      | ok u => exact List.mem_cons_self
      | error e => exact List.mem_cons_of_mem _ htree

theorem remembered_start (h : l.Remembered) (hkept : l.Kept slotBlocks) (hblocks : 2 ≤ slotBlocks)
    (hlog : l.log.length < 2 ^ 64 - 1) (hcollision : l.world.NoCollision) (hardware : η) (fates : List Fate) :
    (l.step k (.start hardware fates)).Remembered := by
  obtain ⟨power, log⟩ := l
  cases power with
  | on p => exact h
  | halted disk => exact h
  | off disk =>
    have hstarting := starting k hardware (disk.supplied fates)
    show Remembered ⟨k.startUp hardware (disk.supplied fates), seeding k (disk.supplied fates) ++ log⟩
    generalize k.startUp hardware (disk.supplied fates) = power at hstarting ⊢
    generalize seeding k (disk.supplied fates) = tried at hstarting ⊢
    intro p hp
    cases hstarting with
    | unread => cases hp
    | restored opened nonempty =>
      cases hp
      exact hkept.opened hblocks hlog hcollision opened _ rfl
    | unseeded => cases hp
    | @seeded store store' found d tree r _ _ _ =>
      cases r with
      | ok u =>
        cases hp
        exact List.mem_cons_self
      | error e => cases hp

theorem remembered_step (h : l.Remembered) (hkept : l.Kept slotBlocks) (hblocks : 2 ≤ slotBlocks)
    (hlog : l.log.length < 2 ^ 64 - 1) {e : PowerEvent η} (hfair : Fair k l e) (hclean : e.FailsCleanly l) :
    (l.step k e).Remembered := by
  cases e with
  | start hardware fates => exact remembered_start k h hkept hblocks hlog (hfair.2 rfl) hardware fates
  | call op fates => exact remembered_call k h hkept hclean
  | loss pick =>
    intro p hp
    cases hp

omit [Hardware η] in
theorem mem_eligible_saving {op : StorageOp} {p : BareMetalPlatform Disk η} {log : List Attempt} {tree : FileTree}
    (h : tree ∈ eligible (saving op p ++ log)) : op.proposal p.tree = some tree ∨ tree ∈ eligible log := by
  rw [saving] at h
  split at h
  · rename_i proposed store hproposal hstore
    rcases List.mem_cons.mp h with rfl | hrest
    · exact Or.inl hproposal
    · split at hrest
      · cases hrest
      · exact Or.inr hrest
  · exact Or.inr h

omit [Hardware η] in
/-- What a call that returns `Ok` has saved is what it leaves in memory, unless it had nothing to do. -/
theorem saving_of_ok {op : StorageOp} {p : BareMetalPlatform Disk η} {store : SnapshotStore Disk}
    (hstore : p.persistence = some store) (hok : (op.run p).1 = .ok ()) (hidle : op.isIdle = false) :
    saving op p = [⟨store.nextGeneration, (op.run p).2.tree, true⟩] := by
  have hcalling := calling op hstore
  generalize op.run p = out at hcalling hok ⊢
  generalize saving op p = tried at hcalling ⊢
  cases hcalling with
  | idle idle =>
    rw [hidle] at idle
    cases idle
  | failed => cases hok
  | @saved tree r store' _ _ =>
    cases r with
    | ok u => rfl
    | error e => cases hok

/-- A machine with a new disk is switched on, makes storage calls and loses its power, in any order, with any
    faults of the disk. At some point it is on, a call is made, and the power goes: during the call, if a fault
    has cut it short, or after it. If the call had returned `Ok`, what is found is the tree it has left in
    memory; a rename of a path to itself is an exception, as it returns `Ok` without saving anything. In every
    case it is the tree the call was about to save, or one that might have been found without it: of the last save
    that returned `Ok`, or of one tried since, among them the tree in memory if no call that failed has changed
    that. Nothing is found only if no save ever returned `Ok`. -/
theorem storage_survives_power_loss {blockCount : Nat} (hblocks : 4 ≤ blockCount)
    {events : List (PowerEvent η)} (hcount : events.length + 1 < 2 ^ 64 - 1)
    (hfair : Along (step k) (Fair k) (new blockCount) events) {l : Life η}
    (hl : l = runFrom (step k) (new blockCount) events) {p : BareMetalPlatform Disk η} (hon : l.power = .on p)
    {op : StorageOp} {fates : List Fate} (hsized : ∀ a ∈ l.attempts k (.call op fates), a.Sized)
    {pick : Nat → Nat} (hcollision : (runFrom (step k) l [.call op fates, .loss pick]).world.NoCollision)
    {quiet : List Fate} (hquiet : ∀ pick, Fate.fault pick ∉ quiet) :
    ∃ restored, (runFrom (step k) l [.call op fates, .loss pick]).world.answer quiet = .ok restored ∧
      ((op.run (p.supplied fates)).1 = .ok () → op.isIdle = false →
        restored = some (op.run (p.supplied fates)).2.tree) ∧
      (∀ tree, restored = some tree → op.proposal p.tree = some tree ∨ tree ∈ eligible l.log) ∧
      (restored = none → ∀ a ∈ l.log, a.returnedOk = false) ∧
      (Along (step k) (fun l e => e.FailsCleanly l) (new blockCount) events → p.tree ∈ eligible l.log) := by
  have htwo : 2 ≤ blockCount / 2 := by omega
  have hevents : events.length < 2 ^ 64 - 1 := by omega
  obtain ⟨hkept, hlength⟩ := run_kept k hblocks hevents hfair
  rw [← hl] at hkept hlength
  have hlog : l.log.length < 2 ^ 64 - 1 := by omega
  obtain ⟨store, hstore⟩ := hkept.stored p hon
  have hsupplied : (p.supplied fates).persistence = some (store.supplied fates) := by
    rw [BareMetalPlatform.supplied, hstore]
    rfl
  have hattempts : l.attempts k (.call op fates) = saving op (p.supplied fates) := by rw [attempts, hon]
  obtain ⟨active, g, hsound⟩ := ((hkept.call k htwo hlog op fates hsized).loss k (by omega) pick).sound
  have hlength' := length_attempts k l (.call op fates)
  -- after the loss the log has the save of the call in front, and one of its eligible trees is found
  obtain ⟨restored, hanswer, hsome, hnone⟩ := hsound.answer_eligible htwo
    (show (l.attempts k (.call op fates) ++ l.log).length < _ by rw [List.length_append]; omega) hcollision hquiet
  change ∀ tree, restored = some tree → tree ∈ eligible (l.attempts k (.call op fates) ++ l.log) at hsome
  change restored = none → ∀ a ∈ l.attempts k (.call op fates) ++ l.log, a.returnedOk = false at hnone
  rw [hattempts] at hsome hnone
  refine ⟨restored, hanswer, fun hok hidle => ?_,
    fun tree htree => mem_eligible_saving (p := p.supplied fates) (hsome tree htree),
    fun h a ha => hnone h a (List.mem_append_right _ ha), fun hclean => ?_⟩
  · rw [saving_of_ok hsupplied hok hidle] at hsome hnone
    cases restored with
    | none => cases hnone rfl _ List.mem_cons_self
    | some tree => rw [List.mem_singleton.mp (hsome tree rfl)]
  · obtain ⟨-, -, hremembered⟩ := run_invariant k hblocks Remembered (fun l e => e.FailsCleanly l)
      (fun p hp => (by cases hp))
      (fun l e hkept hlog hinv hfair hclean => remembered_step k hinv hkept htwo hlog hfair hclean)
      hevents hfair hclean
    rw [← hl] at hremembered
    exact hremembered p hon

end Life

def Attempt.sizedBy (a : Attempt) (bound : Nat) : Bool :=
  (encodeTree a.tree).toOption.all fun payload => decide (payload.length < bound)

theorem Attempt.sized_of_sizedBy {a : Attempt} (h : a.sizedBy (2 ^ 64) = true) : a.Sized := by
  intro payload hencode
  rw [sizedBy, hencode] at h
  exact of_decide_eq_true h

/-- A kernel with one file to start with. -/
def noteKernel : Kernel := ⟨[⟨"a".toList, [1]⟩], 1⟩

/-- The first start enters the file; a call is cut short at its first write, and the power goes; the machine is
    switched on again. -/
def interrupted : List (PowerEvent Keyboard) :=
  [.start ⟨[]⟩ [],
   .call (.createDirAll "docs".toList) [.fault fun _ => 0],
   .loss fun _ => 0,
   .start ⟨[]⟩ []]

def Power.isOn {η : Type} : Power η → Bool
  | .on _ => true
  | _ => false

theorem Power.eq_on_of_isOn {η : Type} {power : Power η} (h : power.isOn = true) : ∃ p, power = .on p := by
  cases power with
  | on p => exact ⟨p, rfl⟩
  | off disk => cases h
  | halted disk => cases h

namespace Life

theorem fair_interrupted : Along (step noteKernel) (Fair noteKernel) (new 4) interrupted := by
  have hfair : ∀ {l : Life Keyboard} {e : PowerEvent Keyboard},
      (∀ a ∈ l.attempts noteKernel e, a.sizedBy (2 ^ 64) = true) →
      (∀ slot, ∀ a ∈ l.log, e.isStart = true → l.world.clearOf slot a = true) → Fair noteKernel l e :=
    fun hsized hclear => ⟨fun a ha => Attempt.sized_of_sizedBy (hsized a ha),
      fun hstart => World.noCollision_of_clearOf fun slot a ha => hclear slot a ha hstart⟩
  exact ⟨hfair (by decide +kernel) (by decide +kernel), hfair (by decide +kernel) (by decide +kernel),
    hfair (by decide +kernel) (by decide +kernel), hfair (by decide +kernel) (by decide +kernel), trivial⟩

theorem storage_survives_power_loss_mkdir :
    ∃ p, (runFrom (step noteKernel) (new 4) interrupted).power = .on p ∧
      ∃ restored,
        (runFrom (step noteKernel) (runFrom (step noteKernel) (new 4) interrupted)
          [.call (.createDirAll "docs".toList) [], .loss fun _ => 0]).world.answer [] = .ok restored ∧
        (((StorageOp.createDirAll "docs".toList).run (p.supplied [])).1 = .ok () →
          restored = some ((StorageOp.createDirAll "docs".toList).run (p.supplied [])).2.tree) := by
  have hsized : ∀ a ∈ (runFrom (step noteKernel) (new 4) interrupted).attempts noteKernel
      (.call (.createDirAll "docs".toList) []), a.sizedBy (2 ^ 64) = true := by decide +kernel
  have hcollision : (runFrom (step noteKernel) (runFrom (step noteKernel) (new 4) interrupted)
      [.call (.createDirAll "docs".toList) [], .loss fun _ => 0]).world.NoCollision :=
    World.noCollision_of_clearOf (by decide +kernel)
  have hquiet : ∀ pick, Fate.fault pick ∉ ([] : List Fate) := fun _ hf => (by cases hf)
  have hon : (runFrom (step noteKernel) (new 4) interrupted).power.isOn = true := by decide +kernel
  obtain ⟨p, hpower⟩ := Power.eq_on_of_isOn hon
  obtain ⟨restored, hanswer, hok, -⟩ := storage_survives_power_loss noteKernel (Nat.le_refl 4) (by decide)
    fair_interrupted rfl hpower (fun a ha => Attempt.sized_of_sizedBy (hsized a ha)) hcollision hquiet
  exact ⟨p, hpower, restored, hanswer, fun h => hok h rfl⟩

end Life

/-! ## The shape of what is found -/

theorem mem_of_mem_eligible {tree : FileTree} {log : List Attempt} (h : tree ∈ eligible log) :
    ∃ a ∈ log, a.tree = tree := by
  induction log with
  | nil => cases h
  | cons a log ih =>
    rcases List.mem_cons.mp h with rfl | hrest
    · exact ⟨a, List.mem_cons_self, rfl⟩
    · split at hrest
      · cases hrest
      · obtain ⟨b, hb, htree⟩ := ih hrest
        exact ⟨b, List.mem_cons_of_mem _ hb, htree⟩

/-- What a call hands to `commit` is what it leaves on a machine without a disk. -/
theorem StorageOp.proposal_sound {op : StorageOp} {t t' : FileTree} (h : t.Sound)
    (hc : ∀ q ∈ op.paths, IsCanonical q ∧ q ≠ []) (hproposal : op.proposal t = some t') : t'.Sound := by
  let p : BareMetalPlatform Disk Unit := ⟨t, none, (), 0, 0⟩
  have hsound := run_sound (p := p) h hc
  rw [proposal] at hproposal
  split at hproposal
  · cases hproposal
  · rename_i hidle
    split at hproposal
    · rename_i tree hplan
      cases hproposal
      rw [run_eq_plan (Bool.eq_false_iff.mpr hidle), Op.run_bind, BareMetalPlatform.run_onTree,
        show op.plan p.tree = _ from hplan] at hsound
      exact hsound
    · cases hproposal

namespace Life

variable {η : Type} {l : Life η} {slotBlocks : Nat} [Hardware η] {k : Kernel}

/-- The tree in memory and every tree that was to be saved are hierarchies. The second is what makes the first hold
    again after a loss of power, since what is found is one of these. -/
structure TreesSound (l : Life η) : Prop where
  memory : ∀ p, l.power = .on p → p.tree.Sound
  log : ∀ a ∈ l.log, a.tree.Sound

theorem TreesSound.call (h : l.TreesSound) (hkept : l.Kept slotBlocks) {op : StorageOp} {fates : List Fate}
    (hc : ∀ q ∈ op.paths, IsCanonical q ∧ q ≠ []) : (l.step k (.call op fates)).TreesSound := by
  obtain ⟨power, log⟩ := l
  cases power with
  | off disk => exact h
  | halted disk => exact h
  | on p =>
    have hsound : (p.supplied fates).tree.Sound := h.memory p rfl
    refine ⟨fun q hq => ?_, fun a ha => ?_⟩
    · cases hq
      exact StorageOp.run_sound hsound hc
    · rcases List.mem_append.mp ha with ha | ha
      · change a ∈ saving op (p.supplied fates) at ha
        rw [saving] at ha
        split at ha
        · rename_i tree store hproposal _
          obtain rfl := List.mem_singleton.mp ha
          exact StorageOp.proposal_sound hsound hc hproposal
        · cases ha
      · exact h.log a ha

theorem TreesSound.start (h : l.TreesSound) (hkept : l.Kept slotBlocks) (hblocks : 2 ≤ slotBlocks)
    (hlog : l.log.length < 2 ^ 64 - 1) (hcollision : l.world.NoCollision)
    (hfiles : ∀ f ∈ k.files, IsCanonical f.path ∧ f.path ≠ [])
    (hindep : ∀ f ∈ k.files, ∀ g ∈ k.files, ¬ Below f.path g.path) (hardware : η) (fates : List Fate) :
    (l.step k (.start hardware fates)).TreesSound := by
  obtain ⟨power, log⟩ := l
  cases power with
  | on p => exact h
  | halted disk => exact h
  | off disk =>
    have hstarting := starting k hardware (disk.supplied fates)
    show TreesSound ⟨k.startUp hardware (disk.supplied fates), seeding k (disk.supplied fates) ++ log⟩
    generalize k.startUp hardware (disk.supplied fates) = power at hstarting ⊢
    generalize seeding k (disk.supplied fates) = tried at hstarting ⊢
    cases hstarting with
    | unread => exact ⟨fun p hp => (by cases hp), h.log⟩
    | unseeded => exact ⟨fun p hp => (by cases hp), h.log⟩
    | restored opened nonempty =>
      refine ⟨fun p hp => ?_, h.log⟩
      cases hp
      obtain ⟨a, ha, htree⟩ := mem_of_mem_eligible (hkept.opened hblocks hlog hcollision opened _ rfl)
      exact htree ▸ h.log a ha
    | @seeded store store' found d tree r _ seed _ =>
      have hseeded : tree.Sound :=
        FileTree.seed_sound FileTree.sound_empty hfiles hindep (fun f _ => rfl) seed
      refine ⟨fun p hp => ?_, fun a ha => ?_⟩
      · cases r with
        | ok u =>
          cases hp
          exact hseeded
        | error e => cases hp
      · rcases List.mem_cons.mp ha with rfl | ha
        · exact hseeded
        · exact h.log a ha

/-- The initial files and the paths of the calls are canonical, and no initial file is an ancestor of another.
    However the power and the disk fail, the tree of a machine that is on is a hierarchy. Once a save has returned
    `Ok`, a machine that is off starts, if no fault keeps it from reading its disk, with a tree that was to be
    saved and is a hierarchy, unless that tree is empty: then the initial files are entered, as on a new disk, and
    nothing is said here of how that goes. -/
theorem tree_sound_over_power_cycles {blockCount : Nat} (hblocks : 4 ≤ blockCount)
    (hfiles : ∀ f ∈ k.files, IsCanonical f.path ∧ f.path ≠ [])
    (hindep : ∀ f ∈ k.files, ∀ g ∈ k.files, ¬ Below f.path g.path)
    {events : List (PowerEvent η)} (hcount : events.length < 2 ^ 64 - 1)
    (hfair : Along (step k) (Fair k) (new blockCount) events)
    (hops : ∀ op fates, PowerEvent.call op fates ∈ events → ∀ q ∈ op.paths, IsCanonical q ∧ q ≠ []) :
    let l := runFrom (step k) (new blockCount) events
    (∀ p, l.power = .on p → p.tree.Sound) ∧
      ∀ disk, l.power = .off disk → l.world.NoCollision → (∃ a ∈ l.log, a.returnedOk = true) →
        ∀ (hardware : η) (quiet : List Fate), (∀ pick, Fate.fault pick ∉ quiet) →
          ∃ tree ∈ eligible l.log, tree.Sound ∧ (tree ≠ FileTree.empty →
            ∃ p, BareMetalPlatform.new k.counterFrequency k.files (some (disk.supplied quiet)) hardware = .ok p ∧
              p.tree = tree) := by
  have htwo : 2 ≤ blockCount / 2 := by omega
  have hcalls : Along (step k) (fun _ e => ∀ op fates, e = .call op fates → ∀ q ∈ op.paths, IsCanonical q ∧ q ≠ [])
      (new blockCount) events := by
    refine Along.of_mem (fun e he _ => ?_) _
    rintro op fates rfl
    exact hops op fates he
  obtain ⟨hkept, hlength, htrees⟩ := run_invariant k hblocks TreesSound _
    ⟨fun p hp => (by cases hp), fun a ha => (by cases ha)⟩
    (fun l e hkept hlog hinv hfair hcall => by
      cases e with
      | start hardware fates => exact hinv.start hkept htwo hlog (hfair.2 rfl) hfiles hindep hardware fates
      | call op fates => exact hinv.call hkept (hcall op fates rfl)
      | loss pick => exact ⟨fun p hp => (by cases hp), hinv.log⟩)
    hcount hfair hcalls
  intro l
  refine ⟨htrees.memory, fun disk hoff hcollision hsaved hardware quiet hquiet => ?_⟩
  obtain ⟨active, g, hsound⟩ := hkept.sound
  obtain ⟨restored, hanswer, hsome, hnone⟩ := hsound.answer_eligible htwo
    (Nat.lt_of_le_of_lt hlength hcount) hcollision hquiet
  cases restored with
  | none =>
    obtain ⟨a, ha, hok⟩ := hsaved
    rw [hnone rfl a ha] at hok
    cases hok
  | some tree =>
    have hmem : tree ∈ eligible l.log := hsome tree rfl
    obtain ⟨a, ha, htree⟩ := mem_of_mem_eligible hmem
    refine ⟨tree, hmem, htree ▸ htrees.log a ha, fun hnonempty => ?_⟩
    have hdisk : l.world.disk = disk := by rw [world, hoff]; rfl
    change l.world.answer quiet = _ at hanswer
    rw [World.answer, hdisk] at hanswer
    rcases hopen : SnapshotStore.openDevice (disk.supplied quiet) with ⟨_ | ⟨store, restored⟩, d⟩
    · rw [hopen] at hanswer
      cases hanswer
    · rw [hopen] at hanswer
      cases hanswer
      exact ⟨_, Kernel.startUp_eq_on_iff.mp (Kernel.startUp_of_restored hopen hnonempty), rfl⟩

end Life

theorem Life.tree_sound_over_power_cycles_interrupted :
    ∃ p, (runFrom (Life.step noteKernel) (Life.new 4) interrupted).power = .on p ∧ p.tree.Sound := by
  have hsound : ∀ p, (runFrom (Life.step noteKernel) (Life.new 4) interrupted).power = .on p → p.tree.Sound := by
    refine (Life.tree_sound_over_power_cycles (Nat.le_refl 4) ?_ ?_ (by decide) Life.fair_interrupted ?_).1
    · simp only [noteKernel, List.mem_singleton, forall_eq]
      decide
    · simp only [noteKernel, List.mem_singleton, forall_eq]
      exact fun h => h.ne rfl
    · intro op fates hmem
      simp only [interrupted, List.mem_cons, reduceCtorEq, PowerEvent.call.injEq, false_or, List.not_mem_nil,
        or_false] at hmem
      obtain ⟨rfl, -⟩ := hmem
      decide
  have hon : (runFrom (Life.step noteKernel) (Life.new 4) interrupted).power.isOn = true := by decide +kernel
  obtain ⟨p, hpower⟩ := Power.eq_on_of_isOn hon
  exact ⟨p, hpower, hsound p hpower⟩

end Afos
