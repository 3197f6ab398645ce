import Afos.Lib.Utf8
import Afos.Lib.Triple
import Afos.Proof.Reopen

/-!
# Whatever can be restored can be saved again

The reader takes more than the writer puts down: paths in any order, and one path several times. What
it takes is still written in the same pieces, so every payload that is accepted is the payload of some
*listing*, and the tree it is read as is what the listing collects to. The writer lists the tree once
more, in order and without repetition; nothing in that second listing is not in the first one, which
bounds its length, and the two are the same exactly when the first one was in order already.

On a device this means that a tree that was found there fits there.
-/

set_option autoImplicit false

namespace Afos

open Lib

/-! ## What a reader accepts -/

/-- What the reader takes from its input when it answers `x` is something that is put down for `x`. It is the converse
    of what a round trip says, and needs no assumption on the input. -/
def Consumes {α : Type} (read : Bytes → Reader α) (Written : α → Bytes → Prop) : Prop :=
  ∀ ⦃input cursor x cursor'⦄, read input cursor = (.ok x, cursor') →
    ∃ bytes, Written x bytes ∧ input.drop cursor = bytes ++ input.drop cursor'

theorem consumes_take (n : Nat) :
    Consumes (fun input => take input n) fun x bytes => bytes = x ∧ x.length = n := by
  intro input cursor x cursor' h
  by_cases hroom : cursor + n ≤ input.length
  · cases (if_pos hroom).symm.trans h
    refine ⟨_, ⟨rfl, ?_⟩, ?_⟩
    · rw [List.length_take, List.length_drop]
      omega
    · rw [← List.drop_drop, List.take_append_drop]
  · cases (if_neg hroom).symm.trans h

theorem consumes_takeLe (w : Nat) :
    Consumes (fun input => takeLe input w) fun n bytes => bytes = leBytes w n ∧ n < 256 ^ w := by
  intro input cursor n cursor' h
  rcases Op.map_cases h with ⟨e, -, he⟩ | ⟨taken, htake, hn⟩
  · cases he
  · obtain ⟨bytes, ⟨rfl, hlen⟩, hdrop⟩ := consumes_take w htake
    cases hn
    subst hlen
    exact ⟨bytes, ⟨(leBytes_leValue bytes).symm, leValue_lt bytes⟩, hdrop⟩

theorem consumes_readCount : Consumes readCount fun n bytes => writeCount n = .ok bytes := by
  intro input cursor n cursor' h
  obtain ⟨count, c₁, hcount, h⟩ := Op.bind_ok h
  obtain ⟨bytes, ⟨rfl, -⟩, hdrop⟩ := consumes_takeLe 4 hcount
  split at h
  · cases h
  · rename_i hfew
    cases h
    exact ⟨_, if_neg hfew, hdrop⟩

/-- A string that was read is written as the bytes that were read: its length is below the limit, and its text is
    UTF-8. -/
theorem consumes_readString : Consumes readString fun s bytes => writeString s = .ok bytes := by
  intro input cursor s cursor' h
  obtain ⟨length, c₁, hlength, h⟩ := Op.bind_ok h
  obtain ⟨bytes₁, ⟨rfl, -⟩, hdrop₁⟩ := consumes_takeLe 4 hlength
  split at h
  · -- the length that was read is the one that is written in front of the text
    cases h
  rename_i hshort
  obtain ⟨text, c₂, htext, h⟩ := Op.bind_ok h
  cases hvalue : fromUtf8 text with
  | none =>
    rw [hvalue] at h
    cases h
  | some value =>
    rw [hvalue] at h
    cases h
    obtain ⟨bytes₂, ⟨rfl, rfl⟩, hdrop₂⟩ := consumes_take length htext
    obtain rfl := asBytes_of_fromUtf8 hvalue
    exact ⟨_, if_neg hshort, by rw [hdrop₁, hdrop₂, List.append_assoc]⟩

theorem writeFile_ok {file : Str × Bytes} {path : Bytes} (hpath : writeString file.1 = .ok path)
    (hsized : file.2.length < 2 ^ 64) :
    writeFile file = .ok (path ++ leBytes 8 file.2.length ++ file.2) := by
  rw [writeFile, hpath]
  exact if_neg (not_le.mpr hsized)

theorem consumes_readFile : Consumes readFile fun file bytes => writeFile file = .ok bytes := by
  intro input cursor file cursor' h
  obtain ⟨path, c₁, hpath, h⟩ := Op.bind_ok h
  obtain ⟨length, c₂, hlength, h⟩ := Op.bind_ok h
  obtain ⟨data, c₃, hdata, h⟩ := Op.bind_ok h
  cases h
  obtain ⟨bytes₁, hwritten, hdrop₁⟩ := consumes_readString hpath
  obtain ⟨bytes₂, ⟨rfl, hlt⟩, hdrop₂⟩ := consumes_takeLe 8 hlength
  obtain ⟨data, ⟨rfl, rfl⟩, hdrop₃⟩ := consumes_take length hdata
  have hsized : data.length < 2 ^ 64 := lt_of_lt_of_eq hlt (by decide)
  have hfile : writeFile (path, data) = .ok (bytes₁ ++ leBytes 8 data.length ++ data) :=
    writeFile_ok hwritten hsized
  refine ⟨_, hfile, ?_⟩
  rw [hdrop₁, hdrop₂, hdrop₃, List.append_assoc, List.append_assoc]

/-- What was gathered is what some items that are written one after the other gather to. -/
theorem consumes_readInto {α β : Type} {write : α → Except StorageError Bytes}
    {read : Bytes → Reader α} (hitem : Consumes read fun x bytes => write x = .ok bytes)
    (add : β → α → β) (n : Nat) (acc : β) :
    Consumes (fun input => readInto (read input) add n acc) fun y bytes =>
      ∃ xs : List α, xs.length = n ∧ writeAll write xs = .ok bytes ∧ y = xs.foldl add acc := by
  -- by the number of items; what the first one took is in front of what the others took
  induction n generalizing acc with
  | zero =>
    intro input cursor y cursor' h
    cases h
    exact ⟨[], ⟨[], rfl, rfl, rfl⟩, rfl⟩
  | succ n ih =>
    intro input cursor y cursor' h
    obtain ⟨x, c₁, hx, h⟩ := Op.bind_ok h
    obtain ⟨first, hfirst, hdrop₁⟩ := hitem hx
    obtain ⟨rest, ⟨xs, rfl, hrest, rfl⟩, hdrop₂⟩ := ih (add acc x) h
    refine ⟨first ++ rest, ⟨x :: xs, rfl, ?_, rfl⟩, by rw [hdrop₁, hdrop₂, List.append_assoc]⟩
    rw [writeAll, hfirst, hrest]
    rfl

/-- A tree that was read is the tree of a listing that is written as the bytes that were read. -/
theorem consumes_readTree :
    Consumes readTree fun tree bytes => ∃ l : Listing, l.payload = .ok bytes ∧ tree = l.tree := by
  intro input cursor tree cursor' h
  -- the four parts, in the order in which they are read
  obtain ⟨directoryCount, c₁, h₁, h⟩ := Op.bind_ok h
  obtain ⟨directories, c₂, h₂, h⟩ := Op.bind_ok h
  obtain ⟨fileCount, c₃, h₃, h⟩ := Op.bind_ok h
  obtain ⟨files, c₄, h₄, h⟩ := Op.bind_ok h
  cases h
  obtain ⟨bytes₁, hw₁, hdrop₁⟩ := consumes_readCount h₁
  obtain ⟨bytes₂, ⟨paths, rfl, hw₂, rfl⟩, hdrop₂⟩ := consumes_readInto consumes_readString _ _ _ h₂
  obtain ⟨bytes₃, hw₃, hdrop₃⟩ := consumes_readCount h₃
  obtain ⟨bytes₄, ⟨items, rfl, hw₄, rfl⟩, hdrop₄⟩ := consumes_readInto consumes_readFile _ _ _ h₄
  refine ⟨bytes₁ ++ bytes₂ ++ bytes₃ ++ bytes₄, ⟨⟨paths, items⟩, ?_, rfl⟩, ?_⟩
  · rw [Listing.payload, hw₁, hw₂, hw₃, hw₄]
    rfl
  · rw [hdrop₁, hdrop₂, hdrop₃, hdrop₄, List.append_assoc, List.append_assoc, List.append_assoc]

/-- The payloads that are accepted are those of the listings. The reader checks no order and no repetition, so this is
    as far as it goes. -/
theorem decodeTree_ok_iff {payload : Bytes} {tree : FileTree} :
    decodeTree payload = .ok tree ↔ ∃ l : Listing, l.payload = .ok payload ∧ tree = l.tree := by
  constructor
  · intro h
    rw [decodeTree] at h
    cases hread : readTree payload 0 with
    | mk r cursor =>
      rw [hread] at h
      cases r with
      | error e => cases h
      | ok found =>
        -- a payload with something behind the tree is not accepted
        by_cases hend : cursor = payload.length
        · obtain ⟨bytes, ⟨l, hl, rfl⟩, hdrop⟩ := consumes_readTree hread
          obtain rfl : l.tree = tree := Except.ok.inj ((if_neg (not_not.mpr hend)).symm.trans h)
          rw [List.drop_zero, hend, List.drop_length, List.append_nil] at hdrop
          exact ⟨l, hdrop ▸ hl, rfl⟩
        · exact absurd ((if_pos hend).symm.trans h) (by simp)
  · rintro ⟨l, hl, rfl⟩
    exact l.decodeTree_of_payload hl

/-! ## What a payload lists -/

/-- `readTree`, keeping everything that is read, in the order in which it is read. -/
def readListing (payload : Bytes) : Reader Listing := do
  let directoryCount ← readCount payload
  let directories ← readInto (readString payload) (fun paths path => paths ++ [path])
    directoryCount []
  let fileCount ← readCount payload
  let files ← readInto (readFile payload) (fun files file => files ++ [file]) fileCount []
  pure ⟨directories, files⟩

/-- The directory paths and the files that a payload lists, in the order of the bytes and with what is repeated. -/
def listing (payload : Bytes) : Except StorageError Listing := (readListing payload 0).1

theorem foldl_snoc {α : Type} (xs acc : List α) :
    xs.foldl (fun ys x => ys ++ [x]) acc = acc ++ xs := by
  induction xs generalizing acc with
  | nil => exact (List.append_nil acc).symm
  | cons x xs ih => rw [List.foldl_cons, ih, List.append_assoc, List.singleton_append]

namespace Listing

variable {l : Listing} {payload : Bytes}

theorem listing_of_payload (h : l.payload = .ok payload) : listing payload = .ok l := by
  obtain ⟨directoryCount, directories, fileCount, files, h₁, h₂, h₃, h₄, rfl⟩ := l.payload_ok h
  have hdirectories := reads_readInto (fun paths path => paths ++ [path])
    (fun _ _ => reads_readString) h₂ []
  have hfiles := reads_readInto (fun files file => files ++ [file]) (fun _ _ => reads_readFile) h₄ []
  rw [foldl_snoc, List.nil_append] at hdirectories hfiles
  have hread : Reads readListing (directoryCount ++ (directories ++ (fileCount ++ files))) l :=
    (reads_readCount h₁).bind (hdirectories.bind ((reads_readCount h₃).bind
      (hfiles.then_pure fun _ => rfl)))
  have hfront := hread [] []
  simp only [List.nil_append, List.append_nil] at hfront
  rw [listing, List.append_assoc, List.append_assoc]
  exact congrArg Prod.fst hfront

/-- Directory paths and file paths each stand in ascending order of their bytes. -/
structure Ascending (l : Listing) : Prop where
  directories : (l.directories.map asBytes).Pairwise (· < ·)
  files : (l.files.map fun file => asBytes file.1).Pairwise (· < ·)

theorem ascending_iff : l.Ascending ↔
    l.directories.Pairwise (· < ·) ∧ l.files.Pairwise (fun a b => a.1 < b.1) := by
  have hpaths : (l.directories.map asBytes).Pairwise (· < ·) ↔ l.directories.Pairwise (· < ·) :=
    List.pairwise_map.trans (List.Pairwise.iff fun _ _ => asBytes_lt_iff)
  have hfiles : (l.files.map fun file => asBytes file.1).Pairwise (· < ·) ↔
      l.files.Pairwise (fun a b => a.1 < b.1) :=
    List.pairwise_map.trans (List.Pairwise.iff fun _ _ => asBytes_lt_iff)
  rw [← hpaths, ← hfiles]
  exact ⟨fun h => ⟨h.1, h.2⟩, fun h => ⟨h.1, h.2⟩⟩

/-- Listing once more what was collected changes nothing exactly when the order was right. -/
theorem listed_tree_iff : l.tree.listed = l ↔ l.Ascending := by
  rw [ascending_iff]
  constructor
  · intro h
    rw [← h]
    exact ⟨l.tree.directories.ascending_keys, l.tree.files.ascending⟩
  · rintro ⟨hpaths, hfiles⟩
    have hkeys : l.tree.directories.keys = l.directories := OrdMap.keys_foldl_insert hpaths
    have hentries : l.tree.files.entries = l.files :=
      OrdMap.entries_foldl_insert OrdMap.empty hfiles
    rw [FileTree.listed, hkeys, hentries]

end Listing

/-! ## The second payload -/

/-- The room an item takes: the number of bytes it is written in. An item that cannot be written takes none. -/
def written {α : Type} (write : α → Except StorageError Bytes) (x : α) : Nat :=
  ((write x).toOption.getD []).length

theorem length_writeAll {α : Type} {write : α → Except StorageError Bytes} {xs : List α} {bytes : Bytes}
    (h : writeAll write xs = .ok bytes) : bytes.length = (xs.map (written write)).sum := by
  induction xs generalizing bytes with
  | nil =>
    cases h
    rfl
  | cons x xs ih =>
    obtain ⟨first, rest, hx, hrest, rfl⟩ := writeAll_cons_ok h
    rw [List.length_append, ih hrest, List.map_cons, List.sum_cons, written, hx]
    rfl

/-- Some of the items can be written if all can, and they do not take more room. -/
theorem writeAll_of_subperm {α : Type} {write : α → Except StorageError Bytes} {xs ys : List α}
    {bytes : Bytes} (hsub : ys.Subperm xs) (h : writeAll write xs = .ok bytes) :
    ∃ fewer, writeAll write ys = .ok fewer ∧ fewer.length ≤ bytes.length := by
  have hall := writeAll_succeeds_iff.mp ⟨bytes, h⟩
  obtain ⟨fewer, hfewer⟩ := writeAll_succeeds_iff.mpr fun y hy => hall y (hsub.subset hy)
  refine ⟨fewer, hfewer, ?_⟩
  obtain ⟨some, hperm, hsublist⟩ := hsub
  rw [length_writeAll h, length_writeAll hfewer, ← (hperm.map (written write)).sum_eq]
  exact (hsublist.map (written write)).sum_le_sum fun _ _ => Nat.zero_le _

/-- A count up to another one can be written if that one can, and takes the same room. -/
theorem writeCount_of_le {m n : Nat} {bytes : Bytes} (hle : m ≤ n) (h : writeCount n = .ok bytes) :
    ∃ fewer, writeCount m = .ok fewer ∧ fewer.length = bytes.length := by
  have hn : n ≤ maxEntryCount := writeCount_succeeds_iff.mp ⟨bytes, h⟩
  rw [writeCount, if_neg (not_lt.mpr hn)] at h
  cases h
  refine ⟨leBytes 4 m, if_neg (not_lt.mpr (hle.trans hn)), ?_⟩
  rw [length_leBytes, length_leBytes]

/-- The tree of a listing that was written can be written, and does not take more room. Collecting it drops what was
    there twice and sorts the rest. -/
theorem Listing.encodeTree_of_payload {l : Listing} {payload : Bytes} (h : l.payload = .ok payload) :
    ∃ shorter, encodeTree l.tree = .ok shorter ∧ shorter.length ≤ payload.length := by
  obtain ⟨b₁, b₂, b₃, b₄, h₁, h₂, h₃, h₄, rfl⟩ := l.payload_ok h
  have hdirectories : l.tree.directories.keys.Subperm l.directories :=
    OrdMap.subperm_keys_foldl_insert l.directories
  have hfiles : l.tree.files.entries.Subperm l.files := OrdMap.subperm_foldl_insert l.files
  obtain ⟨c₁, hc₁, hlen₁⟩ := writeCount_of_le hdirectories.length_le h₁
  obtain ⟨c₂, hc₂, hlen₂⟩ := writeAll_of_subperm hdirectories h₂
  obtain ⟨c₃, hc₃, hlen₃⟩ := writeCount_of_le hfiles.length_le h₃
  obtain ⟨c₄, hc₄, hlen₄⟩ := writeAll_of_subperm hfiles h₄
  refine ⟨c₁ ++ c₂ ++ c₃ ++ c₄, ?_, ?_⟩
  · rw [encodeTree, hc₁, hc₂, hc₃, hc₄]
    rfl
  · simp only [List.length_append]
    omega

/-- The second payload is the first one exactly when the first one was in order. -/
theorem Listing.encodeTree_eq_payload_iff {l : Listing} {payload again : Bytes}
    (h : l.payload = .ok payload) (hagain : encodeTree l.tree = .ok again) :
    again = payload ↔ l.Ascending := by
  rw [← listed_tree_iff]
  constructor
  · rintro rfl
    have hlisting := listing_of_payload (l := l.tree.listed) hagain
    exact Except.ok.inj (hlisting.symm.trans (listing_of_payload h))
  · intro hlisted
    rw [← payload_listed, hlisted] at hagain
    exact Except.ok.inj (hagain.symm.trans h)

/-! ## On a device -/

theorem blocksFor_mono {m n : Nat} (h : m ≤ n) : blocksFor m ≤ blocksFor n :=
  Nat.div_le_div_right (by omega)

section Device

variable {D : Type} [BlockDevice D]

/-- The payload behind a snapshot that was read fits into its slot, since a longer one would have been skipped. -/
theorem payload_of_readSlot {slot : Fin 2} {slotBlocks : Nat} {device device' : D}
    {snapshot : DecodedSnapshot}
    (h : readSlot slot slotBlocks device = (.ok (some snapshot), device')) :
    ∃ payload, decodeTree payload = .ok snapshot.tree ∧ blocksFor payload.length ≤ slotBlocks - 1 := by
  obtain ⟨header, d₁, -, hpayload⟩ := Op.bind_ok h
  obtain ⟨-, hfit, image, hdecode⟩ := readPayload_some hpayload
  exact ⟨_, hdecode, (blocksFor_mono (List.length_take_le _ _)).trans hfit⟩

/-- A tree that `open` returns was read from one of the slots, whichever of them it was. -/
theorem SnapshotStore.slot_of_openDevice {device device' : D} {store : SnapshotStore D}
    {tree : FileTree} (h : openDevice device = (.ok (store, some tree), device')) :
    ∃ (slot : Fin 2) (before after : D) (generation : Nat),
      readSlot slot store.slotBlocks before = (.ok (some ⟨generation, tree⟩), after) := by
  rw [openDevice, Op.run_bind_ok (Op.run_read _)] at h
  dsimp only at h
  split at h
  · cases h
  obtain ⟨first, d₁, hfirst, h⟩ := Op.bind_ok h
  obtain ⟨second, d₂, hsecond, h⟩ := Op.bind_ok h
  rw [Op.run_bind_ok (Op.run_read _)] at h
  obtain ⟨hstore, htree⟩ := Prod.mk.inj (Except.ok.inj (congrArg Prod.fst h))
  obtain ⟨⟨slot, snapshot⟩, hselected, rfl⟩ := Option.map_eq_some_iff.mp htree
  -- the tree is the one of the slot that was selected, and that slot was read
  let reading : Fin 2 → Option DecodedSnapshot := fun slot => if slot = 0 then first else second
  have hfound : reading slot = some snapshot := reading_of_selectSlot hselected
  rw [← hstore]
  dsimp only [reading] at hfound
  split at hfound
  · exact ⟨0, device, d₁, snapshot.generation, by rw [hfirst, hfound]⟩
  · exact ⟨1, d₁, d₂, snapshot.generation, by rw [hsecond, hfound]⟩

end Device

/-- Whatever it fails with, it is not that a snapshot is too large. A save finds that out before it writes, from the
    payload and the size of a slot. -/
def NotTooLarge {α : Type} (x : Op StorageError Disk α) : Prop :=
  Op.Triple (fun _ => True) x (fun _ _ => True) fun e _ => e ≠ .snapshotTooLarge

namespace NotTooLarge

variable {α : Type} {started finished : Volatile Nat Block → Volatile Nat Block}
  {answer : Volatile Nat Block → α}

theorem call : NotTooLarge (Disk.call started finished answer) := by
  refine .of_cases (fun _ _ => trivial) fun _ h => ?_
  rcases Disk.call_cases h with ⟨pick, rest, -, he, -⟩ | ⟨hok, -⟩
  · cases he
    exact fun h => (by cases h)
  · cases hok

theorem callAt {x : Op StorageError Disk α} (hx : NotTooLarge x) (first len : Nat) :
    NotTooLarge (Disk.callAt first len x) := by
  intro d hd
  cases hrange : d.inRange first len with
  | false =>
    rw [Disk.callAt, hrange]
    exact fun h => (by cases h)
  | true =>
    rw [Disk.callAt, hrange]
    exact hx d hd

theorem writeSnapshot (start generation : Nat) (payload : Bytes) :
    NotTooLarge (SnapshotStore.writeSnapshot start generation payload) := by
  have hwrite : ∀ first data, NotTooLarge (BlockDevice.writeBlocks first data) :=
    fun first data => call.callAt first data.length
  have hflush : NotTooLarge BlockDevice.flush := call
  rw [NotTooLarge, SnapshotStore.writeSnapshot_eq]
  generalize encodeHeader generation payload.length (checksum payload).toNat = header
  refine Op.Triple.bind (Op.Triple.ite (fun _ => ?_) fun _ => hwrite _ (padded payload)) fun _ => ?_
  · exact Op.Triple.pure fun _ _ => trivial
  · exact Op.Triple.bind hflush fun _ => Op.Triple.bind (hwrite start header) fun _ => hflush

end NotTooLarge

/-- A tree whose payload fits into a slot is not refused for its size. The device may still fail. -/
theorem SnapshotStore.save_ne_tooLarge {store : SnapshotStore Disk} {tree : FileTree} {payload : Bytes}
    (hencode : encodeTree tree = .ok payload) (hfit : blocksFor payload.length ≤ store.slotBlocks - 1) :
    (save tree store).1 ≠ .error .snapshotTooLarge := by
  intro h
  cases hrun : save tree store with
  | mk r store' =>
    rw [hrun] at h
    cases h
    rw [save, hencode, Op.run_bind_ok (Op.run_ofExcept _ store), Op.run_bind_ok (Op.run_read store),
      if_neg (not_lt.mpr hfit)] at hrun
    rcases Op.bind_cases hrun with ⟨e, he, htoo⟩ | ⟨⟨⟩, s₁, -, hmodify⟩
    · obtain ⟨d', hd', -⟩ := Op.zoom_eq he
      exact (NotTooLarge.writeSnapshot _ _ payload).error trivial hd' (Except.error.inj htoo).symm
    · cases hmodify

/-- **What was restored can be saved.** Every payload that is accepted can be written again from the
    tree it was read as, in no more room, and comes out the same exactly when its paths stood in
    ascending order; and a tree that was found on a device is not too large for it. -/
theorem FileTree.restored_can_be_saved :
    (∀ payload tree, decodeTree payload = .ok tree → ∃ again l,
      encodeTree tree = .ok again ∧ again.length ≤ payload.length ∧ decodeTree again = .ok tree ∧
      listing payload = .ok l ∧ (again = payload ↔ l.Ascending)) ∧
    ∀ (d d' : Disk) store tree,
      SnapshotStore.openDevice d = (.ok (store, some tree), d') → ∀ fates,
      (SnapshotStore.save tree (store.supplied fates)).1 ≠ .error .snapshotTooLarge := by
  constructor
  · intro payload tree h
    obtain ⟨l, hl, rfl⟩ := decodeTree_ok_iff.mp h
    obtain ⟨again, hagain, hlen⟩ := l.encodeTree_of_payload hl
    exact ⟨again, l, hagain, hlen, decodeTree_of_encodeTree hagain, l.listing_of_payload hl,
      l.encodeTree_eq_payload_iff hl hagain⟩
  · intro d d' store tree h fates
    obtain ⟨slot, before, after, generation, hread⟩ := SnapshotStore.slot_of_openDevice h
    obtain ⟨payload, hdecode, hfit⟩ := payload_of_readSlot hread
    obtain ⟨l, hl, hl'⟩ := decodeTree_ok_iff.mp hdecode
    obtain ⟨again, hagain, hlen⟩ := l.encodeTree_of_payload hl
    rw [← hl'] at hagain
    exact SnapshotStore.save_ne_tooLarge hagain ((blocksFor_mono hlen).trans hfit)

/-- Three directory paths, out of order and one of them twice, and two files of one name. -/
def repetitive : Bytes :=
  [3, 0, 0, 0, 1, 0, 0, 0, 98, 1, 0, 0, 0, 97, 1, 0, 0, 0, 97,
   2, 0, 0, 0, 1, 0, 0, 0, 102, 1, 0, 0, 0, 0, 0, 0, 0, 33, 1, 0, 0, 0, 102, 0, 0, 0, 0, 0, 0, 0, 0]

theorem FileTree.repetitive_can_be_saved :
    (∃ tree again l, decodeTree repetitive = .ok tree ∧ encodeTree tree = .ok again ∧
      again.length ≤ repetitive.length ∧ decodeTree again = .ok tree ∧ listing repetitive = .ok l ∧
      (again = repetitive ↔ l.Ascending)) ∧
    ∃ store d', SnapshotStore.openDevice (SnapshotStore.heldAt 5 (directoryTree 'a')) =
        (.ok (store, some (directoryTree 'a')), d') ∧
      (SnapshotStore.save (directoryTree 'a') (store.supplied [])).1 ≠ .error .snapshotTooLarge := by
  constructor
  · -- the first half: the payload lists `a` twice and out of order, and is saved again all the same
    obtain ⟨tree, htree, -⟩ := exists_ok_of_all (x := decodeTree repetitive) (p := fun _ => true)
      (by decide +kernel)
    obtain ⟨again, l, h⟩ := FileTree.restored_can_be_saved.1 repetitive tree htree
    exact ⟨tree, again, l, htree, h⟩
  · -- the second half: a tree that a device held before
    obtain ⟨⟨store, tree?⟩, hopen, htree⟩ := exists_ok_of_all
      (x := (SnapshotStore.openDevice (SnapshotStore.heldAt 5 (directoryTree 'a'))).1)
      (p := fun r => decide (r.2 = some (directoryTree 'a'))) (by decide +kernel)
    obtain rfl : tree? = some (directoryTree 'a') := of_decide_eq_true htree
    cases hrun : SnapshotStore.openDevice (SnapshotStore.heldAt 5 (directoryTree 'a')) with
    | mk r d' =>
      rw [hrun] at hopen
      cases hopen
      exact ⟨store, d', rfl, FileTree.restored_can_be_saved.2 _ d' store _ hrun []⟩

end Afos
