import Afos.Storage

/-!
# What a payload says

The reader gets back what the writer was given. A reader `Reads` some bytes as a value when,
with its cursor at the front of them and whatever may lie before and after, it answers the
value and leaves the cursor behind them. Bytes that are read one after the other are appended,
so the round trip of a tree is the round trips of its parts, in the order in which the writer
put them down.
-/

set_option autoImplicit false

namespace Afos

open Lib

/-- From the front of `bytes`, the reader answers `x` and stops at their end. What lies before and after is arbitrary,
    as a part of a payload is read in the middle of it. -/
def Reads {α : Type} (read : Bytes → Reader α) (bytes : Bytes) (x : α) : Prop :=
  ∀ before after, read (before ++ (bytes ++ after)) before.length =
    (.ok x, before.length + bytes.length)

namespace Reads

variable {α β : Type}

theorem nothing (x : α) : Reads (fun _ => pure x) [] x := fun _ _ => rfl

/-- Reading one thing and then another is reading the bytes of both, one behind the other. -/
theorem bind {read : Bytes → Reader α} {next : Bytes → α → Reader β} {b₁ b₂ : Bytes} {x : α} {y : β}
    (h₁ : Reads read b₁ x) (h₂ : Reads (fun input => next input x) b₂ y) :
    Reads (fun input => read input >>= next input) (b₁ ++ b₂) y := by
  intro before after
  have hnext := h₂ (before ++ b₁) after
  rw [List.append_assoc, List.length_append] at hnext
  rw [List.append_assoc]
  refine (Op.run_bind_ok (h₁ before (b₂ ++ after)) _).trans (hnext.trans ?_)
  rw [List.length_append, Nat.add_assoc]

/-- A last step that reads nothing, as the step that puts the fields of an item together. Without it the end of every
    reader would need its own argument about the cursor. -/
theorem then_pure {read : Bytes → Reader α} {next : Bytes → α → Reader β} {b : Bytes} {x : α} {y : β}
    (h₁ : Reads read b x) (h₂ : ∀ input, next input x = pure y) :
    Reads (fun input => read input >>= next input) b y := by
  have hnext : Reads (fun input => next input x) [] y := by
    rw [funext h₂]
    exact nothing y
  have h := h₁.bind hnext
  rwa [List.append_nil] at h

end Reads

/-! ## Numbers, strings and files -/

theorem reads_take (bytes : Bytes) : Reads (fun input => take input bytes.length) bytes bytes := by
  intro before after
  have hroom : before.length + bytes.length ≤ (before ++ (bytes ++ after)).length := by
    simp only [List.length_append]
    omega
  refine (if_pos hroom).trans ?_
  rw [List.drop_left, List.take_left]

theorem reads_takeLe {w n : Nat} (h : n < 256 ^ w) :
    Reads (fun input => takeLe input w) (leBytes w n) n := by
  intro before after
  have htake := reads_take (leBytes w n) before after
  simp only [length_leBytes] at htake ⊢
  rw [takeLe, Op.run_map, htake]
  simp only [leValue_leBytes h]

theorem reads_readCount {n : Nat} {bytes : Bytes} (h : writeCount n = .ok bytes) :
    Reads readCount bytes n := by
  by_cases hn : maxEntryCount < n
  · rw [writeCount, if_pos hn] at h
    cases h
  · rw [writeCount, if_neg hn] at h
    cases h
    have hsmall : n < 256 ^ 4 := lt_of_le_of_lt (not_lt.mp hn) (by decide)
    exact (reads_takeLe hsmall).then_pure fun _ => if_neg hn

theorem reads_readString {value : Str} {bytes : Bytes} (h : writeString value = .ok bytes) :
    Reads readString bytes value := by
  by_cases hlen : maxPathLen < (asBytes value).length
  · rw [writeString, if_pos hlen] at h
    cases h
  · rw [writeString, if_neg hlen] at h
    cases h
    have hsmall : (asBytes value).length < 256 ^ 4 := lt_of_le_of_lt (not_lt.mp hlen) (by decide)
    refine (reads_takeLe hsmall).bind ?_
    simp only [if_neg hlen]
    exact (reads_take (asBytes value)).then_pure fun _ => by rw [fromUtf8_asBytes]

/-- The parts of a written file: path, length and contents, with the one bound that makes the length fit its eight
    bytes. -/
theorem writeFile_parts {file : Str × Bytes} {bytes : Bytes} (h : writeFile file = .ok bytes) :
    ∃ path, writeString file.1 = .ok path ∧ file.2.length < 2 ^ 64 ∧
      bytes = path ++ leBytes 8 file.2.length ++ file.2 := by
  obtain ⟨path, hpath, h⟩ := Op.except_bind_ok h
  by_cases hlen : 2 ^ 64 ≤ file.2.length
  · rw [if_pos hlen] at h
    cases h
  · rw [if_neg hlen] at h
    exact ⟨path, hpath, not_le.mp hlen, (Except.ok.inj h).symm⟩

theorem reads_readFile {file : Str × Bytes} {bytes : Bytes} (h : writeFile file = .ok bytes) :
    Reads readFile bytes file := by
  obtain ⟨path, hpath, hlen, rfl⟩ := writeFile_parts h
  have hsmall : file.2.length < 256 ^ 8 := by
    have h64 : (256 : Nat) ^ 8 = 2 ^ 64 := by decide
    omega
  rw [List.append_assoc]
  exact (reads_readString hpath).bind ((reads_takeLe hsmall).bind
    ((reads_take file.2).then_pure fun _ => rfl))

/-! ## Lists and trees -/

theorem writeAll_cons_ok {α : Type} {write : α → Except StorageError Bytes} {x : α} {xs : List α}
    {bytes : Bytes} (h : writeAll write (x :: xs) = .ok bytes) :
    ∃ first rest, write x = .ok first ∧ writeAll write xs = .ok rest ∧ bytes = first ++ rest := by
  obtain ⟨first, hx, h⟩ := Op.except_bind_ok h
  obtain ⟨rest, hrest, h⟩ := Op.except_bind_ok h
  exact ⟨first, rest, hx, hrest, (Except.ok.inj h).symm⟩

/-- The items come back in their order, each put into what was gathered before it. The number of items is read before
    them, and is their length here. -/
theorem reads_readInto {α β : Type} {write : α → Except StorageError Bytes}
    {read : Bytes → Reader α} (add : β → α → β)
    (hitem : ∀ x bytes, write x = .ok bytes → Reads read bytes x) {xs : List α} {bytes : Bytes}
    (h : writeAll write xs = .ok bytes) (acc : β) :
    Reads (fun input => readInto (read input) add xs.length acc) bytes (xs.foldl add acc) := by
  induction xs generalizing bytes acc with
  | nil =>
    cases h
    exact Reads.nothing acc
  | cons x xs ih =>
    obtain ⟨first, rest, hx, hrest, rfl⟩ := writeAll_cons_ok h
    exact (hitem x first hx).bind (ih hrest (add acc x))

/-- The paths and files of a payload, in the order in which they stand there. A payload need not be written from a
    tree, so the order and repetitions are kept. -/
structure Listing where
  directories : List Str
  files : List (Str × Bytes)
  deriving DecidableEq

namespace Listing

/-- What is written for a listing. `encodeTree` writes the listing of a tree; any other listing stands for bytes that
    no tree is written as, and that are read all the same. -/
def payload (l : Listing) : Except StorageError Bytes := do
  let directoryCount ← writeCount l.directories.length
  let directories ← writeAll writeString l.directories
  let fileCount ← writeCount l.files.length
  let files ← writeAll writeFile l.files
  .ok (directoryCount ++ directories ++ fileCount ++ files)

/-- What is collected from a listing; of two entries for one path the later one stays. -/
def tree (l : Listing) : FileTree where
  files := l.files.foldl (fun map file => map.insert file.1 file.2) OrdMap.empty
  directories := l.directories.foldl (fun set path => set.insert path ()) OrdMap.empty

end Listing

/-- A tree as it is listed by the writer: in ascending order of the paths, directories and files apart. -/
def FileTree.listed (tree : FileTree) : Listing := ⟨tree.directories.keys, tree.files.entries⟩

theorem payload_listed (tree : FileTree) : tree.listed.payload = encodeTree tree := rfl

theorem tree_listed (tree : FileTree) : tree.listed.tree = tree := by
  rw [Listing.tree, FileTree.listed, OrdMap.foldl_insert_keys, OrdMap.foldl_insert_entries]

/-- The four parts of a payload. A payload that can be written at all has every part written, since the first failure
    would have been the result. -/
theorem Listing.payload_ok {l : Listing} {payload : Bytes} (h : l.payload = .ok payload) :
    ∃ directoryCount directories fileCount files,
      writeCount l.directories.length = .ok directoryCount ∧
      writeAll writeString l.directories = .ok directories ∧
      writeCount l.files.length = .ok fileCount ∧
      writeAll writeFile l.files = .ok files ∧
      payload = directoryCount ++ directories ++ fileCount ++ files := by
  obtain ⟨directoryCount, h₁, h⟩ := Op.except_bind_ok h
  obtain ⟨directories, h₂, h⟩ := Op.except_bind_ok h
  obtain ⟨fileCount, h₃, h⟩ := Op.except_bind_ok h
  obtain ⟨files, h₄, h⟩ := Op.except_bind_ok h
  exact ⟨directoryCount, directories, fileCount, files, h₁, h₂, h₃, h₄, (Except.ok.inj h).symm⟩

/-- The round trip, for listings and so for trees. It is stated with bytes behind the payload, as `Reads` is, so it
    says nothing yet about where a payload has to end. -/
theorem reads_readTree {l : Listing} {payload : Bytes} (h : l.payload = .ok payload) :
    Reads readTree payload l.tree := by
  obtain ⟨directoryCount, directories, fileCount, files, h₁, h₂, h₃, h₄, rfl⟩ := l.payload_ok h
  have hdirectories := reads_readInto (fun (set : OrdSet Str) path => set.insert path ())
    (fun _ _ => reads_readString) h₂ OrdMap.empty
  have hfiles := reads_readInto (fun (map : OrdMap Str Bytes) file => map.insert file.1 file.2)
    (fun _ _ => reads_readFile) h₄ OrdMap.empty
  rw [List.append_assoc, List.append_assoc]
  exact (reads_readCount h₁).bind (hdirectories.bind ((reads_readCount h₃).bind
    (hfiles.then_pure fun _ => rfl)))

theorem Listing.decodeTree_of_payload {l : Listing} {payload : Bytes} (h : l.payload = .ok payload) :
    decodeTree payload = .ok l.tree := by
  have hread := reads_readTree h [] []
  simp only [List.nil_append, List.append_nil, List.length_nil, Nat.zero_add] at hread
  rw [decodeTree, hread]
  exact if_neg (not_not.mpr rfl)

theorem decodeTree_of_encodeTree {tree : FileTree} {payload : Bytes}
    (h : encodeTree tree = .ok payload) : decodeTree payload = .ok tree := by
  rw [Listing.decodeTree_of_payload (l := tree.listed) h, tree_listed]

/-! ## What can be written

A writer refuses on size alone, so a tree can be written exactly when its counts and its paths
are within the limits. That the length of a file is a 64-bit number is not a limit: a slice has
no other lengths. -/

/-- A count is written exactly if it is within the limit, which is the same limit that the reader tests. -/
theorem writeCount_succeeds_iff {n : Nat} :
    (∃ bytes, writeCount n = .ok bytes) ↔ n ≤ maxEntryCount := by
  by_cases hn : maxEntryCount < n
  · rw [writeCount, if_pos hn]
    exact ⟨fun ⟨_, h⟩ => (by cases h), fun h => absurd hn (not_lt.mpr h)⟩
  · rw [writeCount, if_neg hn]
    exact ⟨fun _ => not_lt.mp hn, fun _ => ⟨_, rfl⟩⟩

theorem writeString_succeeds_iff {value : Str} :
    (∃ bytes, writeString value = .ok bytes) ↔ (asBytes value).length ≤ maxPathLen := by
  by_cases hlen : maxPathLen < (asBytes value).length
  · rw [writeString, if_pos hlen]
    exact ⟨fun ⟨_, h⟩ => (by cases h), fun h => absurd hlen (not_lt.mpr h)⟩
  · rw [writeString, if_neg hlen]
    exact ⟨fun _ => not_lt.mp hlen, fun _ => ⟨_, rfl⟩⟩

theorem writeFile_succeeds_iff {file : Str × Bytes} (hsized : file.2.length < 2 ^ 64) :
    (∃ bytes, writeFile file = .ok bytes) ↔ (asBytes file.1).length ≤ maxPathLen := by
  rw [← writeString_succeeds_iff]
  constructor
  · rintro ⟨bytes, h⟩
    obtain ⟨path, hpath, -⟩ := writeFile_parts h
    exact ⟨path, hpath⟩
  · rintro ⟨path, hpath⟩
    refine ⟨path ++ leBytes 8 file.2.length ++ file.2, ?_⟩
    rw [writeFile, hpath]
    exact if_neg (not_le.mpr hsized)

theorem writeAll_succeeds_iff {α : Type} {write : α → Except StorageError Bytes} {xs : List α} :
    (∃ bytes, writeAll write xs = .ok bytes) ↔ ∀ x ∈ xs, ∃ bytes, write x = .ok bytes := by
  -- by the items: one that cannot be written fails the whole list
  induction xs with
  | nil => exact ⟨fun _ _ hx => (by cases hx), fun _ => ⟨_, rfl⟩⟩
  | cons x xs ih =>
    rw [List.forall_mem_cons, ← ih]
    constructor
    · rintro ⟨bytes, h⟩
      obtain ⟨first, rest, hx, hrest, -⟩ := writeAll_cons_ok h
      exact ⟨⟨first, hx⟩, ⟨rest, hrest⟩⟩
    · rintro ⟨⟨first, hx⟩, ⟨rest, hrest⟩⟩
      refine ⟨first ++ rest, ?_⟩
      rw [writeAll, hx, hrest]
      rfl

theorem Listing.payload_succeeds_iff {l : Listing} :
    (∃ payload, l.payload = .ok payload) ↔
      (∃ b, writeCount l.directories.length = .ok b) ∧
      (∃ b, writeAll writeString l.directories = .ok b) ∧
      (∃ b, writeCount l.files.length = .ok b) ∧
      ∃ b, writeAll writeFile l.files = .ok b := by
  constructor
  · intro ⟨payload, h⟩
    obtain ⟨_, _, _, _, h₁, h₂, h₃, h₄, -⟩ := l.payload_ok h
    exact ⟨⟨_, h₁⟩, ⟨_, h₂⟩, ⟨_, h₃⟩, ⟨_, h₄⟩⟩
  · intro ⟨⟨_, h₁⟩, ⟨_, h₂⟩, ⟨_, h₃⟩, ⟨_, h₄⟩⟩
    exact ⟨_, by rw [Listing.payload, h₁, h₂, h₃, h₄]; rfl⟩

theorem encodeTree_succeeds_iff {tree : FileTree} :
    (∃ payload, encodeTree tree = .ok payload) ↔
      (∃ b, writeCount tree.directories.keys.length = .ok b) ∧
      (∃ b, writeAll writeString tree.directories.keys = .ok b) ∧
      (∃ b, writeCount tree.files.entries.length = .ok b) ∧
      ∃ b, writeAll writeFile tree.files.entries = .ok b :=
  tree.listed.payload_succeeds_iff

/-- Reading a payload gives back the tree it was written for, and there is one for every tree
    within the limits. -/
theorem FileTree.payload_round_trip (tree : FileTree)
    (hsized : ∀ file ∈ tree.files.entries, file.2.length < 2 ^ 64) :
    (∀ payload, encodeTree tree = .ok payload → decodeTree payload = .ok tree) ∧
      ((∃ payload, encodeTree tree = .ok payload) ↔
        tree.directories.keys.length ≤ 100000 ∧ tree.files.entries.length ≤ 100000 ∧
        (∀ path ∈ tree.directories.keys, (asBytes path).length ≤ 4096) ∧
        ∀ file ∈ tree.files.entries, (asBytes file.1).length ≤ 4096) := by
  refine ⟨fun payload h => decodeTree_of_encodeTree h, ?_⟩
  rw [encodeTree_succeeds_iff, writeCount_succeeds_iff, writeAll_succeeds_iff,
    writeCount_succeeds_iff, writeAll_succeeds_iff]
  -- count by count and path by path; the content of a file is never too large
  constructor
  · intro ⟨hdirectories, hnames, hfiles, hcontents⟩
    refine ⟨hdirectories, hfiles, fun path hpath => ?_, fun file hfile => ?_⟩
    · exact writeString_succeeds_iff.mp (hnames path hpath)
    · exact (writeFile_succeeds_iff (hsized file hfile)).mp (hcontents file hfile)
  · intro ⟨hdirectories, hfiles, hnames, hcontents⟩
    refine ⟨hdirectories, fun path hpath => ?_, hfiles, fun file hfile => ?_⟩
    · exact writeString_succeeds_iff.mpr (hnames path hpath)
    · exact (writeFile_succeeds_iff (hsized file hfile)).mpr (hcontents file hfile)

/-- A directory and two files: one under a name that takes more bytes than letters, with bytes that look like the
    length of a string, and an empty one. -/
def FileTree.sample : FileTree where
  directories := OrdMap.empty.insert "user".toList ()
  files := (OrdMap.empty.insert "user/ä".toList [4, 0, 0, 0, 255]).insert "user/b".toList []

theorem FileTree.payload_round_trip_sample :
    ∃ payload, encodeTree sample = .ok payload ∧ payload.length = 58 ∧ decodeTree payload = .ok sample := by
  have hsized : ∀ file ∈ sample.files.entries, file.2.length < 2 ^ 64 := by decide +kernel
  obtain ⟨hback, hencodes⟩ := FileTree.payload_round_trip sample hsized
  obtain ⟨payload, hpayload⟩ := hencodes.mpr (by decide +kernel)
  have hlength : (encodeTree sample).map List.length = .ok 58 := by decide +kernel
  rw [hpayload] at hlength
  exact ⟨payload, hpayload, Except.ok.inj hlength, hback payload hpayload⟩

end Afos
