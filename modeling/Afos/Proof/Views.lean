import Afos.Proof.Layout
import Afos.Proof.Mounts

/-!
# One namespace behind the views

`exists`, `read` and `list` each find out in a way of their own what is at a path: from a few
paths that are always there, by a search through the table of embedded files, by grouping the
table under a text, from the two maps of a tree. What they find out about is one thing: a
namespace that has at each path a file, a directory or nothing (`Vfs.node`). `exists` says whether
there is a node, `read` gives a file, and `list` gives the nodes one name further down, in the
form of entries (`Vfs.Answers`). The agreement of the views is then a fact about nodes.

The shape of the tree and of the table goes into this at two places: a path is not a file and a
directory at once, and a name that is listed is a name that a path can have.
-/

set_option autoImplicit false

namespace Afos

open Lib

/-! ## Nodes -/

/-- What can be at a path. A directory has no content of its own: what is in it is at the paths one name further
    down, so a namespace is known when the node at each path is. -/
inductive Node where
  | file (data : Bytes)
  | dir
  deriving DecidableEq

/-- The entry of a listing that stands for a node. -/
def Node.entry (name : Str) : Node → StorageEntry
  | .file data => { name, isDir := false, len := data.length }
  | .dir => { name, isDir := true, len := 0 }

@[simp] theorem Node.name_entry (name : Str) (node : Node) : (node.entry name).name = name := by
  cases node <;> rfl

theorem Node.isSome_iff {node : Option Node} :
    node.isSome = true ↔ (∃ data, node = some (.file data)) ∨ node = some .dir := by
  cases node with
  | none => simp
  | some node => cases node <;> simp

/-- The entries are those of the nodes that `child` has under plain names. This is the meaning of a listing, of
    whichever mount and in whichever order: nothing that is there is left out, nothing else is listed, and each
    entry has the kind and the length of its node. -/
def Lists (child : Str → Option Node) (entries : List StorageEntry) : Prop :=
  ∀ e, e ∈ entries ↔ ∃ n node, Plain n ∧ child n = some node ∧ e = node.entry n

/-- Entries with one name are entries of one node. -/
theorem Lists.eq_of_name {child : Str → Option Node} {entries : List StorageEntry}
    (h : Lists child entries) : ∀ a ∈ entries, ∀ b ∈ entries, a.name = b.name → a = b := by
  intro a ha b hb hname
  obtain ⟨n, node, -, hnode, rfl⟩ := (h a).mp ha
  obtain ⟨n', node', -, hnode', rfl⟩ := (h b).mp hb
  rw [Node.name_entry, Node.name_entry] at hname
  rw [hname, hnode'] at hnode
  rw [hname, Option.some.inj hnode]

/-! ## The tree -/

namespace FileTree

/-- What the two maps of a tree say of a path. The files come first here, where `storage_read` looks among the
    directories first: for a tree in which no path is both, the order makes no difference. -/
def node (t : FileTree) (q : Str) : Option Node :=
  match t.files.lookup q with
  | some data => some (.file data)
  | none => if t.directories.contains q then some .dir else none

variable {t : FileTree} {q : Str}

theorem node_eq_file_iff {data : Bytes} :
    t.node q = some (.file data) ↔ t.files.lookup q = some data := by
  unfold node
  cases t.files.lookup q with
  | some found => simp only [Option.some.injEq, Node.file.injEq]
  | none =>
    simp only [reduceCtorEq, iff_false]
    split <;> exact fun h => (by cases h)

theorem WellFormed.node_eq_dir_iff (h : t.WellFormed) :
    t.node q = some .dir ↔ t.directories.contains q = true := by
  unfold node
  cases hlookup : t.files.lookup q with
  | some data =>
    rw [h.disjoint (OrdMap.contains_iff.mpr ⟨data, hlookup⟩)]
    simp only [Option.some.injEq, reduceCtorEq, Bool.false_eq_true]
  | none => simp

theorem node_isSome_iff : (t.node q).isSome = true ↔ t.existsAt q = true := by
  rw [existsAt_iff, OrdMap.contains_iff]
  unfold node
  cases t.files.lookup q with
  | some data => simp
  | none => simp

/-- The paths of the tree are made of plain names, it has a shape, and nothing in it is longer than a vector can
    be. The last is what makes the length of an entry that of the file: the source converts it to `u64` and takes
    the largest one where it does not fit. -/
structure Proper (t : FileTree) : Prop where
  canonical : ∀ q, t.existsAt q = true → ∃ cs, (∀ c ∈ cs, Plain c) ∧ q = join cs
  wellFormed : t.WellFormed
  layout : t.HasLayout
  lengths : ∀ q data, t.files.lookup q = some data → data.length < 2 ^ 64

/-- `direct_child` strips the directory from a path and takes the rest for a name if it is not empty and has no
    slash in it. -/
theorem directChild_eq_some_iff {path n : Str} :
    directChild path (q ++ ['/']) = some n ↔ path = q ++ '/' :: n ∧ n ≠ [] ∧ '/' ∉ n := by
  rw [directChild, Option.bind_eq_some_iff]
  constructor
  · rintro ⟨rest, hstrip, hrest⟩
    have hpath := stripPrefix_eq_some_iff.mp hstrip
    rw [List.append_assoc] at hpath
    split at hrest
    · cases hrest
    · rename_i hname
      obtain rfl := Option.some.inj hrest
      rw [not_or, List.contains_iff_mem] at hname
      exact ⟨hpath, hname⟩
  · rintro ⟨rfl, hne, hslash⟩
    refine ⟨n, stripPrefix_eq_some_iff.mpr (by rw [List.append_assoc]; rfl), ?_⟩
    rw [if_neg]
    rw [not_or, List.contains_iff_mem]
    exact ⟨hne, hslash⟩

/-- A name at the end of a path of the tree is plain, because the names of every path of the tree are. This is how
    a listing comes to consist of names that a path can have. -/
theorem Proper.plain_child (h : t.Proper) {n : Str}
    (hexists : t.existsAt (q ++ '/' :: n) = true) (hname : IsName n) : Plain n := by
  obtain ⟨cs, hcs, heq⟩ := h.canonical _ hexists
  have hne : cs ≠ [] := by
    rintro rfl
    exact absurd heq (by simp [join_nil])
  refine hcs n ?_
  rw [← splitOn_join (isName_of_plain hcs) hne, ← heq, List.splitOn_append_cons_self,
    splitOn_of_isName hname]
  exact List.mem_append_right _ (List.mem_singleton.mpr rfl)

theorem Proper.min_length (h : t.Proper) {data : Bytes} (hfile : t.files.lookup q = some data) :
    min data.length (2 ^ 64 - 1) = data.length :=
  Nat.min_eq_left (Nat.le_sub_one_of_lt (h.lengths q data hfile))

/-- What a listing is gathered from: the directories, then the files. The source puts them into a map by name as
    they come, so an entry of a file would replace one of a directory with the same name; in a tree with a shape
    there is no such pair. -/
def members (t : FileTree) (pre : Str) : List StorageEntry :=
  (t.directories.keys.filterMap fun path =>
      (directChild path pre).map fun name => { name, isDir := true, len := 0 }) ++
    t.files.entries.filterMap fun file =>
      (directChild file.1 pre).map fun name =>
        { name, isDir := false, len := min file.2.length (2 ^ 64 - 1) }

theorem Proper.lists_members (h : t.Proper) (q : Str) :
    Lists (fun n => t.node (q ++ '/' :: n)) (t.members (q ++ ['/'])) := by
  intro e
  rw [members, List.mem_append, List.mem_filterMap, List.mem_filterMap]
  simp only [Option.map_eq_some_iff, directChild_eq_some_iff]
  constructor
  · -- an entry comes from a directory or from a file, one name below `q`
    rintro (⟨_, hmem, n, ⟨rfl, hn⟩, rfl⟩ | ⟨⟨_, data⟩, hmem, n, ⟨rfl, hn⟩, rfl⟩)
    · have hdir := OrdMap.mem_keys_iff.mp hmem
      have hplain := h.plain_child (existsAt_iff.mpr (Or.inr hdir)) hn
      exact ⟨n, .dir, hplain, h.wellFormed.node_eq_dir_iff.mpr hdir, rfl⟩
    · have hfile := OrdMap.lookup_eq_some_iff.mpr hmem
      have hplain := h.plain_child
        (existsAt_iff.mpr (Or.inl (OrdMap.contains_iff.mpr ⟨data, hfile⟩))) hn
      refine ⟨n, .file data, hplain, node_eq_file_iff.mpr hfile, ?_⟩
      exact congrArg (StorageEntry.mk n false) (h.min_length hfile)
  · -- a node below `q` is in one of the two maps, at a path that `directChild` accepts
    rintro ⟨n, node, hplain, hnode, rfl⟩
    cases node with
    | file data =>
      have hfile := node_eq_file_iff.mp hnode
      refine Or.inr ⟨_, OrdMap.lookup_eq_some_iff.mp hfile, n, ⟨rfl, hplain.isName⟩, ?_⟩
      exact congrArg (StorageEntry.mk n false) (h.min_length hfile)
    | dir =>
      have hdir := h.wellFormed.node_eq_dir_iff.mp hnode
      exact Or.inl ⟨_, OrdMap.mem_keys_iff.mpr hdir, n, ⟨rfl, hplain.isName⟩, rfl⟩

/-- A listing of the tree: the nodes one name further down, in ascending order. The order is that of the map in
    which the entries are gathered, which loses none of them, because no two entries have the same name. -/
theorem Proper.lists_entriesUnder (h : t.Proper) (q : Str) :
    Lists (fun n => t.node (q ++ '/' :: n)) (t.entriesUnder (q ++ ['/'])) ∧
      ((t.entriesUnder (q ++ ['/'])).map StorageEntry.name).Pairwise (· < ·) := by
  have hmembers := h.lists_members q
  have hindexes : OrdMap.Indexes StorageEntry.name (t.members (q ++ ['/']))
      ((t.members (q ++ ['/'])).foldl addEntry OrdMap.empty) :=
    OrdMap.indexes_foldl (fun hl hsame => hl.insert hsame) OrdMap.indexes_empty
      hmembers.eq_of_name
  exact ⟨fun e => hindexes.mem_values.trans (hmembers e), hindexes.ascending_values⟩

end FileTree

namespace BareMetalPlatform

variable {D η : Type} {p : BareMetalPlatform D η} {q : Str}

theorem storageExists_ok_true_iff :
    (storageExists q p).1 = .ok true ↔ (p.tree.node q).isSome = true := by
  rw [FileTree.node_isSome_iff]
  exact ⟨Except.ok.inj, congrArg _⟩

theorem storageRead_ok_iff (h : p.tree.WellFormed) {data : Bytes} :
    (storageRead q p).1 = .ok data ↔ p.tree.node q = some (.file data) := by
  rw [FileTree.node_eq_file_iff, storageRead]
  -- `storage_read` looks among the directories first; a path that is there is not among the files
  cases hdir : p.tree.directories.contains q with
  | true =>
    rw [if_pos rfl]
    refine iff_of_false (fun heq => (by cases heq)) fun hfile => ?_
    rw [h.disjoint (OrdMap.contains_iff.mpr ⟨data, hfile⟩)] at hdir
    cases hdir
  | false =>
    rw [if_neg Bool.false_ne_true]
    cases p.tree.files.lookup q with
    | some found => exact ⟨fun heq => congrArg _ (Except.ok.inj heq), fun heq => congrArg _ (Option.some.inj heq)⟩
    | none => exact iff_of_false (fun heq => (by cases heq)) fun heq => (by cases heq)

theorem storageList_ok_iff (h : p.tree.WellFormed) (hne : q ≠ []) {entries : List StorageEntry} :
    (storageList q p).1 = .ok entries ↔
      p.tree.node q = some .dir ∧ p.tree.entriesUnder (q ++ ['/']) = entries := by
  rw [h.node_eq_dir_iff, storageList]
  cases p.tree.directories.contains q with
  | false =>
    rw [Bool.not_false, if_pos rfl]
    refine iff_of_false (fun heq => ?_) fun hboth => (by cases hboth.1)
    split at heq <;> cases heq
  | true =>
    rw [Bool.not_true, if_neg Bool.false_ne_true, if_neg hne]
    exact ⟨fun heq => ⟨rfl, Except.ok.inj heq⟩, fun hboth => congrArg _ hboth.2⟩

end BareMetalPlatform

/-! ## The table -/

/-- The paths of the table are distinct, plain and below `/sys`, and none is above another. The table has no
    directories: one is there where a file is below it. If a file could be above another, its path would be a file
    and a directory at once. -/
structure IsTable (files : List EmbeddedFile) : Prop where
  canonical : ∀ file ∈ files,
    ∃ cs, (∀ c ∈ cs, Plain c) ∧ cs ≠ [] ∧ file.path = '/' :: join ("sys".toList :: cs)
  distinct : (files.map EmbeddedFile.path).Nodup
  apart : ∀ file ∈ files, ∀ other ∈ files, ¬ Below file.path other.path

/-- What the table says of a path: the file with that path, or a directory if some file is below it. -/
def tableNode (files : List EmbeddedFile) (p : Str) : Option Node :=
  match files.find? (fun file => file.path == p) with
  | some file => some (.file file.data)
  | none => if files.any (fun file => startsWith (p ++ ['/']) file.path) then some .dir else none

namespace IsTable

variable {files : List EmbeddedFile} {p : Str}

theorem eq_of_path (h : IsTable files) {file other : EmbeddedFile} (hfile : file ∈ files)
    (hother : other ∈ files) (hpath : file.path = other.path) : file = other :=
  List.inj_on_of_nodup_map h.distinct hfile hother hpath

theorem node_eq_file_iff (h : IsTable files) {data : Bytes} :
    tableNode files p = some (.file data) ↔ ∃ file ∈ files, file.path = p ∧ file.data = data := by
  unfold tableNode
  cases hfind : files.find? (fun file => file.path == p) with
  | some found =>
    have hmem := List.mem_of_find?_eq_some hfind
    have hpath : found.path = p := by simpa using List.find?_some hfind
    simp only [Option.some.injEq, Node.file.injEq]
    constructor
    · intro hdata
      exact ⟨found, hmem, hpath, hdata⟩
    · rintro ⟨file, hfile, hp, rfl⟩
      rw [h.eq_of_path hfile hmem (hp.trans hpath.symm)]
  | none =>
    have hnone : ¬ ∃ file ∈ files, file.path = p ∧ file.data = data := by
      rintro ⟨file, hfile, hp, -⟩
      have := List.find?_eq_none.mp hfind file hfile
      simp only [beq_iff_eq] at this
      exact this hp
    refine iff_of_false (fun hdir => ?_) hnone
    simp only at hdir
    split at hdir <;> cases hdir

theorem startsWith_slash_iff {path : Str} : startsWith (p ++ ['/']) path = true ↔ Below p path := by
  rw [startsWith_iff]
  refine exists_congr fun rest => ?_
  rw [List.append_assoc]
  rfl

theorem node_eq_dir_iff (h : IsTable files) :
    tableNode files p = some .dir ↔ ∃ file ∈ files, Below p file.path := by
  unfold tableNode
  cases hfind : files.find? (fun file => file.path == p) with
  | some found =>
    -- nothing is below a file of the table
    refine iff_of_false (fun hdir => (by cases hdir)) ?_
    rintro ⟨file, hfile, hbelow⟩
    have hpath : found.path = p := by simpa using List.find?_some hfind
    exact h.apart found (List.mem_of_find?_eq_some hfind) file hfile (hpath ▸ hbelow)
  | none =>
    have hany : (files.any fun file => startsWith (p ++ ['/']) file.path) = true ↔
        ∃ file ∈ files, Below p file.path := by
      rw [List.any_eq_true]
      exact exists_congr fun file => and_congr_right fun _ => startsWith_slash_iff
    rw [← hany]
    simp

theorem plain_of_mem_splitOn (h : IsTable files) {file : EmbeddedFile} (hfile : file ∈ files)
    {c : Str} (hc : c ∈ file.path.splitOn '/') (hne : c ≠ []) : Plain c := by
  obtain ⟨cs, hcs, -, hpath⟩ := h.canonical file hfile
  have hplain : ∀ d ∈ "sys".toList :: cs, Plain d := by
    intro d hd
    rcases List.mem_cons.mp hd with rfl | hd
    · decide
    · exact hcs d hd
  rw [hpath, splitOn_slash_join (isName_of_plain hplain) (List.cons_ne_nil _ _)] at hc
  exact hplain c ((List.mem_cons.mp hc).resolve_left hne)

/-- A file of the table contributes an entry for itself, if it is one name below `p`, or for the directory it is in,
    if it is further down: `list_system` cuts what follows `p` at its first slash, if there is one. -/
theorem systemEntry_eq_some_iff (h : IsTable files) {file : EmbeddedFile} (hfile : file ∈ files)
    {e : StorageEntry} : Vfs.systemEntry (p ++ ['/']) file = some e ↔
      ∃ n, Plain n ∧ (file.path = p ++ '/' :: n ∧ e = (Node.file file.data).entry n ∨
        Below (p ++ '/' :: n) file.path ∧ e = Node.dir.entry n) := by
  rw [Vfs.systemEntry, Option.bind_eq_some_iff]
  constructor
  · rintro ⟨rest, hstrip, hentry⟩
    have hpath := stripPrefix_eq_some_iff.mp hstrip
    rw [List.append_assoc, List.singleton_append] at hpath
    -- in both cases the name is one of the names of the file's path, and these are plain
    cases hsplit : splitOnce '/' rest with
    | none =>
      simp only [hsplit] at hentry
      split at hentry
      · cases hentry
      · rename_i hne
        obtain rfl := Option.some.inj hentry
        have hmem : rest ∈ file.path.splitOn '/' := by
          rw [hpath, List.splitOn_append_cons_self,
            splitOn_of_isName ⟨hne, splitOnce_eq_none_iff.mp hsplit⟩]
          exact List.mem_append_right _ (List.mem_singleton.mpr rfl)
        exact ⟨rest, h.plain_of_mem_splitOn hfile hmem hne, Or.inl ⟨hpath, rfl⟩⟩
    | some ab =>
      obtain ⟨n, below⟩ := ab
      obtain ⟨rfl, hslash⟩ := splitOnce_eq_some_iff.mp hsplit
      simp only [hsplit] at hentry
      split at hentry
      · cases hentry
      · rename_i hne
        obtain rfl := Option.some.inj hentry
        have hmem : n ∈ file.path.splitOn '/' := by
          rw [hpath, List.splitOn_append_cons_self, List.splitOn_append_cons_self,
            splitOn_of_isName ⟨hne, hslash⟩]
          exact List.mem_append_right _ (List.mem_append_left _ (List.mem_singleton.mpr rfl))
        refine ⟨n, h.plain_of_mem_splitOn hfile hmem hne, Or.inr ⟨⟨below, ?_⟩, rfl⟩⟩
        rw [hpath, List.append_assoc, List.cons_append]
  · rintro ⟨n, hplain, ⟨hpath, rfl⟩ | ⟨⟨below, hpath⟩, rfl⟩⟩
    · refine ⟨n, stripPrefix_eq_some_iff.mpr (by rw [hpath, List.append_assoc]; rfl), ?_⟩
      simp only [splitOnce_eq_none_iff.mpr hplain.isName.2, if_neg hplain.isName.1]
      rfl
    · refine ⟨n ++ '/' :: below, stripPrefix_eq_some_iff.mpr ?_, ?_⟩
      · rw [hpath, List.append_assoc, List.append_assoc]
        rfl
      · have hsplit : splitOnce '/' (n ++ '/' :: below) = some (n, below) :=
          splitOnce_eq_some_iff.mpr ⟨rfl, hplain.isName.2⟩
        simp only [hsplit, if_neg hplain.isName.1]
        rfl

theorem lists_members (h : IsTable files) (p : Str) :
    Lists (fun n => tableNode files (p ++ '/' :: n))
      (files.filterMap (Vfs.systemEntry (p ++ ['/']))) := by
  intro e
  rw [List.mem_filterMap]
  constructor
  · rintro ⟨file, hfile, hentry⟩
    obtain ⟨n, hplain, hcases⟩ := (h.systemEntry_eq_some_iff hfile).mp hentry
    rcases hcases with ⟨hpath, rfl⟩ | ⟨hbelow, rfl⟩
    · exact ⟨n, _, hplain, h.node_eq_file_iff.mpr ⟨file, hfile, hpath, rfl⟩, rfl⟩
    · exact ⟨n, _, hplain, h.node_eq_dir_iff.mpr ⟨file, hfile, hbelow⟩, rfl⟩
  · rintro ⟨n, node, hplain, hnode, rfl⟩
    cases node with
    | file data =>
      obtain ⟨file, hfile, hpath, rfl⟩ := h.node_eq_file_iff.mp hnode
      exact ⟨file, hfile, (h.systemEntry_eq_some_iff hfile).mpr
        ⟨n, hplain, Or.inl ⟨hpath, rfl⟩⟩⟩
    | dir =>
      obtain ⟨file, hfile, hbelow⟩ := h.node_eq_dir_iff.mp hnode
      exact ⟨file, hfile, (h.systemEntry_eq_some_iff hfile).mpr
        ⟨n, hplain, Or.inr ⟨hbelow, rfl⟩⟩⟩

/-- The loop of `list_system` keeps the first entry of each name. Since all entries of one name are equal (several
    files below one directory each contribute it), keeping the first or the last makes no difference. -/
theorem indexes_addSystemEntry (h : IsTable files) (p : Str) :
    OrdMap.Indexes StorageEntry.name (files.filterMap (Vfs.systemEntry (p ++ ['/'])))
      (files.foldl (Vfs.addSystemEntry (p ++ ['/'])) OrdMap.empty) := by
  have hfold : files.foldl (Vfs.addSystemEntry (p ++ ['/'])) OrdMap.empty =
      (files.filterMap (Vfs.systemEntry (p ++ ['/']))).foldl (fun entries entry =>
        if entries.contains entry.name then entries else entries.insert entry.name entry)
        OrdMap.empty := by
    rw [List.foldl_filterMap]
    refine List.foldl_ext _ _ _ fun entries file _ => ?_
    unfold Vfs.addSystemEntry
    cases Vfs.systemEntry (p ++ ['/']) file with
    | none => rfl
    | some entry => rfl
  rw [hfold]
  exact OrdMap.indexes_foldl (fun hl hsame => hl.insertNew hsame) OrdMap.indexes_empty
    (h.lists_members p).eq_of_name

theorem of_perm (h : IsTable files) {other : List EmbeddedFile} (hperm : other.Perm files) :
    IsTable other where
  canonical file hfile := h.canonical file (hperm.mem_iff.mp hfile)
  distinct := (hperm.map _).nodup_iff.mpr h.distinct
  apart file hfile file' hfile' :=
    h.apart file (hperm.mem_iff.mp hfile) file' (hperm.mem_iff.mp hfile')

/-- The order of the table makes no difference to what is gathered from it: two maps that index lists with the same
    members are equal. -/
theorem foldl_perm (h : IsTable files) {other : List EmbeddedFile} (hperm : other.Perm files)
    (p : Str) : other.foldl (Vfs.addSystemEntry (p ++ ['/'])) OrdMap.empty =
      files.foldl (Vfs.addSystemEntry (p ++ ['/'])) OrdMap.empty :=
  ((h.of_perm hperm).indexes_addSystemEntry p).eq_of_mem_iff (h.indexes_addSystemEntry p)
    fun _ => (hperm.filterMap _).mem_iff

end IsTable

/-! ## The three mounts -/

namespace Vfs

variable {D η : Type}

/-- What is at the path with these names: the root and `/sys` are always there, below `/sys` is the table, below
    `/apps` and `/user` the tree of the backend, and there is nothing else. -/
def node (v : Vfs (BareMetalPlatform D η)) : List Str → Option Node
  | [] => some .dir
  | c :: cs =>
      if c = "sys".toList then
        if cs = [] then some .dir else tableNode v.systemFiles ('/' :: join (c :: cs))
      else if c = "apps".toList ∨ c = "user".toList then v.platform.tree.node (join (c :: cs))
      else none

/-- The tree and the table are as the filesystem expects them. A machine that has been started from a packaged
    image is so, and of what calls can do to it only the move of a directory of the layout spoils it. -/
structure Coherent (v : Vfs (BareMetalPlatform D η)) : Prop where
  tree : v.platform.tree.Proper
  table : IsTable v.systemFiles

section

variable [BlockDevice D] [Hardware η]

/-- The three views of a path are views of the node that is there. A view may fail in more than one way where there
    is no node for it (no such path, a directory read, a file listed), so each is characterized by when it returns
    `Ok`, and with what. -/
structure Answers (v : Vfs (BareMetalPlatform D η)) (path : Str) (cs : List Str) : Prop where
  exists_iff : (existsAt path v).1 = .ok true ↔ (v.node cs).isSome = true
  read_iff : ∀ data, (read path v).1 = .ok data ↔ v.node cs = some (.file data)
  list_iff : (∃ entries, (list path v).1 = .ok entries) ↔ v.node cs = some .dir
  lists : ∀ entries, (list path v).1 = .ok entries → Lists (fun n => v.node (cs ++ [n])) entries
  nodup : ∀ entries, (list path v).1 = .ok entries → (entries.map StorageEntry.name).Nodup
  ascending : ∀ entries, (list path v).1 = .ok entries → cs ≠ [] →
    (entries.map StorageEntry.name).Pairwise (· < ·)

variable {v : Vfs (BareMetalPlatform D η)} {path : Str}

/-- The views of a path whose listing is one list of entries, if there is one. The tree and the table each give
    such a list; the root does not, as its listing is fixed and not in order. -/
theorem Answers.of_listing {cs : List Str} {listing : List StorageEntry}
    (hexists : (existsAt path v).1 = .ok true ↔ (v.node cs).isSome = true)
    (hread : ∀ data, (read path v).1 = .ok data ↔ v.node cs = some (.file data))
    (hlist : ∀ entries, (list path v).1 = .ok entries ↔
      v.node cs = some .dir ∧ listing = entries)
    (hlists : Lists (fun n => v.node (cs ++ [n])) listing)
    (hascending : (listing.map StorageEntry.name).Pairwise (· < ·)) : v.Answers path cs where
  exists_iff := hexists
  read_iff := hread
  list_iff := by
    constructor
    · rintro ⟨entries, hentries⟩
      exact ((hlist entries).mp hentries).1
    · intro hdir
      exact ⟨_, (hlist _).mpr ⟨hdir, rfl⟩⟩
  lists entries hentries := ((hlist entries).mp hentries).2 ▸ hlists
  nodup entries hentries := ((hlist entries).mp hentries).2 ▸ hascending.imp ne_of_lt
  ascending entries hentries _ := ((hlist entries).mp hentries).2 ▸ hascending

omit [BlockDevice D] [Hardware η] in
/-- The root lists the mounts, without looking at the backend. That the two of them that are the backend's are
    directories there is part of the layout. -/
theorem lists_rootEntries (h : v.Coherent) : Lists (fun n => v.node [n]) rootEntries := by
  have hmount : ∀ c ∈ ["apps".toList, "user".toList], v.platform.tree.node c = some .dir := by
    intro c hc
    refine h.tree.wellFormed.node_eq_dir_iff.mpr (h.tree.layout c ?_)
    revert c
    decide
  -- one name below the root there are exactly the mounts, and they are directories
  have hchild : ∀ n node, v.node [n] = some node ↔
      n ∈ ["sys".toList, "apps".toList, "user".toList] ∧ node = .dir := by
    intro n node
    rw [Vfs.node, List.mem_cons]
    by_cases hsys : n = "sys".toList
    · rw [if_pos hsys, if_pos rfl]
      simp only [hsys, true_or, true_and, Option.some.injEq, eq_comm]
    · rw [if_neg hsys, join_singleton]
      by_cases hother : n = "apps".toList ∨ n = "user".toList
      · have hmem : n ∈ ["apps".toList, "user".toList] := by
          rcases hother with rfl | rfl
          · exact List.mem_cons_self
          · exact List.mem_cons_of_mem _ List.mem_cons_self
        rw [if_pos hother, hmount n hmem]
        simp only [hmem, or_true, true_and, Option.some.injEq, eq_comm]
      · rw [if_neg hother]
        simp only [List.mem_cons, List.not_mem_nil, or_false, hsys, hother, false_and,
          reduceCtorEq]
  intro e
  rw [rootEntries, List.mem_map]
  constructor
  · rintro ⟨n, hn, rfl⟩
    refine ⟨n, .dir, ?_, (hchild n .dir).mpr ⟨hn, rfl⟩, rfl⟩
    revert n
    decide
  · rintro ⟨n, node, -, hnode, rfl⟩
    obtain ⟨hn, rfl⟩ := (hchild n node).mp hnode
    exact ⟨n, hn, rfl⟩

/-- The root: it exists, it is listed, and it cannot be read, as it is in no mount. -/
theorem answers_root (h : v.Coherent) (hn : normalizePath "/".toList path = .ok "/".toList) :
    v.Answers path [] := by
  have hexists : (existsAt path v).1 = .ok true := by
    rw [existsAt_of_normalized hn, if_pos (by decide)]
    rfl
  have hlist : (list path v).1 = .ok rootEntries := by
    rw [list_of_normalized hn, if_pos rfl]
    rfl
  have hread : ∀ data, (read path v).1 ≠ .ok data := by
    intro data
    rw [read_eq_routed, routed_of_unmounted hn (by decide)
      (e := .permissionDenied "path is outside persistent mounts".toList) (by decide)]
    exact fun heq => (by cases heq)
  refine ⟨iff_of_true hexists rfl, fun data => iff_of_false (hread data) fun hnode => (by cases hnode),
    iff_of_true ⟨_, hlist⟩ rfl, fun entries hentries => ?_, fun entries hentries => ?_,
    fun entries _ hne => absurd rfl hne⟩
  · rw [hlist] at hentries
    obtain rfl := Except.ok.inj hentries
    exact lists_rootEntries h
  · rw [hlist] at hentries
    obtain rfl := Except.ok.inj hentries
    decide

omit [BlockDevice D] [Hardware η] in
/-- The mounts of the backend are there, also for the backend. `exists` says so of them without asking it, so this
    is where the views would come apart if a directory of the layout had been moved away. -/
theorem mount_isSome (h : v.Coherent) {q : Str} (hroutes : Routes path q)
    (hroot : '/' :: q ∈ alwaysThere) : (v.platform.tree.node q).isSome = true := by
  have hq : q ∈ layout := by
    obtain ⟨-, hsys, hp⟩ := hroutes
    simp only [alwaysThere, List.mem_cons, List.not_mem_nil, or_false] at hroot
    rcases hroot with heq | heq | heq | heq
    · rw [heq] at hp
      exact absurd hp (by rw [(List.cons.inj heq).2]; decide)
    · rw [heq] at hsys
      exact absurd hsys (by decide)
    · rw [(List.cons.inj heq).2]
      decide
    · rw [(List.cons.inj heq).2]
      decide
  rw [h.tree.wellFormed.node_eq_dir_iff.mpr (h.tree.layout q hq)]
  rfl

/-- At and below `/apps` and `/user` the views are those of the backend's tree. -/
theorem answers_tree (h : v.Coherent) {c : Str} {cs : List Str}
    (hc : c = "apps".toList ∨ c = "user".toList) (hroutes : Routes path (join (c :: cs))) :
    v.Answers path (c :: cs) := by
  have hsys : c ≠ "sys".toList := by
    rcases hc with rfl | rfl
    · decide
    · decide
  have hnode : ∀ ds, v.node (c :: ds) = v.platform.tree.node (join (c :: ds)) := by
    intro ds
    rw [Vfs.node, if_neg hsys, if_pos hc]
  have hchild : ∀ n, v.node (c :: cs ++ [n]) =
      v.platform.tree.node (join (c :: cs) ++ '/' :: n) := by
    intro n
    rw [← join_singleton n, ← join_append (List.cons_ne_nil _ _) (List.cons_ne_nil _ _),
      join_singleton]
    exact hnode (cs ++ [n])
  have hne : join (c :: cs) ≠ [] := hroutes.canonical.2
  have hlist : ∀ entries, (list path v).1 = .ok entries ↔
      v.node (c :: cs) = some .dir ∧
        v.platform.tree.entriesUnder (join (c :: cs) ++ ['/']) = entries := by
    intro entries
    have hroot : '/' :: join (c :: cs) ≠ "/".toList := fun heq => hne (List.cons.inj heq).2
    rw [hnode, ← BareMetalPlatform.storageList_ok_iff h.tree.wellFormed hne,
      list_of_normalized hroutes.1, if_neg hroot, routed_of_routes hroutes]
    rfl
  obtain ⟨hlists, hascending⟩ := h.tree.lists_entriesUnder (join (c :: cs))
  refine Answers.of_listing ?_ (fun data => ?_) hlist (by simpa only [hchild]) hascending
  · -- `exists` answers for the mounts itself, and asks the backend about everything below
    rw [hnode, existsAt_of_normalized hroutes.1]
    by_cases hroot : '/' :: join (c :: cs) ∈ alwaysThere
    · rw [if_pos hroot]
      exact iff_of_true rfl (mount_isSome h hroutes hroot)
    · rw [if_neg hroot, routed_of_routes hroutes]
      exact BareMetalPlatform.storageExists_ok_true_iff
  · rw [hnode, read_eq_routed, routed_of_routes hroutes]
    exact BareMetalPlatform.storageRead_ok_iff h.tree.wellFormed

omit [BlockDevice D] [Hardware η] in
theorem isPathPrefix_sys_iff {cs : List Str} (hcs : ∀ c ∈ cs, IsName c) :
    isPathPrefix "/sys".toList ('/' :: join cs) = true ↔ ["sys".toList] <+: cs :=
  isPathPrefix_slash_iff (a := ["sys".toList]) (by decide) hcs (by decide)

omit [BlockDevice D] [Hardware η] in
theorem withSlash_slash_join {cs : List Str} (hcs : ∀ c ∈ cs, IsName c) (hne : cs ≠ []) :
    withSlash ('/' :: join cs) = '/' :: join cs ++ ['/'] := by
  have hjoin : join cs ≠ [] := fun hnil => hne ((join_eq_nil_iff hcs).mp hnil)
  rw [withSlash, List.getLast?_cons_of_ne_nil hjoin, if_neg (getLast?_join_ne_slash hcs)]

omit [BlockDevice D] [Hardware η] in
/-- The nodes of the table are at and below `/sys`, which is there also when the table is empty. -/
theorem node_sys (h : v.Coherent) (cs : List Str) {data : Bytes} :
    v.node ("sys".toList :: cs) = some (.file data) ↔
      tableNode v.systemFiles ('/' :: join ("sys".toList :: cs)) = some (.file data) := by
  rw [Vfs.node, if_pos rfl]
  by_cases hcs : cs = []
  · rw [if_pos hcs, hcs]
    refine iff_of_false (fun hnode => (by cases hnode)) fun hnode => ?_
    obtain ⟨file, hfile, hpath, -⟩ := h.table.node_eq_file_iff.mp hnode
    obtain ⟨ds, hds, hne, heq⟩ := h.table.canonical file hfile
    rw [hpath, join_singleton, join_cons hne] at heq
    exact absurd (List.cons.inj heq).2 (by simp)
  · rw [if_neg hcs]

omit [BlockDevice D] [Hardware η] in
theorem systemFile_eq_some_iff {p : Str} {data : Bytes} :
    (∃ file, v.systemFile p = some file ∧ file.data = data) ↔
      tableNode v.systemFiles p = some (.file data) := by
  rw [tableNode, ← systemFile]
  cases v.systemFile p with
  | some found => simp
  | none =>
    refine iff_of_false (fun ⟨_, hfile, _⟩ => (by cases hfile)) fun hnode => ?_
    simp only at hnode
    split at hnode <;> cases hnode

omit [BlockDevice D] [Hardware η] in
theorem readSystem_ok_iff {p : Str} {data : Bytes} :
    (readSystem p v).1 = .ok data ↔ tableNode v.systemFiles p = some (.file data) := by
  rw [← systemFile_eq_some_iff, readSystem, Op.run_bind_ok (Op.run_read v)]
  cases v.systemFile p with
  | some found => exact ⟨fun heq => ⟨found, rfl, Except.ok.inj heq⟩, fun ⟨_, hfile, hdata⟩ => by
      rw [← hdata, ← Option.some.inj hfile]
      rfl⟩
  | none => exact iff_of_false (fun heq => (by cases heq)) fun ⟨_, hfile, _⟩ => (by cases hfile)

/-- At and below `/sys` the views are those of the table. `/sys` itself is a directory whether or not the table has
    anything in it: `exists` and `list` make an exception for it, and `read` finds no file there. -/
theorem answers_table (h : v.Coherent) {cs : List Str} (hcs : ∀ c ∈ cs, Plain c)
    (hn : normalizePath "/".toList path = .ok ('/' :: join ("sys".toList :: cs))) :
    v.Answers path ("sys".toList :: cs) := by
  have hnames : ∀ c ∈ "sys".toList :: cs, IsName c := by
    intro c hc
    rcases List.mem_cons.mp hc with rfl | hc
    · decide
    · exact (hcs c hc).isName
  set p := '/' :: join ("sys".toList :: cs) with hp
  have hsys : isPathPrefix "/sys".toList p = true :=
    (isPathPrefix_sys_iff hnames).mpr (List.prefix_append ["sys".toList] cs)
  have hslash : withSlash p = p ++ ['/'] := withSlash_slash_join hnames (List.cons_ne_nil _ _)
  -- the exception is for the text `/sys`, which is the path without further names
  have hmount : p = "/sys".toList ↔ cs = [] := by
    constructor
    · intro heq
      have := slash_join_injective hnames (b := ["sys".toList]) (by decide) heq
      exact (List.cons.inj this).2
    · rintro rfl
      rfl
  have hchild : ∀ n, v.node ("sys".toList :: cs ++ [n]) =
      tableNode v.systemFiles (p ++ '/' :: n) := by
    intro n
    have hne : cs ++ [n] ≠ [] := List.append_ne_nil_of_right_ne_nil _ (List.cons_ne_nil _ _)
    rw [List.cons_append, Vfs.node, if_pos rfl, if_neg hne, ← List.cons_append,
      join_append (List.cons_ne_nil _ _) (List.cons_ne_nil _ _), join_singleton, hp]
    rfl
  -- what the source tests before it lists, as a statement about the node
  have hdir : v.node ("sys".toList :: cs) = some .dir ↔
      (p = "/sys".toList ∨ v.systemDirExists p = true) := by
    rw [Vfs.node, if_pos rfl, hmount, systemDirExists, hslash]
    by_cases hroot : cs = []
    · rw [if_pos hroot]
      exact iff_of_true rfl (Or.inl hroot)
    · rw [if_neg hroot, h.table.node_eq_dir_iff, or_iff_right hroot, List.any_eq_true]
      exact exists_congr fun file => and_congr_right fun _ => IsTable.startsWith_slash_iff.symm
  have hindexes := h.table.indexes_addSystemEntry p
  have hmembers := h.table.lists_members p
  refine Answers.of_listing ?_ (fun data => ?_) (fun entries => ?_) ?_ hindexes.ascending_values
  · rw [existsAt_of_normalized hn]
    by_cases hroot : p ∈ alwaysThere
    · -- of the paths that are always there only `/sys` is in `/sys`
      have hp : p = "/sys".toList := by
        simp only [alwaysThere, List.mem_cons, List.not_mem_nil, or_false] at hroot
        rcases hroot with heq | heq | heq | heq
        · exact absurd (heq ▸ hsys) (by decide)
        · exact heq
        · exact absurd (heq ▸ hsys) (by decide)
        · exact absurd (heq ▸ hsys) (by decide)
      rw [if_pos hroot, hdir.mpr (Or.inl hp)]
      exact iff_of_true rfl rfl
    · have hother : p ≠ "/sys".toList := fun heq => hroot (heq ▸ by decide)
      rw [if_neg hroot, routed_of_sys hn hsys, Node.isSome_iff, hdir, or_iff_right hother]
      have hfile : (∃ data, v.node ("sys".toList :: cs) = some (.file data)) ↔
          (v.systemFile p).isSome = true := by
        simp only [node_sys h, ← systemFile_eq_some_iff, Option.isSome_iff_exists]
        constructor
        · rintro ⟨_, file, hfile, _⟩
          exact ⟨file, hfile⟩
        · rintro ⟨file, hfile⟩
          exact ⟨_, file, hfile, rfl⟩
      rw [hfile, ← Bool.or_eq_true]
      exact ⟨Except.ok.inj, congrArg _⟩
  · rw [node_sys h, read_eq_routed, routed_of_sys hn hsys]
    exact readSystem_ok_iff
  · rw [hdir, list_of_normalized hn, if_neg (fun heq => absurd (heq ▸ hsys) (by decide)),
      routed_of_sys hn hsys, show (listInSystem p v).1 = v.listSystem p from rfl, listSystem, hslash]
    by_cases hthere : p = "/sys".toList ∨ v.systemDirExists p = true
    · rw [if_neg]
      · exact ⟨fun heq => ⟨hthere, Except.ok.inj heq⟩, fun hboth => congrArg _ hboth.2⟩
      · rintro ⟨hne, hnone⟩
        rw [hthere.resolve_left hne] at hnone
        cases hnone
    · rw [not_or] at hthere
      rw [if_pos ⟨hthere.1, by simp [hthere.2]⟩]
      exact iff_of_false (fun heq => (by cases heq)) fun hboth =>
        hboth.1.elim hthere.1 hthere.2
  · intro e
    simp only [hchild]
    exact hindexes.mem_values.trans (hmembers e)

omit [BlockDevice D] [Hardware η] in
theorem singleton_prefix_cons_iff {c d : Str} {cs : List Str} : [d] <+: c :: cs ↔ c = d := by
  rw [List.cons_prefix_cons, and_iff_left List.nil_prefix, eq_comm]

/-- In no mount there is nothing, and all three views fail with the error of the routing. -/
theorem answers_unmounted {c : Str} {cs : List Str} (hcs : ∀ d ∈ c :: cs, Plain d)
    (hsys : c ≠ "sys".toList) (hc : ¬ (c = "apps".toList ∨ c = "user".toList))
    (hn : normalizePath "/".toList path = .ok ('/' :: join (c :: cs))) :
    v.Answers path (c :: cs) := by
  have hnames := isName_of_plain hcs
  have hprefix : isPathPrefix "/sys".toList ('/' :: join (c :: cs)) = false := by
    rw [← Bool.not_eq_true, isPathPrefix_sys_iff hnames, singleton_prefix_cons_iff]
    exact hsys
  have hpath : ∃ e, persistentPath ('/' :: join (c :: cs)) = .error e := by
    cases hp : persistentPath ('/' :: join (c :: cs)) with
    | error e => exact ⟨e, rfl⟩
    | ok q =>
      obtain ⟨-, hmount⟩ := (persistentPath_ok_iff hnames).mp hp
      rw [singleton_prefix_cons_iff, singleton_prefix_cons_iff] at hmount
      exact absurd hmount hc
  have hnode : v.node (c :: cs) = none := by
    rw [Vfs.node, if_neg hsys, if_neg hc]
  obtain ⟨e, he⟩ := hpath
  have hne : '/' :: join (c :: cs) ≠ "/".toList := fun heq =>
    absurd ((join_eq_nil_iff hnames).mp (List.cons.inj heq).2) (List.cons_ne_nil _ _)
  -- the paths that are always there are the root and the mounts, and each of them is routed somewhere
  have hroot : '/' :: join (c :: cs) ∉ alwaysThere := by
    intro hmem
    have hmounts : ∀ p ∈ ["/apps".toList, "/user".toList], persistentPath p ≠ .error e := by
      intro p hp herror
      rcases List.mem_pair.mp hp with rfl | rfl
      · cases herror.symm.trans (show _ = .ok "apps".toList by decide)
      · cases herror.symm.trans (show _ = .ok "user".toList by decide)
    rcases List.mem_cons.mp hmem with heq | hmem
    · exact hne heq
    · rcases List.mem_cons.mp hmem with heq | hmem
      · exact absurd (heq ▸ hprefix) (by decide)
      · exact hmounts _ hmem he
  have hexists : (existsAt path v).1 = .error e := by
    rw [existsAt_of_normalized hn, if_neg hroot, routed_of_unmounted hn hprefix he]
    rfl
  have hread : (read path v).1 = .error e := by
    rw [read_eq_routed, routed_of_unmounted hn hprefix he]
    rfl
  have hlist : (list path v).1 = .error e := by
    rw [list_of_normalized hn, if_neg hne, routed_of_unmounted hn hprefix he]
    rfl
  have hnone : ∀ entries, (list path v).1 ≠ .ok entries := by
    intro entries heq
    cases hlist.symm.trans heq
  refine ⟨?_, fun data => ?_, ?_, fun entries heq => absurd heq (hnone entries),
    fun entries heq => absurd heq (hnone entries), fun entries heq => absurd heq (hnone entries)⟩
  · rw [hexists, hnode]
    exact iff_of_false (fun heq => (by cases heq)) fun heq => (by cases heq)
  · rw [hread, hnode]
    exact iff_of_false (fun heq => (by cases heq)) fun heq => (by cases heq)
  · rw [hnode]
    exact iff_of_false (fun ⟨entries, heq⟩ => hnone entries heq) fun heq => (by cases heq)

/-- The views of every path that resolves are views of the node that is there. The cases are those of the routing,
    by the first name of the path. -/
theorem Coherent.answers (h : v.Coherent) {cs : List Str} (hcs : ∀ c ∈ cs, Plain c)
    (hn : normalizePath "/".toList path = .ok ('/' :: join cs)) : v.Answers path cs := by
  cases cs with
  | nil => exact answers_root h hn
  | cons c cs =>
    by_cases hsys : c = "sys".toList
    · obtain rfl := hsys
      exact answers_table h (fun d hd => hcs d (List.mem_cons_of_mem _ hd)) hn
    · by_cases hc : c = "apps".toList ∨ c = "user".toList
      · refine answers_tree h hc ⟨hn, ?_, (persistentPath_ok_iff (isName_of_plain hcs)).mpr ⟨rfl, ?_⟩⟩
        · rw [← Bool.not_eq_true, isPathPrefix_sys_iff (isName_of_plain hcs),
            singleton_prefix_cons_iff]
          exact hsys
        · rw [singleton_prefix_cons_iff, singleton_prefix_cons_iff]
          exact hc
      · exact answers_unmounted hcs hsys hc hn

/-! ## Agreement -/

theorem of_unresolved {e : Error} (hn : normalizePath "/".toList path = .error e) :
    (existsAt path v).1 = .error e ∧ (read path v).1 = .error e ∧ (list path v).1 = .error e := by
  unfold existsAt read list
  rw [hn]
  exact ⟨rfl, rfl, rfl⟩

/-- What exists can only be named by plain names: a path with a NUL or a backslash in it does not resolve, and then
    `exists` fails rather than answering that there is nothing. -/
theorem plain_of_existsAt {n : Str} (hordinary : IsOrdinary n)
    (hexists : (existsAt (path ++ '/' :: n) v).1 = .ok true) : Plain n := by
  cases hn : normalizePath "/".toList (path ++ '/' :: n) with
  | error e => cases (of_unresolved hn).1.symm.trans hexists
  | ok p =>
    obtain ⟨⟨hnul, hback⟩, -⟩ := normalizePath_ok_iff.mp hn
    simp only [List.mem_append, List.mem_cons, not_or] at hnul hback
    exact ⟨hordinary, hnul.2.2, hback.2.2⟩

omit [BlockDevice D] [Hardware η] in
theorem listSystem_perm (h : v.Coherent) {table : List EmbeddedFile}
    (hperm : table.Perm v.systemFiles) {cs : List Str} (hcs : ∀ c ∈ cs, IsName c) (hne : cs ≠ []) :
    ({ v with systemFiles := table } : Vfs (BareMetalPlatform D η)).listSystem ('/' :: join cs) =
      v.listSystem ('/' :: join cs) := by
  unfold listSystem systemDirExists
  rw [withSlash_slash_join hcs hne, hperm.any_eq, h.table.foldl_perm hperm]

/-- Listings do not depend on the order of the table: outside of `/sys` they do not look at it, and in `/sys` they
    gather the same entries from it. -/
theorem list_perm (h : v.Coherent) {table : List EmbeddedFile} (hperm : table.Perm v.systemFiles) :
    (list path { v with systemFiles := table }).1 = (list path v).1 := by
  cases hn : normalizePath "/".toList path with
  | error e => rw [(of_unresolved hn).2.2, (of_unresolved hn).2.2]
  | ok p =>
    rw [list_of_normalized hn]
    by_cases hroot : p = "/".toList
    · rw [if_pos hroot]
      rfl
    · rw [if_neg hroot, routed_of_normalized hn]
      obtain ⟨cs, hcs, rfl⟩ := rooted_root.normalizePath hn
      cases hsys : isPathPrefix "/sys".toList ('/' :: join cs) with
      | true =>
        rw [if_pos rfl]
        refine listSystem_perm h hperm (isName_of_plain hcs) ?_
        rintro rfl
        exact hroot rfl
      | false =>
        rw [if_neg Bool.false_ne_true]
        cases persistentPath ('/' :: join cs) with
        | error e => rfl
        | ok q => rfl

/-- What there is at a path, each view in its own terms: it is there, and it can either be read or
    be listed. -/
theorem Answers.exists_iff_xor {cs : List Str} (h : v.Answers path cs) :
    (existsAt path v).1 = .ok true ↔
      Xor (∃ data, (read path v).1 = .ok data) (∃ entries, (list path v).1 = .ok entries) := by
  simp only [h.exists_iff, h.read_iff, h.list_iff, Xor]
  cases v.node cs with
  | none => simp
  | some node => cases node <;> simp

theorem Answers.errors {cs : List Str} (h : v.Answers path cs)
    (hnot : (existsAt path v).1 ≠ .ok true) :
    (∀ data, (read path v).1 ≠ .ok data) ∧ ∀ entries, (list path v).1 ≠ .ok entries := by
  rw [ne_eq, h.exists_iff, Bool.not_eq_true, Option.isSome_eq_false_iff, Option.isNone_iff_eq_none]
    at hnot
  refine ⟨fun data hread => ?_, fun entries hlist => ?_⟩
  · cases hnot.symm.trans ((h.read_iff data).mp hread)
  · cases hnot.symm.trans (h.list_iff.mp ⟨entries, hlist⟩)

theorem Coherent.answers_child (h : v.Coherent) {cs : List Str} (hcs : ∀ c ∈ cs, Plain c)
    (hn : normalizePath "/".toList path = .ok ('/' :: join cs)) {n : Str} (hplain : Plain n) :
    v.Answers (path ++ '/' :: n) (cs ++ [n]) := by
  refine h.answers (fun c hc => ?_) (normalizePath_child hcs hn hplain)
  rcases List.mem_append.mp hc with hc | hc
  · exact hcs c hc
  · exact List.mem_singleton.mp hc ▸ hplain

/-- The names of a listing are those that exist below the path. A name that exists has to be asked for as one (not
    empty, not a dot, no slash): `/user/.` exists without being an entry of `/user`. -/
theorem Coherent.mem_names_iff (h : v.Coherent) {cs : List Str} (hcs : ∀ c ∈ cs, Plain c)
    (hn : normalizePath "/".toList path = .ok ('/' :: join cs)) {entries : List StorageEntry}
    (hlist : (list path v).1 = .ok entries) (n : Str) :
    n ∈ entries.map StorageEntry.name ↔
      IsOrdinary n ∧ (existsAt (path ++ '/' :: n) v).1 = .ok true := by
  have hlists := (h.answers hcs hn).lists entries hlist
  constructor
  · intro hmem
    obtain ⟨e, he, rfl⟩ := List.mem_map.mp hmem
    obtain ⟨n, node, hplain, hnode, rfl⟩ := (hlists e).mp he
    rw [Node.name_entry]
    exact ⟨hplain.1, (h.answers_child hcs hn hplain).exists_iff.mpr
      (Option.isSome_iff_exists.mpr ⟨node, hnode⟩)⟩
  · rintro ⟨hordinary, hexists⟩
    have hplain := plain_of_existsAt hordinary hexists
    obtain ⟨node, hnode⟩ := Option.isSome_iff_exists.mp
      ((h.answers_child hcs hn hplain).exists_iff.mp hexists)
    exact List.mem_map.mpr ⟨node.entry n, (hlists _).mpr ⟨n, node, hplain, hnode, rfl⟩,
      Node.name_entry n node⟩

/-- An entry says of what it stands for what the other views say: it is marked as a directory exactly if its path
    can be listed, and otherwise its path can be read and gives as many bytes as the entry says. -/
theorem Coherent.entry_agrees (h : v.Coherent) {cs : List Str} (hcs : ∀ c ∈ cs, Plain c)
    (hn : normalizePath "/".toList path = .ok ('/' :: join cs)) {entries : List StorageEntry}
    (hlist : (list path v).1 = .ok entries) {e : StorageEntry} (he : e ∈ entries) :
    (e.isDir = true ↔ ∃ children, (list (path ++ '/' :: e.name) v).1 = .ok children) ∧
      (e.isDir = false →
        ∃ data, (read (path ++ '/' :: e.name) v).1 = .ok data ∧ e.len = data.length) := by
  obtain ⟨n, node, hplain, hnode, rfl⟩ := ((h.answers hcs hn).lists entries hlist e).mp he
  have hchild := h.answers_child hcs hn hplain
  rw [Node.name_entry, hchild.list_iff, show v.node (cs ++ [n]) = some node from hnode]
  cases node with
  | file data =>
    refine ⟨iff_of_false Bool.false_ne_true fun heq => (by cases heq), fun _ => ⟨data, ?_, rfl⟩⟩
    exact (hchild.read_iff data).mpr hnode
  | dir => exact ⟨iff_of_true rfl rfl, fun heq => (by cases heq)⟩

/-- The views agree, for every path. What exists can be read or listed, not both; what does not
    exist can be neither. A listing names, in order and once each, what exists below it, with the
    kind and the length that the other views find, and the order of the table does not matter. -/
theorem views_agree (h : v.Coherent) (path : Str) :
    ((existsAt path v).1 = .ok true ↔
        Xor (∃ data, (read path v).1 = .ok data) (∃ entries, (list path v).1 = .ok entries)) ∧
      ((existsAt path v).1 ≠ .ok true →
        (∀ data, (read path v).1 ≠ .ok data) ∧ ∀ entries, (list path v).1 ≠ .ok entries) ∧
      (∀ entries, (list path v).1 = .ok entries →
        (entries.map StorageEntry.name).Nodup ∧
        (normalizePath "/".toList path ≠ .ok "/".toList →
          (entries.map StorageEntry.name).Pairwise (· < ·)) ∧
        (∀ n, n ∈ entries.map StorageEntry.name ↔
          IsOrdinary n ∧ (existsAt (path ++ '/' :: n) v).1 = .ok true) ∧
        ∀ e ∈ entries,
          (e.isDir = true ↔ ∃ children, (list (path ++ '/' :: e.name) v).1 = .ok children) ∧
          (e.isDir = false →
            ∃ data, (read (path ++ '/' :: e.name) v).1 = .ok data ∧ e.len = data.length)) ∧
      ∀ table : List EmbeddedFile, table.Perm v.systemFiles →
        (list path { v with systemFiles := table }).1 = (list path v).1 := by
  cases hn : normalizePath "/".toList path with
  | error e =>
    -- a path that does not resolve is the same error to all of them
    obtain ⟨hexists, hread, hlist⟩ := of_unresolved (v := v) hn
    refine ⟨?_, fun _ => ?_, ?_, fun table => list_perm h⟩
    · simp [hexists, hread, hlist, Xor]
    · simp [hread, hlist]
    · simp [hlist]
  | ok p =>
    obtain ⟨cs, hcs, rfl⟩ := rooted_root.normalizePath hn
    have hanswers := h.answers hcs hn
    refine ⟨hanswers.exists_iff_xor, hanswers.errors, fun entries hlist => ⟨?_, ?_, ?_, ?_⟩,
      fun table => list_perm h⟩
    · exact hanswers.nodup entries hlist
    · intro hroot
      refine hanswers.ascending entries hlist ?_
      rintro rfl
      exact hroot rfl
    · exact h.mem_names_iff hcs hn hlist
    · exact fun e he => h.entry_agrees hcs hn hlist he

end

section Example

/-- A machine with the layout, one file in `/user` and one in the table. -/
def furnished : Vfs (BareMetalPlatform NoDisk Keyboard) :=
  ⟨StorageOp.runAll (layout.map StorageOp.createDirAll ++ [.write "user/a".toList [1]])
    (diskless FileTree.empty []), [⟨"/sys/apps/a.rhai".toList, [1]⟩]⟩

theorem coherent_furnished : furnished.Coherent where
  tree := by
    have hpaths : ∀ q ∈ furnished.platform.tree.files.keys ++ furnished.platform.tree.directories.keys,
        IsCanonical q ∧ ∀ c ∈ names q, Plain c := by
      decide +kernel
    have hlengths : ∀ e ∈ furnished.platform.tree.files.entries, e.2.length < 2 ^ 64 := by
      decide +kernel
    refine ⟨fun q hq => ?_, ?_, fun q hq => ?_, fun q data hfile => ?_⟩
    · rw [FileTree.existsAt_iff, ← OrdMap.mem_keys_iff, ← OrdMap.mem_keys_iff, ← List.mem_append] at hq
      exact ⟨names q, (hpaths q hq).2, (hpaths q hq).1.symm⟩
    · refine (StorageOp.runAll_sound FileTree.sound_empty ?_).wellFormed
      decide
    · revert q
      decide +kernel
    · exact hlengths (q, data) (OrdMap.lookup_eq_some_iff.mp hfile)
  table := by
    refine ⟨fun file hfile => ?_, by decide, fun file hfile other hother hbelow => ?_⟩
    · rw [List.mem_singleton.mp hfile]
      exact ⟨["apps".toList, "a.rhai".toList], by decide, by decide, by decide⟩
    · rw [List.mem_singleton.mp hfile, List.mem_singleton.mp hother] at hbelow
      exact hbelow.ne rfl

theorem views_agree_furnished :
    (existsAt "/user/./a".toList furnished).1 = .ok true ∧
      Xor (∃ data, (read "/user/./a".toList furnished).1 = .ok data)
        (∃ entries, (list "/user/./a".toList furnished).1 = .ok entries) := by
  have hexists : (existsAt "/user/./a".toList furnished).1 = .ok true := by decide +kernel
  exact ⟨hexists, (views_agree coherent_furnished "/user/./a".toList).1.mp hexists⟩

end Example

end Vfs

end Afos
