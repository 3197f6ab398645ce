import Afos.Machine
import Afos.Proof.Backends
import Afos.Proof.Package

/-!
# What a new machine shows

A machine that has nothing on its disk, or no disk, is started from a package. The initial files are entered into an
empty tree, under the directories that lead to them (`FileTree.seed_holds`), and the system files stay in their table.
What can be read then are the files of the workspace that were packaged, at their paths (`booted_shows_package`).
Without a disk nothing can go wrong on the way; with one, saving may.

The directories that every machine has were made when the package was, so that no file of it can be in their place:
without a disk `initialize_layout` succeeds, and leaves a file system as all results about its views expect it
(`booted_layout_coherent`).
-/

set_option autoImplicit false

namespace Afos

open Lib

/-! ## Entering the initial files -/

namespace FileTree

/-- The tree holds these files, under directories that lead to them, and nothing else. It determines the tree. -/
structure Holds (t : FileTree) (files : List InitialFile) : Prop where
  sound : t.Sound
  lookup_iff : ∀ q data, t.files.lookup q = some data ↔ ∃ f ∈ files, f.path = q ∧ f.data = data
  directory_iff : ∀ q, t.directories.contains q = true ↔ q ≠ [] ∧ ∃ f ∈ files, Below q f.path

/-- Files that can be entered in any order: none is above another, and none is there twice. -/
structure Independent (files : List InitialFile) : Prop where
  canonical : ∀ f ∈ files, IsCanonical f.path ∧ f.path ≠ []
  apart : ∀ f ∈ files, ∀ g ∈ files, ¬ Below f.path g.path
  nodup : (files.map InitialFile.path).Nodup

theorem Independent.sublist {files files' : List InitialFile} (h : Independent files) (hsub : files'.Sublist files) :
    Independent files' where
  canonical f hf := h.canonical f (hsub.subset hf)
  apart f hf g hg := h.apart f (hsub.subset hf) g (hsub.subset hg)
  nodup := h.nodup.sublist (hsub.map _)

theorem holds_empty : empty.Holds [] := by
  refine ⟨sound_empty, fun q data => ?_, fun q => ?_⟩
  · simp [empty]
  · simp [empty]

theorem Holds.contains_iff {t : FileTree} {files : List InitialFile} (h : t.Holds files) {q : Str} :
    t.files.contains q = true ↔ ∃ f ∈ files, f.path = q := by
  rw [OrdMap.contains_iff]
  constructor
  · rintro ⟨data, hdata⟩
    obtain ⟨f, hf, hpath, -⟩ := (h.lookup_iff q data).mp hdata
    exact ⟨f, hf, hpath⟩
  · rintro ⟨f, hf, hpath⟩
    exact ⟨f.data, (h.lookup_iff q f.data).mpr ⟨f, hf, hpath, rfl⟩⟩

theorem exists_mem_concat {α : Type} {P : α → Prop} {l : List α} {a : α} :
    (∃ x ∈ l ++ [a], P x) ↔ (∃ x ∈ l, P x) ∨ P a := by
  simp [List.mem_append, or_and_right, exists_or]

/-- One more file, with the directories above it. The files that are there already are neither replaced nor in the
    way, since no path of the list is another one or below it. -/
theorem Holds.insertFile {t t₁ : FileTree} {files : List InitialFile} (h : t.Holds files) {f : InitialFile}
    (hall : Independent (files ++ [f])) (he : t.Entered (parent f.path) t₁) :
    (t₁.insertFile f.path f.data).Holds (files ++ [f]) := by
  have hlast : f ∈ files ++ [f] := List.mem_append_right _ (List.mem_singleton.mpr rfl)
  have hother : ∀ g ∈ files, g.path ≠ f.path := by
    have hnodup := hall.nodup
    rw [List.map_append, List.nodup_append] at hnodup
    exact fun g hg => hnodup.2.2 _ (List.mem_map_of_mem hg) _ (List.mem_singleton.mpr rfl)
  -- a directory is above a file that has been entered, and this one is not
  have hdir : t.directories.contains f.path = false := by
    refine Bool.eq_false_iff.mpr fun hd => ?_
    obtain ⟨-, g, hg, hbelow⟩ := (h.directory_iff f.path).mp hd
    exact hall.apart f hlast g (List.mem_append_left _ hg) hbelow
  refine ⟨(h.sound.entered he).insertFile (hall.canonical f hlast).2 he hdir f.data, ?_, ?_⟩
  · intro q data
    rw [FileTree.insertFile, OrdMap.lookup_insert, he.files, exists_mem_concat]
    -- the path of the new file, which no other has, and any other path
    by_cases hq : f.path = q
    · have hnone : ¬ ∃ g ∈ files, g.path = q ∧ g.data = data := by
        rintro ⟨g, hg, hpath, -⟩
        exact hother g hg (hpath.trans hq.symm)
      rw [if_pos hq, Option.some_inj]
      exact ⟨fun hdata => Or.inr ⟨hq, hdata⟩, fun hor => (hor.resolve_left hnone).2⟩
    · rw [if_neg hq, h.lookup_iff]
      exact ⟨Or.inl, fun hor => hor.resolve_right fun hf => hq hf.1⟩
  · intro q
    show t₁.directories.contains q = true ↔ _
    rw [he.directories, h.directory_iff, exists_mem_concat, and_or_left]
    -- the directories that were made are those above the file
    exact or_congr_right ⟨fun hleads => ⟨hleads.1, (leads_parent_iff hleads.1).mp hleads⟩,
      fun habove => (leads_parent_iff habove.1).mpr habove.2⟩

/-- One round of `seed`. The directories can be made, since no file that has been entered is above this one. -/
theorem Holds.enter {t : FileTree} {files : List InitialFile} (h : t.Holds files) {f : InitialFile}
    (hall : Independent (files ++ [f])) :
    ∃ t₁, addParents (parent f.path) t = (.ok (), t₁) ∧ (t₁.insertFile f.path f.data).Holds (files ++ [f]) := by
  have hlast : f ∈ files ++ [f] := List.mem_append_right _ (List.mem_singleton.mpr rfl)
  have hparent := isCanonical_parent (hall.canonical f hlast).1
  rcases h.sound.wellFormed.addParents_cases hparent with ⟨t₁, hadd, he⟩ | ⟨p, -, hleads, hp⟩
  · exact ⟨t₁, hadd, h.insertFile hall he⟩
  · obtain ⟨g, hg, rfl⟩ := h.contains_iff.mp hp
    exact absurd ((leads_parent_iff hleads.1).mp hleads) (hall.apart g (List.mem_append_left _ hg) f hlast)

/-- All the files, one after the other, with those that have been entered as the invariant. No step can fail. -/
theorem seed_holds {files : List InitialFile} : ∀ {t : FileTree} {before : List InitialFile}, t.Holds before →
    Independent (before ++ files) → ∃ t', seed files t = (.ok (), t') ∧ t'.Holds (before ++ files) := by
  -- on the files still to be entered, for any tree that holds those before them
  induction files with
  | nil =>
    intro t before h _
    exact ⟨t, rfl, by rwa [List.append_nil]⟩
  | cons f files ih =>
    intro t before h hall
    have hprefix : Independent (before ++ [f]) :=
      hall.sublist (List.Sublist.append_left (List.singleton_sublist.mpr List.mem_cons_self) before)
    obtain ⟨t₁, hadd, hholds⟩ := h.enter hprefix
    obtain ⟨t', hseed, ht'⟩ := ih hholds (by rwa [List.append_assoc, List.singleton_append])
    refine ⟨t', ?_, by rwa [List.append_assoc, List.singleton_append] at ht'⟩
    rw [seed, Op.run_bind_ok hadd, Op.run_bind, Op.run_modify]
    exact hseed

end FileTree

/-! ## A machine with nothing on its disk -/

namespace BareMetalPlatform

variable {D η : Type} [BlockDevice D] [Hardware η] {files : List InitialFile} {block : Option D}
  {store : Option (SnapshotStore D)}

/-- The platform that saves for the first time, with the clock started and the initial files in its tree. -/
def seeded (counterFrequency : Nat) (store : Option (SnapshotStore D)) (hardware : η) (tree : FileTree) :
    BareMetalPlatform D η where
  tree := tree
  persistence := store
  hardware := (Hardware.counter hardware).2
  started := (Hardware.counter hardware).1
  counterFrequency := counterFrequency

/-- A machine that has found nothing is one that has entered the initial files and saved them. -/
theorem new_of_nothing (hfiles : FileTree.Independent files)
    (hopen : openPersistence block = .ok (store, none)) (counterFrequency : Nat) (hardware : η) :
    ∃ tree : FileTree, tree.Holds files ∧ new counterFrequency files block hardware =
      (persist (seeded counterFrequency store hardware tree)).1.map fun _ =>
        (persist (seeded counterFrequency store hardware tree)).2 := by
  obtain ⟨tree, hseed, hholds⟩ := FileTree.seed_holds FileTree.holds_empty hfiles
  refine ⟨tree, hholds, ?_⟩
  -- seeding is entering the files and then saving, from an empty tree
  have hseeded : seedIfEmpty files (seeded counterFrequency store hardware FileTree.empty) =
      persist (seeded counterFrequency store hardware tree) := by
    have hon : onTree (FileTree.seed files) (seeded counterFrequency store hardware FileTree.empty) =
        (.ok (), seeded counterFrequency store hardware tree) := by
      rw [onTree, Op.run_zoom]
      simp only [seeded, hseed]
    exact Op.run_bind_ok hon fun _ => persist
  rw [new, hopen]
  simp only [bind, Except.bind]
  split
  · rename_i p hrun
    rw [hseeded.symm.trans hrun]
    rfl
  · rename_i e p hrun
    rw [hseeded.symm.trans hrun]
    rfl

theorem new_holds (hfiles : FileTree.Independent files) (hopen : openPersistence block = .ok (store, none))
    {counterFrequency : Nat} {hardware : η} {p : BareMetalPlatform D η}
    (hnew : new counterFrequency files block hardware = .ok p) : p.tree.Holds files := by
  obtain ⟨tree, hholds, heq⟩ := new_of_nothing hfiles hopen counterFrequency hardware
  obtain ⟨_, -, rfl⟩ := Directory.exists_of_map_eq_ok (heq.symm.trans hnew)
  rw [persist_tree]
  exact hholds

theorem new_diskless (hfiles : FileTree.Independent files) (counterFrequency : Nat) (hardware : η) :
    ∃ p, new counterFrequency files (none : Option D) hardware = .ok p ∧ p.persistence = none := by
  have hopen : openPersistence (none : Option D) = .ok (none, none) := rfl
  obtain ⟨tree, -, heq⟩ := new_of_nothing hfiles hopen counterFrequency hardware
  exact ⟨_, heq, rfl⟩

end BareMetalPlatform

/-! ## Reading the package back -/

namespace IsBundle

variable {bundle : List BundleFile} {staged : SourceDir}

theorem independent (h : IsBundle bundle staged) : FileTree.Independent (BundleFile.sorted bundle).mutable where
  canonical f hf := (h.initial_files f hf).1
  apart f hf := (h.initial_files f hf).2
  nodup := by
    have hpaths : (BundleFile.sorted bundle).mutable.map InitialFile.path =
        (bundle.filter (!BundleFile.isSystem ·)).map fun f => join f.1 := by
      rw [BundleFile.sorted, List.map_map]
      rfl
    rw [hpaths]
    exact h.nodup_paths _

theorem eq_of_path (h : IsBundle bundle staged) {f g : BundleFile} (hf : f ∈ bundle) (hg : g ∈ bundle)
    (hpath : f.1 = g.1) : f = g :=
  List.inj_on_of_nodup_map h.nodup hf hg hpath

theorem path_eq (h : IsBundle bundle staged) {f : BundleFile} (hf : f ∈ bundle) {cs : List Str}
    (hcs : ∀ c ∈ cs, Plain c) (hjoin : join f.1 = join cs) : f.1 = cs :=
  join_injective (isName_of_plain (h.paths f hf).plain) (isName_of_plain hcs) hjoin

variable {D η : Type} {v : Vfs (BareMetalPlatform D η)} {cs : List Str} {data : Bytes}

/-- What is in the table at a path is what the bundle has there, in the mount of the system. -/
theorem systemFile_iff (h : IsBundle bundle staged) (htable : v.systemFiles = (BundleFile.sorted bundle).system)
    (hcs : ∀ c ∈ cs, Plain c) :
    (∃ file, v.systemFile ('/' :: join cs) = some file ∧ file.data = data) ↔
      (cs, data) ∈ bundle ∧ BundleFile.isSystem (cs, data) = true := by
  -- a file of the table with this path is the one of the bundle
  have hfound : ∀ {file}, v.systemFile ('/' :: join cs) = some file →
      (cs, file.data) ∈ bundle ∧ BundleFile.isSystem (cs, file.data) = true := by
    intro file hfile
    obtain ⟨hmem, hpath⟩ := Vfs.path_of_systemFile hfile
    rw [htable] at hmem
    obtain ⟨f, hf, rfl⟩ := List.mem_map.mp hmem
    obtain ⟨hf, hsystem⟩ := List.mem_filter.mp hf
    obtain rfl := h.path_eq hf hcs (List.cons.inj hpath).2
    exact ⟨hf, hsystem⟩
  constructor
  · rintro ⟨file, hfile, rfl⟩
    exact hfound hfile
  · rintro ⟨hmem, hsystem⟩
    have hembedded : BundleFile.embedded (cs, data) ∈ v.systemFiles := by
      rw [htable]
      exact List.mem_map_of_mem (List.mem_filter.mpr ⟨hmem, hsystem⟩)
    -- the first file of the table with this path is the only one
    cases hfile : v.systemFile ('/' :: join cs) with
    | none =>
      have hno := List.find?_eq_none.mp hfile _ hembedded
      exact absurd (beq_self_eq_true _) hno
    | some file =>
      have hsame := h.eq_of_path (hfound hfile).1 hmem rfl
      exact ⟨file, rfl, congrArg Prod.snd hsame⟩

theorem lookup_iff (h : IsBundle bundle staged) {t : FileTree} (ht : t.Holds (BundleFile.sorted bundle).mutable)
    (hcs : ∀ c ∈ cs, Plain c) :
    t.files.lookup (join cs) = some data ↔ (cs, data) ∈ bundle ∧ BundleFile.isSystem (cs, data) = false := by
  rw [ht.lookup_iff]
  constructor
  · rintro ⟨file, hfile, hpath, rfl⟩
    obtain ⟨f, hf, rfl⟩ := List.mem_map.mp hfile
    obtain ⟨hf, hsystem⟩ := List.mem_filter.mp hf
    obtain rfl := h.path_eq hf hcs hpath
    exact ⟨hf, Bool.not_eq_true' _ ▸ hsystem⟩
  · rintro ⟨hmem, hsystem⟩
    exact ⟨BundleFile.initial (cs, data), List.mem_map_of_mem (List.mem_filter.mpr ⟨hmem, by rw [hsystem]; rfl⟩),
      rfl, rfl⟩

variable [BlockDevice D] [Hardware η]

/-- What can be read is what is in the bundle, whatever directories there are. Reading is routed by the first name of
    the path, as the files were sorted by it. -/
theorem read_iff (h : IsBundle bundle staged) (hmounted : bundle.all BundleFile.isMounted = true)
    (htable : v.systemFiles = (BundleFile.sorted bundle).system) {t : FileTree}
    (ht : t.Holds (BundleFile.sorted bundle).mutable) (htree : v.platform.tree.WellFormed)
    (hfiles : v.platform.tree.files = t.files) (hcs : ∀ c ∈ cs, Plain c) :
    (Vfs.read ('/' :: join cs) v).1 = .ok data ↔ (cs, data) ∈ bundle := by
  have hnames := isName_of_plain hcs
  have hsystem : BundleFile.isSystem (cs, data) = isPathPrefix "/sys".toList ('/' :: join cs) := by
    rw [Bool.eq_iff_iff, Vfs.isPathPrefix_sys_iff hnames]
    exact BundleFile.isIn_iff
  rw [Vfs.read_eq_routed, Vfs.routed_of_normalized (normalizePath_slash_join hcs _), ← hsystem]
  cases hsys : BundleFile.isSystem (cs, data) with
  | true =>
    -- the path is in `/sys`, and its files are in the table
    rw [if_pos rfl, Vfs.readSystem_ok_iff, ← Vfs.systemFile_eq_some_iff, h.systemFile_iff htable hcs, hsys]
    exact and_iff_left rfl
  | false =>
    rw [if_neg Bool.false_ne_true]
    cases hpath : Vfs.persistentPath ('/' :: join cs) with
    | error e =>
      -- outside of the mounts nothing can be read, and nothing of the bundle is there
      refine iff_of_false (fun heq => (by cases heq)) fun hmem => ?_
      have hmount := List.all_eq_true.mp hmounted _ hmem
      rw [BundleFile.isMounted, hsys, Bool.false_or, Bool.or_eq_true, BundleFile.isIn_iff,
        BundleFile.isIn_iff] at hmount
      cases hpath.symm.trans ((Vfs.persistentPath_ok_iff hnames).mpr ⟨rfl, hmount⟩)
    | ok q =>
      obtain ⟨rfl, -⟩ := (Vfs.persistentPath_ok_iff hnames).mp hpath
      have hread : (BareMetalPlatform.storageRead (join cs) v.platform).1 = .ok data ↔ _ :=
        BareMetalPlatform.storageRead_ok_iff htree
      rw [FileTree.node_eq_file_iff, hfiles, h.lookup_iff ht hcs, hsys] at hread
      exact hread.trans (and_iff_left rfl)

end IsBundle

/-! ## Making the layout -/

section Layout

variable {D η : Type} [BlockDevice D] [Hardware η]

omit [Hardware η] in
theorem BareMetalPlatform.storageCreateDirAll_diskless {p : BareMetalPlatform D η} (h : p.tree.Sound)
    (hdisk : p.persistence = none) {q : Str} (hq : IsCanonical q)
    (hclear : ∀ r, Leads r q → p.tree.files.contains r = false) :
    ∃ t, p.tree.Entered q t ∧ storageCreateDirAll q p = (.ok (), { p with tree := t }) := by
  rcases h.wellFormed.addParents_cases hq with ⟨t, hadd, he⟩ | ⟨r, -, hleads, hr⟩
  · refine ⟨t, he, ?_⟩
    simp only [storageCreateDirAll, Op.run_bind, Op.run_read, run_onTree, hadd]
    exact commit_diskless (p := { p with tree := t }) hdisk p.tree
  · rw [hclear r hleads] at hr
    cases hr

namespace Vfs

/-- What is left when these directories have been made: the same files, and the directories that lead to them. -/
structure Furnished (paths : List Str) (v v' : Vfs (BareMetalPlatform D η)) : Prop where
  sound : v'.platform.tree.Sound
  files : v'.platform.tree.files = v.platform.tree.files
  directories : ∀ r, v'.platform.tree.directories.contains r = true ↔
    v.platform.tree.directories.contains r = true ∨ ∃ q ∈ paths, Leads r q
  systemFiles : v'.systemFiles = v.systemFiles

/-- Without a disk and with no file in the way, all of the directories can be made. -/
theorem forM_createDirAll_diskless {paths : List Str} : ∀ {v : Vfs (BareMetalPlatform D η)}, v.platform.tree.Sound →
    v.platform.persistence = none →
    (∀ q ∈ paths, IsCanonical q ∧ ∀ r, Leads r q → v.platform.tree.files.contains r = false) →
    ∃ v', (paths.forM fun path => onPlatform (Platform.storageCreateDirAll path)) v = (.ok (), v') ∧
      Furnished paths v v' := by
  induction paths with
  | nil =>
    intro v h _ _
    exact ⟨v, rfl, h, rfl, by simp, rfl⟩
  | cons path paths ih =>
    intro v h hdisk hpaths
    obtain ⟨hcanonical, hclear⟩ := hpaths path List.mem_cons_self
    obtain ⟨t, he, hrun⟩ := BareMetalPlatform.storageCreateDirAll_diskless h hdisk hcanonical hclear
    have hcall : onPlatform (Platform.storageCreateDirAll path) v =
        (.ok (), { v with platform := { v.platform with tree := t } }) := by
      have hplatform : Platform.storageCreateDirAll path v.platform = _ := hrun
      rw [onPlatform, Op.run_zoom, hplatform]
    -- the files stay, and so nothing comes in the way of the others
    obtain ⟨v', hrest, hf⟩ := ih (v := { v with platform := { v.platform with tree := t } }) (h.entered he) hdisk
      fun q hq => ⟨(hpaths q (List.mem_cons_of_mem _ hq)).1, fun r hr => by
        rw [he.files]
        exact (hpaths q (List.mem_cons_of_mem _ hq)).2 r hr⟩
    refine ⟨v', (Op.run_bind_ok hcall _).trans hrest, hf.sound, hf.files.trans he.files, fun r => ?_, hf.systemFiles⟩
    rw [hf.directories, he.directories]
    simp only [List.mem_cons, exists_eq_or_imp, or_assoc]

end Vfs

end Layout

namespace IsBundle

variable {bundle : List BundleFile} {staged : SourceDir} {t : FileTree}

/-- Each directory of the layout was made when the package was, so no file is in its place or above it. -/
theorem clear_layout (h : IsBundle bundle staged)
    (hfree : ∀ f ∈ staged.files, ∀ path ∈ bundleDirectories, ¬ f.1 <+: path)
    (ht : t.Holds (BundleFile.sorted bundle).mutable) {q r : Str} (hq : q ∈ Vfs.layout) (hr : Leads r q) :
    t.files.contains r = false := by
  have hlayout : ∀ q ∈ Vfs.layout, IsCanonical q ∧ ∃ path ∈ bundleDirectories, (names q).map asBytes <+: path := by
    decide +kernel
  obtain ⟨hcanonical, path, hpath, hprefix⟩ := hlayout q hq
  refine Bool.eq_false_iff.mpr fun hcontains => ?_
  obtain ⟨file, hfile, rfl⟩ := ht.contains_iff.mp hcontains
  obtain ⟨f, hf, rfl⟩ := List.mem_map.mp hfile
  have hmem := List.mem_of_mem_filter hf
  rw [← hcanonical] at hr
  obtain ⟨a, b, -, hab, hjoin⟩ := (leads_join_iff (names_isName q)).mp hr
  have hnames : ∀ c ∈ a, IsName c := fun c hc => names_isName q c (hab ▸ List.mem_append_left b hc)
  have hpath' : f.1 = a := join_injective (isName_of_plain (h.paths f hmem).plain) hnames hjoin
  refine hfree f.onHost (h.mem_files hmem) path hpath (List.IsPrefix.trans ?_ hprefix)
  rw [hab, List.map_append, BundleFile.onHost, hpath']
  exact List.prefix_append _ _

variable {D η : Type} {v v' : Vfs (BareMetalPlatform D η)}

/-- The tree is proper, once the layout has been made: the bundle need not have all of the directories that the checks
    ask for. -/
theorem proper (h : IsBundle bundle staged) (ht : v.platform.tree.Holds (BundleFile.sorted bundle).mutable)
    (hf : Vfs.Furnished Vfs.layout v v') (hlengths : ∀ f ∈ bundle, f.2.length < 2 ^ 64) :
    v'.platform.tree.Proper where
  canonical q hq := by
    rw [FileTree.existsAt_iff, hf.files, hf.directories, ht.contains_iff, ht.directory_iff] at hq
    -- a file, a directory above one, or a directory of the layout
    rcases hq with ⟨file, hfile, rfl⟩ | ⟨hne, file, hfile, hbelow⟩ | ⟨p, hp, hleads⟩
    · obtain ⟨f, hmem, rfl⟩ := List.mem_map.mp hfile
      exact ⟨f.1, (h.paths f (List.mem_of_mem_filter hmem)).plain, rfl⟩
    · obtain ⟨f, hmem, rfl⟩ := List.mem_map.mp hfile
      have hplain := (h.paths f (List.mem_of_mem_filter hmem)).plain
      obtain ⟨a, b, -, hab, rfl⟩ := (leads_join_iff (isName_of_plain hplain)).mp ⟨hne, Or.inr hbelow⟩
      exact ⟨a, fun c hc => hplain c (hab ▸ List.mem_append_left b hc), rfl⟩
    · have hlayout : ∀ q ∈ Vfs.layout, IsCanonical q ∧ ∀ c ∈ names q, Plain c := by decide +kernel
      obtain ⟨hcanonical, hplain⟩ := hlayout q (leads_layout hp hleads)
      exact ⟨names q, hplain, hcanonical.symm⟩
  wellFormed := hf.sound.wellFormed
  layout q hq := by
    have hne : ∀ q ∈ Vfs.layout, q ≠ [] := by decide
    exact (hf.directories q).mpr (Or.inr ⟨q, hq, hne q hq, Or.inl rfl⟩)
  lengths q data hlookup := by
    rw [hf.files, ht.lookup_iff] at hlookup
    obtain ⟨file, hfile, -, rfl⟩ := hlookup
    obtain ⟨f, hmem, rfl⟩ := List.mem_map.mp hfile
    exact hlengths f (List.mem_of_mem_filter hmem)

end IsBundle

/-! ## From the workspace to the shell -/

/-- The files of a workspace that are packaged: those on whose path nothing is called `.gitkeep`. -/
def packaged (source : SourceDir) : List (List OsName × Bytes) := source.files.filter fun f => f.1.all keeps

/-- Whether a file of the workspace is a mount or in it, by the first name of its path. -/
def inMount (mount : Str) (f : List OsName × Bytes) : Bool := f.1.head? == some (asBytes mount)

theorem BundleFile.inMount_onHost (f : BundleFile) (mount : Str) : inMount mount f.onHost = f.isIn mount := by
  rw [Bool.eq_iff_iff, inMount, isIn, beq_iff_eq, beq_iff_eq, onHost, List.head?_map]
  cases f.1.head? with
  | none => simp
  | some c => simp [asBytes_injective.eq_iff]

variable {D η : Type} [BlockDevice D] [Hardware η]

/-- What it takes for the machine to start, step by step. Each part is what one call of `fail` asks for the opposite
    of, in their order. -/
theorem start_eq_ok_iff {boot : BootResponses} {block : Option D} {hardware : η} {rhai : AppRuntime}
    {shell : Shell (BareMetalPlatform D η)} :
    start boot block hardware rhai = .ok shell ↔
      boot.revisionSupported = true ∧ (∃ region, initializeHeap boot.hhdm boot.memoryMap = .ok region) ∧
        ∃ modules files platform, boot.modules = some modules ∧ loadBootFiles modules = some files ∧
          BareMetalPlatform.new ((boot.tscFrequency.map (max · 1)).getD 1000000) files.mutable block hardware =
            .ok platform ∧
          shell = ⟨System.withVfs ⟨platform, files.system⟩, [rhai], "/user".toList⟩ := by
  unfold start
  -- the steps in the order of `_start`; each that fails ends it
  cases hrevision : boot.revisionSupported with
  | false => simp
  | true =>
    cases hheap : initializeHeap boot.hhdm boot.memoryMap with
    | error e => simp [bind, Except.bind]
    | ok region =>
      cases hmodules : boot.modules with
      | none => simp [bind, Except.bind]
      | some modules =>
        cases hfiles : loadBootFiles modules with
        | none => simp [bind, Except.bind, hfiles]
        | some files =>
          cases hnew : BareMetalPlatform.new ((boot.tscFrequency.map (max · 1)).getD 1000000) files.mutable block
              hardware with
          | error e => simp [bind, Except.bind, hfiles, hnew]
          | ok platform => simp [bind, Except.bind, hfiles, hnew, RuntimeRegistry.register, eq_comm]

/-- What `start` has made of a bundle: the table, and a platform with the other files. -/
theorem start_bundle {bundle : List BundleFile} {staged : SourceDir} (hbundle : IsBundle bundle staged)
    {boot : BootResponses} (hmodules : boot.modules = some (bundle.map BundleFile.module)) {block : Option D}
    {hardware : η} {rhai : AppRuntime} {shell : Shell (BareMetalPlatform D η)}
    (hstart : start boot block hardware rhai = .ok shell) :
    bundle.all BundleFile.isMounted = true ∧ shell.system.vfs.systemFiles = (BundleFile.sorted bundle).system ∧
      BareMetalPlatform.new ((boot.tscFrequency.map (max · 1)).getD 1000000) (BundleFile.sorted bundle).mutable block
        hardware = .ok shell.system.vfs.platform := by
  obtain ⟨-, -, modules, files, platform, hfrom, hfiles, hnew, rfl⟩ := start_eq_ok_iff.mp hstart
  obtain rfl : bundle.map BundleFile.module = modules := Option.some.inj (hmodules.symm.trans hfrom)
  rw [BundleFile.loadBootFiles_bundle hbundle.paths] at hfiles
  split at hfiles
  · rename_i hall
    obtain rfl := Option.some.inj hfiles
    exact ⟨(Bool.and_eq_true_iff.mp hall).1, rfl, hnew⟩
  · cases hfiles

section Package

variable {workspace package root : Str} {source staged : SourceDir} {names : List Str} {boot : BootResponses}
  (hsource : source.Distinct) (hhost : ∀ f ∈ source.files, ∀ n ∈ f.1, IsHostName n)
  (hstage : stageFilesystem workspace package source = .ok staged) (hnames : bundleFiles root staged = .ok names)
  (hloader : boot.modules = readModules (imageFile staged) (lines (limineConfig names)))

include hsource hhost hstage hnames hloader

theorem exists_bundle_packaged : ∃ bundle, IsBundle bundle staged ∧
    boot.modules = some (bundle.map BundleFile.module) ∧
    ∀ g, g ∈ packaged source ↔ g ∈ bundle.map BundleFile.onHost := by
  obtain ⟨bundle, hbundle, hmodules⟩ := exists_bundle hsource hhost hstage hnames
  refine ⟨bundle, hbundle, hloader.trans hmodules, fun g => ?_⟩
  rw [packaged, ← (staged_of_stageFilesystem hsource hstage).files, hbundle.perm.mem_iff]

/-- A machine without a disk starts: it has nothing that it could fail to read or to save, and what is left to ask is
    asked of the loader and of the bundle. -/
theorem start_diskless (hrevision : boot.revisionSupported = true)
    (hheap : ∃ region, initializeHeap boot.hhdm boot.memoryMap = .ok region)
    (hmounted : ∀ f ∈ packaged source, inMount "sys".toList f || inMount "apps".toList f || inMount "user".toList f)
    (hsystem : ∃ f ∈ packaged source, inMount "sys".toList f) (hardware : η) (rhai : AppRuntime) :
    ∃ shell, start boot (none : Option D) hardware rhai = .ok shell := by
  obtain ⟨bundle, hbundle, hmodules, hpackaged⟩ := exists_bundle_packaged hsource hhost hstage hnames hloader
  -- all files are in the mounts and one is in `/sys`, so the kernel takes the modules
  have hall : bundle.all BundleFile.isMounted = true := List.all_eq_true.mpr fun f hf => by
    have hin := hmounted f.onHost ((hpackaged f.onHost).mpr (List.mem_map_of_mem hf))
    rw [f.inMount_onHost, f.inMount_onHost, f.inMount_onHost] at hin
    exact hin
  have hany : bundle.any BundleFile.isSystem = true := by
    obtain ⟨g, hg, hsystem⟩ := hsystem
    obtain ⟨f, hf, rfl⟩ := List.mem_map.mp ((hpackaged g).mp hg)
    rw [f.inMount_onHost] at hsystem
    exact List.any_eq_true.mpr ⟨f, hf, hsystem⟩
  have hload := BundleFile.loadBootFiles_bundle hbundle.paths
  rw [hall, hany] at hload
  obtain ⟨platform, hnew, -⟩ := BareMetalPlatform.new_diskless (D := D) hbundle.independent
    ((boot.tscFrequency.map (max · 1)).getD 1000000) hardware
  exact ⟨_, start_eq_ok_iff.mpr ⟨hrevision, hheap, _, _, platform, hmodules, hload, hnew, rfl⟩⟩

/-- A machine on whose disk nothing is found, or that has none, is started from a package. If it has no disk and the
    boot loader has done its part, it starts whenever all files are in the mounts and one is in `/sys`. When it has
    started, what can be read at a path is what is packaged from this path of the workspace. -/
theorem booted_shows_package {block : Option D} {store : Option (SnapshotStore D)}
    (hopen : BareMetalPlatform.openPersistence block = .ok (store, none)) (hardware : η) (rhai : AppRuntime) :
    (block = none → boot.revisionSupported = true →
      (∃ region, initializeHeap boot.hhdm boot.memoryMap = .ok region) →
      (∀ f ∈ packaged source, inMount "sys".toList f || inMount "apps".toList f || inMount "user".toList f) →
      (∃ f ∈ packaged source, inMount "sys".toList f) → ∃ shell, start boot block hardware rhai = .ok shell) ∧
    ∀ shell, start boot block hardware rhai = .ok shell → ∀ (cs : List Str) (data : Bytes), (∀ c ∈ cs, Plain c) →
      ((Vfs.read ('/' :: join cs) shell.system.vfs).1 = .ok data ↔ (cs.map asBytes, data) ∈ packaged source) := by
  constructor
  · rintro rfl hrevision hheap hmounted hsystem
    exact start_diskless hsource hhost hstage hnames hloader hrevision hheap hmounted hsystem hardware rhai
  · intro shell hstart cs data hcs
    obtain ⟨bundle, hbundle, hmodules, hpackaged⟩ := exists_bundle_packaged hsource hhost hstage hnames hloader
    obtain ⟨hall, htable, hnew⟩ := start_bundle hbundle hmodules hstart
    have hholds := BareMetalPlatform.new_holds hbundle.independent hopen hnew
    rw [hbundle.read_iff hall htable hholds hholds.sound.wellFormed rfl hcs, hpackaged]
    exact (List.mem_map_of_injective BundleFile.onHost_injective).symm

/-- On a machine without a disk that has been started from a package the directories of the layout can be made. With
    them the file system is coherent, and it still shows the package. -/
theorem booted_layout_coherent (hsys : ∀ f ∈ packaged source, f.1 ≠ [asBytes "sys".toList])
    (hlengths : ∀ f ∈ packaged source, f.2.length < 2 ^ 64) {hardware : η} {rhai : AppRuntime}
    {shell : Shell (BareMetalPlatform D η)} (hstart : start boot none hardware rhai = .ok shell) :
    ∃ v, Vfs.initializeLayout shell.system.vfs = (.ok (), v) ∧ v.Coherent ∧
      ∀ (cs : List Str) (data : Bytes), (∀ c ∈ cs, Plain c) →
        ((Vfs.read ('/' :: join cs) v).1 = .ok data ↔ (cs.map asBytes, data) ∈ packaged source) := by
  obtain ⟨bundle, hbundle, hmodules, hpackaged⟩ := exists_bundle_packaged hsource hhost hstage hnames hloader
  have hin : ∀ f ∈ bundle, f.onHost ∈ packaged source := fun f hf => (hpackaged f.onHost).mpr (List.mem_map_of_mem hf)
  obtain ⟨hall, htable, hnew⟩ := start_bundle hbundle hmodules hstart
  obtain ⟨p, hnew', hdisk⟩ := BareMetalPlatform.new_diskless (D := D) hbundle.independent
    ((boot.tscFrequency.map (max · 1)).getD 1000000) hardware
  obtain rfl : shell.system.vfs.platform = p := Except.ok.inj (hnew.symm.trans hnew')
  have hopen : BareMetalPlatform.openPersistence (none : Option D) = .ok (none, none) := rfl
  have hholds := BareMetalPlatform.new_holds hbundle.independent hopen hnew
  have hcanonical : ∀ q ∈ Vfs.layout, IsCanonical q := by decide
  obtain ⟨v, hlayout, hf⟩ := Vfs.forM_createDirAll_diskless hholds.sound hdisk fun q hq =>
    ⟨hcanonical q hq, fun _ => hbundle.clear_layout (staged_of_stageFilesystem hsource hstage).free hholds hq⟩
  have hsystem : v.systemFiles = (BundleFile.sorted bundle).system := hf.systemFiles.trans htable
  refine ⟨v, hlayout, ⟨hbundle.proper hholds hf fun f hmem => hlengths f.onHost (hin f hmem), ?_⟩, fun cs data hcs => ?_⟩
  · rw [hsystem]
    refine hbundle.isTable fun f hmem heq => hsys f.onHost (hin f hmem) ?_
    rw [BundleFile.onHost, heq]
    rfl
  · rw [hbundle.read_iff hall hsystem hholds hf.sound.wellFormed hf.files hcs, hpackaged]
    exact (List.mem_map_of_injective BundleFile.onHost_injective).symm

end Package

/-- A loader that has found 16 MiB of memory. -/
def smallBoot (modules : Option (List LimineFile)) : BootResponses :=
  ⟨true, some 0xffff800000000000, some [⟨0x100000, 0x1000000, 0⟩], modules, none⟩

theorem smallBoot_modules (modules : Option (List LimineFile)) : (smallBoot modules).modules = modules := rfl

theorem initializeHeap_smallBoot (modules : Option (List LimineFile)) :
    ∃ region, initializeHeap (smallBoot modules).hhdm (smallBoot modules).memoryMap = .ok region := by
  have hheap : initializeHeap (some 0xffff800000000000) (some [⟨0x100000, 0x1000000, 0⟩]) =
      .ok (0xffff800000100000, 0x1000000) := by decide +kernel
  exact ⟨_, hheap⟩

theorem packaged_smallSource : packaged smallSource = smallBundle.map BundleFile.onHost := by decide +kernel

def smallRuntime : AppRuntime := ⟨"rhai".toList, fun _ _ _ _ => .done (.ok 0)⟩

theorem booted_shows_package_small :
    ∃ (modules : Option (List LimineFile)) (shell : Shell (BareMetalPlatform NoDisk Keyboard)),
      start (smallBoot modules) none ⟨[]⟩ smallRuntime = .ok shell ∧
        (Vfs.read "/sys/a".toList shell.system.vfs).1 = .ok [1] ∧
        (Vfs.read "/user/docs/c".toList shell.system.vfs).1 = .ok [4] := by
  obtain ⟨staged, names, hstage, hnames⟩ := exists_smallStage
  have hopen : BareMetalPlatform.openPersistence (none : Option NoDisk) = .ok (none, none) := rfl
  obtain ⟨hstarts, hreads⟩ := booted_shows_package (η := Keyboard) distinct_smallSource isHostName_smallSource hstage
    hnames (smallBoot_modules _) hopen ⟨[]⟩ smallRuntime
  rw [packaged_smallSource] at hstarts hreads
  obtain ⟨shell, hshell⟩ := hstarts rfl rfl (initializeHeap_smallBoot _) (by decide) (by decide)
  exact ⟨_, shell, hshell, (hreads shell hshell ["sys".toList, "a".toList] [1] (by decide)).mpr (by decide),
    (hreads shell hshell ["user".toList, "docs".toList, "c".toList] [4] (by decide)).mpr (by decide)⟩

theorem booted_layout_coherent_small :
    ∃ (modules : Option (List LimineFile)) (shell : Shell (BareMetalPlatform NoDisk Keyboard)) (v : Vfs _),
      start (smallBoot modules) none ⟨[]⟩ smallRuntime = .ok shell ∧
        Vfs.initializeLayout shell.system.vfs = (.ok (), v) ∧ v.Coherent ∧
        (Vfs.read "/apps/b".toList v).1 = .ok [2, 3] := by
  obtain ⟨staged, names, hstage, hnames⟩ := exists_smallStage
  obtain ⟨shell, hshell⟩ := start_diskless (D := NoDisk) (η := Keyboard) distinct_smallSource isHostName_smallSource
    hstage hnames (smallBoot_modules _) rfl (initializeHeap_smallBoot _) (by rw [packaged_smallSource]; decide)
    (by rw [packaged_smallSource]; decide) ⟨[]⟩ smallRuntime
  obtain ⟨v, hlayout, hcoherent, hreads⟩ := booted_layout_coherent distinct_smallSource isHostName_smallSource hstage hnames
    (smallBoot_modules _) (by rw [packaged_smallSource]; decide) (by rw [packaged_smallSource]; decide) hshell
  refine ⟨_, shell, v, hshell, hlayout, hcoherent, (hreads ["apps".toList, "b".toList] [2, 3] (by decide)).mpr ?_⟩
  rw [packaged_smallSource]
  decide

end Afos
