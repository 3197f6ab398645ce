import Afos.Boot
import Afos.Lib.Lines
import Afos.Lib.Utf8
import Afos.Proof.Path
import Afos.Proof.Views

/-!
# From the workspace to the kernel

What is packaged goes through a text that the boot loader reads, and through the names of its modules back to paths. On
the way nothing is lost and nothing is mixed up (`boot_files_of_package`): the kernel gets, for each file of the
workspace that is packaged, its path and its content, or it stops because there is a file outside of the three mounts
or none in `/sys`.

That the names are text without line ends is what `bundle_files` checks; that they are the names of directory entries
is the host's business. A backslash is the one thing that gets a name wrong: it is taken for a slash.
-/

set_option autoImplicit false

namespace Afos

open Lib

/-! ## Paths as bytes and as text -/

/-- What an entry of a host directory can be called, but for a backslash in it. A host of another kind may forbid
    more. -/
@[mk_iff]
structure IsHostName (name : OsName) : Prop where
  ne_nil : name ≠ []
  no_slash : UInt8.ofNat '/'.toNat ∉ name
  no_backslash : UInt8.ofNat '\\'.toNat ∉ name
  ne_dot : name ≠ asBytes ".".toList
  ne_dots : name ≠ asBytes "..".toList

instance (name : OsName) : Decidable (IsHostName name) := decidable_of_iff' _ (isHostName_iff name)

theorem asBytes_append (s t : Str) : asBytes (s ++ t) = asBytes s ++ asBytes t := List.flatMap_append

theorem asBytes_join : ∀ cs : List Str, asBytes (join cs) = pathBytes (cs.map asBytes)
  | [] => rfl
  | [c] => by simp [pathBytes, join]
  | c :: d :: cs => by
    have htail : asBytes (join (d :: cs)) = pathBytes ((d :: cs).map asBytes) := asBytes_join (d :: cs)
    rw [join_cons_cons, asBytes_append, show '/' :: join (d :: cs) = ['/'] ++ join (d :: cs) from rfl, asBytes_append,
      htail]
    simp [pathBytes, List.intercalate]

/-- A path whose bytes are text is made of texts, because a slash is one byte that is part of no other character. -/
theorem exists_text_of_pathBytes {path : List OsName} (hne : path ≠ [])
    (hnames : ∀ n ∈ path, UInt8.ofNat '/'.toNat ∉ n) {text : Str} (h : asBytes text = pathBytes path) :
    ∃ cs : List Str, path = cs.map asBytes ∧ text = join cs := by
  refine ⟨text.splitOn '/', ?_, (join_splitOn text).symm⟩
  have hsplit : ∀ n ∈ (text.splitOn '/').map asBytes, UInt8.ofNat '/'.toNat ∉ n := by
    intro n hn
    obtain ⟨c, hc, rfl⟩ := List.mem_map.mp hn
    rw [mem_asBytes_iff (by decide)]
    exact slash_notMem_of_mem_splitOn hc
  have hslash : asBytes ['/'] = [UInt8.ofNat '/'.toNat] := by decide
  rw [← join_splitOn text, asBytes_join, pathBytes, pathBytes, hslash] at h
  rw [← List.splitOn_intercalate _ hnames hne, ← h, List.splitOn_intercalate _ hsplit (by simp [List.splitOn_ne_nil])]

theorem asBytes_eq_nil_iff {s : Str} : asBytes s = [] ↔ s = [] := by
  cases s with
  | nil => simp [asBytes]
  | cons c s => simp [asBytes_cons]

/-- A host name that is text, and has no control characters that are refused, is plain. -/
theorem IsHostName.plain {c : Str} (h : IsHostName (asBytes c)) (hnul : '\x00' ∉ c) : Plain c := by
  refine ⟨⟨⟨fun hnil => h.ne_nil (asBytes_eq_nil_iff.mpr hnil), fun hmem => h.no_slash ?_⟩, ?_, ?_⟩, hnul, ?_⟩
  · exact (mem_asBytes_iff (by decide)).mpr hmem
  · rintro rfl
    exact h.ne_dot rfl
  · rintro rfl
    exact h.ne_dots rfl
  · exact fun hmem => h.no_backslash ((mem_asBytes_iff (by decide)).mpr hmem)

/-! ## Copying and listing -/

def keeps (name : OsName) : Bool := name ≠ gitkeep

theorem keeps_gitkeep : keeps gitkeep = false := by simp [keeps]

theorem keeps_of_ne {name : OsName} (h : name ≠ gitkeep) : keeps name = true := by simp [keeps, h]

/-- A copy is the directory without what is called `.gitkeep`, if there is no link in it. -/
theorem copyDirectory_ok {source : Str} {d : SourceDir} : ∀ {d' : SourceDir} {path : List OsName},
    copyDirectory source path d = .ok d' → d' = d.retain keeps := by
  -- on the directory; `.gitkeep` is left out wherever it is, and a link is refused
  induction d with
  | nil =>
    intro d' path h
    exact (Except.ok.inj h).symm
  | file name data rest ih =>
    intro d' path h
    rw [copyDirectory] at h
    split at h
    · rename_i hname
      rw [Directory.retain, hname, keeps_gitkeep, if_neg Bool.false_ne_true, ih h]
    · rename_i hname
      obtain ⟨rest', hrest, hd'⟩ := Op.except_bind_ok h
      rw [Directory.retain, keeps_of_ne hname, if_pos rfl, ← ih hrest]
      exact (Except.ok.inj hd').symm
  | sub name inner rest ihinner ih =>
    intro d' path h
    rw [copyDirectory] at h
    split at h
    · rename_i hname
      rw [Directory.retain, hname, keeps_gitkeep, if_neg Bool.false_ne_true, ih h]
    · rename_i hname
      obtain ⟨inner', hinner, h⟩ := Op.except_bind_ok h
      obtain ⟨rest', hrest, hd'⟩ := Op.except_bind_ok h
      rw [Directory.retain, keeps_of_ne hname, if_pos rfl, ← ihinner hinner, ← ih hrest]
      exact (Except.ok.inj hd').symm
  | link name rest ih =>
    intro d' path h
    rw [copyDirectory] at h
    split at h
    · exact ih h
    · cases h
  | other name rest ih =>
    intro d' path h
    exact ih h

/-- The list of files is that of the same directory, each with its path in front. -/
theorem collectFiles_ok {root : Str} {d : SourceDir} : ∀ {files : List (List OsName)} {path : List OsName},
    collectFiles root path d = .ok files → files = (d.retain keeps).files.map fun f => path ++ f.1 := by
  -- on the directory, for any path that leads to it
  induction d with
  | nil =>
    intro files path h
    exact (Except.ok.inj h).symm
  | file name data rest ih =>
    intro files path h
    rw [collectFiles] at h
    split at h
    · rename_i hname
      rw [Directory.retain, hname, keeps_gitkeep, if_neg Bool.false_ne_true, ih h]
    · rename_i hname
      obtain ⟨more, hrest, hfiles⟩ := Op.except_bind_ok h
      rw [Directory.retain, keeps_of_ne hname, if_pos rfl, Directory.files, List.map_cons, ← ih hrest]
      exact (Except.ok.inj hfiles).symm
  | sub name inner rest ihinner ih =>
    intro files path h
    rw [collectFiles] at h
    split at h
    · rename_i hname
      rw [Directory.retain, hname, keeps_gitkeep, if_neg Bool.false_ne_true, ih h]
    · rename_i hname
      obtain ⟨inside, hinner, h⟩ := Op.except_bind_ok h
      obtain ⟨more, hrest, hfiles⟩ := Op.except_bind_ok h
      have hassoc : (inner.retain keeps).files.map (fun f => path ++ (name :: f.1)) = inside := by
        rw [ihinner hinner]
        simp
      rw [Directory.retain, keeps_of_ne hname, if_pos rfl, Directory.files, List.map_append, List.map_map, ← ih hrest,
        Function.comp_def, hassoc]
      exact (Except.ok.inj hfiles).symm
  | link name rest ih =>
    intro files path h
    rw [collectFiles] at h
    split at h
    · exact ih h
    · cases h
  | other name rest ih =>
    intro files path h
    exact ih h

/-- What is left of a directory when it is packaged: its files but for those that are there for git, no name twice in
    a directory, and no file where one of the fixed directories has to be. -/
structure Staged (source staged : SourceDir) : Prop where
  files : staged.files = source.files.filter fun f => f.1.all keeps
  distinct : staged.Distinct
  free : ∀ f ∈ staged.files, ∀ path ∈ bundleDirectories, ¬ f.1 <+: path

theorem filter_keeps (files : List (List OsName × Bytes)) :
    (files.filter fun f => f.1.all keeps).filter (fun f => f.1.all keeps) = files.filter fun f => f.1.all keeps := by
  rw [List.filter_filter]
  simp

theorem createDirAll_foldlM {paths : List (List OsName)} : ∀ {d d' : SourceDir}, d.Distinct →
    paths.foldlM (fun d path => Directory.createDirAll path d) d = .ok d' →
      d'.files = d.files ∧ d'.Distinct ∧ ∀ f ∈ d.files, ∀ path ∈ paths, ¬ f.1 <+: path := by
  -- directory by directory; what was made before is still there, and no file was in the way of it
  induction paths with
  | nil =>
    intro d d' hd h
    obtain rfl : d = d' := Except.ok.inj h
    exact ⟨rfl, hd, fun f _ path hpath => (by cases hpath)⟩
  | cons path paths ih =>
    intro d d' hd h
    rw [List.foldlM_cons] at h
    obtain ⟨d₁, hmade, hrest⟩ := Op.except_bind_ok h
    have hmade := Directory.createDirAll_made hmade
    obtain ⟨hfiles, hdistinct, hfree⟩ := ih (hmade.distinct hd) hrest
    refine ⟨hfiles.trans hmade.files, hdistinct, fun f hf q hq => ?_⟩
    rcases List.mem_cons.mp hq with rfl | hq
    · exact hmade.free hd f hf
    · exact hfree f (hmade.files.symm ▸ hf) q hq

/-- Staging copies, makes the fixed directories, and copies once more. The second copy finds no link and nothing to
    leave out. -/
theorem staged_of_stageFilesystem {workspace package : Str} {source staged : SourceDir} (hsource : source.Distinct)
    (h : stageFilesystem workspace package source = .ok staged) : Staged source staged := by
  obtain ⟨prepared, hprepare, hcopy⟩ := Op.except_bind_ok h
  obtain ⟨copied, hcopied, hmake⟩ := Op.except_bind_ok hprepare
  obtain rfl := copyDirectory_ok hcopied
  obtain rfl := copyDirectory_ok hcopy
  -- making the directories ends in the directory from which the second copy is taken
  have hmade : bundleDirectories.foldlM (fun d path => Directory.createDirAll path d) (source.retain keeps) =
      .ok prepared := by
    cases hfold : bundleDirectories.foldlM (fun d path => Directory.createDirAll path d) (source.retain keeps) with
    | error e =>
      rw [hfold] at hmake
      cases hmake
    | ok d =>
      rw [hfold] at hmake
      exact congrArg _ (Except.ok.inj hmake)
  obtain ⟨hfiles, hdistinct, hfree⟩ := createDirAll_foldlM (hsource.retain keeps) hmade
  -- the second copy leaves out nothing that the first has kept
  have hall : (prepared.retain keeps).files = source.files.filter fun f => f.1.all keeps := by
    rw [Directory.files_retain, hfiles, Directory.files_retain, filter_keeps]
  refine ⟨hall, hdistinct.retain keeps, fun f hf => hfree f ?_⟩
  rw [Directory.files_retain, ← hall]
  exact hf

/-! ## The list of files -/

/-- A file of the bundle: the names on its path, and its content. The names are texts, which they have to be for the
    image. -/
abbrev BundleFile := List Str × Bytes

def BundleFile.onHost (f : BundleFile) : List OsName × Bytes := (f.1.map asBytes, f.2)

theorem BundleFile.onHost_injective : Function.Injective BundleFile.onHost := by
  intro f g heq
  have hpath : f.1.map asBytes = g.1.map asBytes := congrArg Prod.fst heq
  exact Prod.ext (List.map_injective_iff.mpr asBytes_injective hpath) (Prod.mk.inj heq).2

/-- The names of a path are plain, and there is no line end in them. This is what gets a path through the
    configuration, and through the checks of the kernel. -/
structure IsBundlePath (cs : List Str) : Prop where
  ne_nil : cs ≠ []
  plain : ∀ c ∈ cs, Plain c
  oneLine : '\n' ∉ join cs ∧ '\r' ∉ join cs

/-- The name of a file in the image, if there is one: it is text, and of one line. -/
theorem bundleName_ok {root : Str} {path : List OsName} (hne : path ≠ []) (hnames : ∀ n ∈ path, IsHostName n)
    {name : Str} (h : bundleName root path = .ok name) :
    ∃ cs, path = cs.map asBytes ∧ IsBundlePath cs ∧ name = "fs/".toList ++ join cs := by
  rw [bundleName] at h
  cases htext : fromUtf8 (pathBytes path) with
  | none =>
    rw [htext] at h
    cases h
  | some text =>
    obtain ⟨cs, hpath, rfl⟩ := exists_text_of_pathBytes hne (fun n hn => (hnames n hn).no_slash)
      (asBytes_of_fromUtf8 htext)
    have hname : ∀ c ∈ cs, IsHostName (asBytes c) := fun c hc => hnames _ (hpath ▸ List.mem_map_of_mem hc)
    -- a backslash would be replaced, and there is none in a host name of this kind
    have hback : '\\' ∉ join cs := by
      intro hmem
      rcases exists_mem_of_mem_join hmem with hslash | ⟨c, hc, hx⟩
      · exact absurd hslash (by decide)
      · exact (hname c hc).no_backslash ((mem_asBytes_iff (by decide)).mpr hx)
    have hsame : (join cs).map (fun c => if c = '\\' then '/' else c) = join cs := by
      refine (List.map_congr_left fun c hc => ?_).trans (List.map_id _)
      have hne : c ≠ '\\' := fun heq => hback (heq ▸ hc)
      exact if_neg hne
    rw [htext] at h
    simp only [hsame] at h
    -- the three characters that are refused would end a line, or end the name
    split at h
    · cases h
    · rename_i hrefused
      simp only [List.any_eq_true, decide_eq_true_eq, not_exists, not_and, not_or] at hrefused
      refine ⟨cs, hpath, ⟨?_, fun c hc => (hname c hc).plain fun hnul => ?_, fun hmem => (hrefused _ hmem).1 rfl,
        fun hmem => (hrefused _ hmem).2.1 rfl⟩, (Except.ok.inj h).symm⟩
      · rintro rfl
        exact hne hpath
      · exact (hrefused _ (mem_join_of_mem hc hnul)).2.2 rfl

/-- The name of a file in the image, which is also what its path in the running system is made from. -/
def BundleFile.name (f : BundleFile) : Str := "fs/".toList ++ join f.1

/-- The names of all files, or none of them: one path that is no text, or that breaks a line, ends the packaging. -/
theorem bundleNames_ok {root : Str} {files : List (List OsName × Bytes)} : ∀ {names : List Str},
    (∀ f ∈ files, f.1 ≠ [] ∧ ∀ n ∈ f.1, IsHostName n) → (files.map Prod.fst).mapM (bundleName root) = .ok names →
      ∃ bundle : List BundleFile, bundle.map BundleFile.onHost = files ∧ names = bundle.map BundleFile.name ∧
        ∀ f ∈ bundle, IsBundlePath f.1 := by
  -- on the list of files; each has a name or all of it is refused
  induction files with
  | nil =>
    intro names _ h
    exact ⟨[], rfl, (Except.ok.inj h).symm, by simp⟩
  | cons file files ih =>
    intro names hfiles h
    rw [List.map_cons, List.mapM_cons] at h
    obtain ⟨name, hname, h⟩ := Op.except_bind_ok h
    obtain ⟨more, hmore, h⟩ := Op.except_bind_ok h
    obtain ⟨cs, hpath, hcs, rfl⟩ :=
      bundleName_ok (hfiles file List.mem_cons_self).1 (hfiles file List.mem_cons_self).2 hname
    obtain ⟨bundle, rfl, rfl, hbundle⟩ := ih (fun f hf => hfiles f (List.mem_cons_of_mem _ hf)) hmore
    refine ⟨(cs, file.2) :: bundle, ?_, (Except.ok.inj h).symm, ?_⟩
    · rw [List.map_cons, BundleFile.onHost, ← hpath]
    · intro f hf
      rcases List.mem_cons.mp hf with rfl | hf
      · exact hcs
      · exact hbundle f hf

/-- What is in the image: the names that the boot loader is told, and the files under these names. -/
theorem bundleFiles_ok {root : Str} {source staged : SourceDir} (hstaged : Staged source staged)
    (hhost : ∀ f ∈ source.files, ∀ n ∈ f.1, IsHostName n) {names : List Str}
    (h : bundleFiles root staged = .ok names) :
    ∃ bundle : List BundleFile, (bundle.map BundleFile.onHost).Perm staged.files ∧
      names = bundle.map BundleFile.name ∧ ∀ f ∈ bundle, IsBundlePath f.1 := by
  obtain ⟨paths, hcollect, hnames⟩ := Op.except_bind_ok h
  have hpaths : paths = staged.files.map Prod.fst := by
    rw [collectFiles_ok hcollect, Directory.files_retain, hstaged.files, filter_keeps]
    rfl
  -- the paths are sorted without their contents, and these go along
  have hsorted : (staged.files.map Prod.fst).insertionSort (· ≤ ·) =
      (staged.files.insertionSort fun f g => f.1 ≤ g.1).map Prod.fst :=
    (List.map_insertionSort (fun f g : List OsName × Bytes => f.1 ≤ g.1) (· ≤ ·) Prod.fst staged.files
      fun a _ b _ => Iff.rfl).symm
  have hperm := List.perm_insertionSort (fun f g : List OsName × Bytes => f.1 ≤ g.1) staged.files
  rw [hpaths, hsorted] at hnames
  obtain ⟨bundle, hbundle, rfl, hplain⟩ := bundleNames_ok (fun f hf => by
    have hf' := hperm.mem_iff.mp hf
    refine ⟨Directory.ne_nil_of_mem_files hf', hhost f ?_⟩
    rw [hstaged.files] at hf'
    exact (List.mem_filter.mp hf').1) hnames
  exact ⟨bundle, hbundle ▸ hperm, rfl, hplain⟩

/-! ## Through the configuration -/

/-- The module that the kernel gets for a file: the path is in the command line, the content in memory. -/
def BundleFile.module (f : BundleFile) : LimineFile := ⟨"afos-file:".toList ++ '/' :: join f.1, f.2⟩

def limineHeaderLines : List Str :=
  ["timeout: 0", "quiet: yes", "serial: yes", "interface_branding: AFOS", "", "/AFOS", "protocol: limine",
    "path: boot():/boot/afos.elf"].map String.toList

/-- The two lines for a file: where the loader finds it, and what the kernel is told about it. -/
def BundleFile.configLines (f : BundleFile) : List Str :=
  ["module_path: boot():/".toList ++ f.name, "module_string: ".toList ++ f.module.cmdline]

theorem two_lines {a b c d name path : Str} (h : b = '\n' :: (c ++ d)) :
    a ++ name ++ b ++ path ++ ['\n'] = [a ++ name, c ++ (d ++ path)].flatMap (· ++ ['\n']) := by
  subst h
  simp

theorem limineConfig_eq (bundle : List BundleFile) :
    limineConfig (bundle.map BundleFile.name) =
      (limineHeaderLines ++ bundle.flatMap BundleFile.configLines).flatMap (· ++ ['\n']) := by
  have hheader : limineHeader = limineHeaderLines.flatMap (· ++ ['\n']) := by decide +kernel
  rw [limineConfig, hheader, List.flatMap_append]
  refine congrArg (limineHeaderLines.flatMap (· ++ ['\n']) ++ ·) ?_
  rw [List.flatMap_map, List.flatMap_assoc]
  refine List.flatMap_congr fun f _ => ?_
  have hstrip : stripPrefix "fs".toList f.name = some ('/' :: join f.1) := by
    have hfs : "fs/".toList = "fs".toList ++ ['/'] := by decide
    rw [BundleFile.name, hfs, List.append_assoc, stripPrefix_append]
    rfl
  have hstring : "\nmodule_string: afos-file:".toList = '\n' :: ("module_string: ".toList ++ "afos-file:".toList) := by
    decide
  simp only [hstrip, Option.getD_some]
  exact two_lines hstring

theorem oneLine_append {s t : Str} {x : Char} (hs : x ∉ s) (ht : x ∉ t) : x ∉ s ++ t := by
  simp [hs, ht]

/-- The boot loader reads the lines as they were written, as none of the names ends one. -/
theorem lines_limineConfig {bundle : List BundleFile} (hbundle : ∀ f ∈ bundle, IsBundlePath f.1) :
    lines (limineConfig (bundle.map BundleFile.name)) =
      limineHeaderLines ++ bundle.flatMap BundleFile.configLines := by
  have hlines := @lines_flatMap (limineHeaderLines ++ bundle.flatMap BundleFile.configLines) ?_ []
  · rw [List.append_nil, lines_nil, List.append_nil] at hlines
    rw [limineConfig_eq, hlines]
  · have hclean : ∀ line : Str, '\n' ∉ line ∧ '\r' ∉ line → '\n' ∉ line ∧ stripCr line = line := by
      rintro line ⟨hn, hr⟩
      exact ⟨hn, stripCr_of_getLast? fun hlast => hr (List.mem_of_getLast? hlast)⟩
    intro line hline
    refine hclean line ?_
    -- the fixed lines are looked at one by one, those of the files have the names in them
    rcases List.mem_append.mp hline with hline | hline
    · have hall : limineHeaderLines.all (fun line => decide ('\n' ∉ line ∧ '\r' ∉ line)) = true := by decide
      exact of_decide_eq_true (List.all_eq_true.mp hall line hline)
    · obtain ⟨f, hf, hline⟩ := List.mem_flatMap.mp hline
      obtain ⟨hn, hr⟩ := (hbundle f hf).oneLine
      rcases List.mem_cons.mp hline with rfl | hline
      · exact ⟨oneLine_append (by decide) (oneLine_append (by decide) hn),
          oneLine_append (by decide) (oneLine_append (by decide) hr)⟩
      · rw [List.mem_singleton.mp hline]
        have hslash : ∀ {x : Char}, x ≠ '/' → x ∉ join f.1 → x ∉ '/' :: join f.1 := fun hne hx => by simp [hne, hx]
        exact ⟨oneLine_append (by decide) (oneLine_append (by decide) (hslash (by decide) hn)),
          oneLine_append (by decide) (oneLine_append (by decide) (hslash (by decide) hr))⟩

theorem readModules_skip {image : Str → Option Bytes} {front rest : List Str}
    (h : ∀ line ∈ front, stripPrefix "module_path: boot():/".toList line = none) :
    readModules image (front ++ rest) = readModules image rest := by
  induction front with
  | nil => rfl
  | cons line front ih =>
    rw [List.cons_append, readModules, h line List.mem_cons_self]
    exact ih fun l hl => h l (List.mem_cons_of_mem _ hl)

/-- Each pair of lines is a module, whose content is looked up by its name. The second line is no module by itself and
    is passed over. -/
theorem readModules_configLines {image : Str → Option Bytes} {bundle : List BundleFile}
    (himage : ∀ f ∈ bundle, image f.name = some f.2) :
    readModules image (bundle.flatMap BundleFile.configLines) = some (bundle.map BundleFile.module) := by
  induction bundle with
  | nil => rfl
  | cons f bundle ih =>
    have hstring : stripPrefix "module_path: boot():/".toList ("module_string: ".toList ++ f.module.cmdline) = none := by
      rfl
    have hrest : readModules image (("module_string: ".toList ++ f.module.cmdline) ::
        bundle.flatMap BundleFile.configLines) = some (bundle.map BundleFile.module) := by
      rw [readModules, hstring]
      exact ih fun g hg => himage g (List.mem_cons_of_mem _ hg)
    rw [List.flatMap_cons, BundleFile.configLines, List.cons_append, List.cons_append, List.nil_append, readModules,
      stripPrefix_append]
    simp only [himage f List.mem_cons_self, hrest, List.head?_cons, Option.bind_some, stripPrefix_append]
    rfl

/-- The file of that name in the image is the one that was meant, because no two files have one path. -/
theorem imageFile_name {staged : SourceDir} (hdistinct : staged.Distinct) {bundle : List BundleFile}
    (hperm : (bundle.map BundleFile.onHost).Perm staged.files) (hbundle : ∀ f ∈ bundle, IsBundlePath f.1)
    {f : BundleFile} (hf : f ∈ bundle) : imageFile staged f.name = some f.2 := by
  have hmem : f.onHost ∈ staged.files := hperm.mem_iff.mp (List.mem_map_of_mem hf)
  have hpath : pathBytes f.onHost.1 = asBytes (join f.1) := (asBytes_join f.1).symm
  rw [imageFile, BundleFile.name, stripPrefix_append, Option.bind_some]
  cases hfind : staged.files.find? fun file => decide (pathBytes file.1 = asBytes (join f.1)) with
  | none => exact absurd hpath (by simpa using List.find?_eq_none.mp hfind _ hmem)
  | some g =>
    -- another file that is found has the same names
    have hg := List.mem_of_find?_eq_some hfind
    have hgpath : pathBytes g.1 = asBytes (join f.1) := by simpa using List.find?_some hfind
    obtain ⟨g', hg', rfl⟩ := List.mem_map.mp (hperm.mem_iff.mpr hg)
    have hjoin : join g'.1 = join f.1 := asBytes_injective ((asBytes_join g'.1).trans hgpath)
    have hnames := join_injective (isName_of_plain (hbundle g' hg').plain) (isName_of_plain (hbundle f hf).plain) hjoin
    have hsame : g'.onHost = f.onHost := hdistinct.eq_of_prefix hg hmem (by
      rw [BundleFile.onHost, BundleFile.onHost, hnames])
    rw [hsame]
    rfl

/-! ## In the kernel -/

theorem isPathPrefix_eq (pre path : Str) :
    isPathPrefix pre path = (decide (path = pre) || startsWith (pre ++ ['/']) path) := by
  rw [Bool.eq_iff_iff, isPathPrefix, Bool.or_eq_true, Bool.or_eq_true, beq_iff_eq, decide_eq_true_eq,
    below_iff_stripPrefix, IsTable.startsWith_slash_iff]

namespace BundleFile

/-- Whether a file is the mount or in it, by the first of its names. The mount itself can be a file, as far as the
    packaging goes. -/
def isIn (f : BundleFile) (mount : Str) : Bool := f.1.head? == some mount

def isSystem (f : BundleFile) : Bool := f.isIn "sys".toList

def isMounted (f : BundleFile) : Bool := f.isSystem || f.isIn "apps".toList || f.isIn "user".toList

def embedded (f : BundleFile) : EmbeddedFile := ⟨'/' :: join f.1, f.2⟩

def initial (f : BundleFile) : InitialFile := ⟨join f.1, f.2⟩

variable {f : BundleFile}

theorem isIn_iff {mount : Str} : f.isIn mount = true ↔ [mount] <+: f.1 := by
  rw [isIn, beq_iff_eq]
  cases f.1 with
  | nil => simp
  | cons c cs => simp [List.cons_prefix_cons, eq_comm]

theorem isPathPrefix_mount (hf : IsBundlePath f.1) {mount : Str} (hmount : IsName mount) :
    isPathPrefix ('/' :: mount) ('/' :: join f.1) = f.isIn mount := by
  have hprefix := isPathPrefix_slash_iff (a := [mount]) (by simpa using hmount) (isName_of_plain hf.plain)
    (List.cons_ne_nil _ _)
  rw [join_singleton] at hprefix
  rw [Bool.eq_iff_iff, hprefix, isIn_iff]

theorem atOrBelow_mount (hf : IsBundlePath f.1) (mount slashed slashes : Str) (hmount : IsName mount)
    (hslashed : slashed = '/' :: mount) (hslashes : slashes = '/' :: mount ++ ['/']) :
    (decide ('/' :: join f.1 = slashed) || startsWith slashes ('/' :: join f.1)) = f.isIn mount := by
  rw [hslashed, hslashes, ← isPathPrefix_mount hf hmount, isPathPrefix_eq]

theorem isMounted_path (hf : IsBundlePath f.1) : Afos.isMounted ('/' :: join f.1) = f.isMounted := by
  have hsys := atOrBelow_mount hf "sys".toList "/sys".toList "/sys/".toList (by decide) (by decide) (by decide)
  have happs := atOrBelow_mount hf "apps".toList "/apps".toList "/apps/".toList (by decide) (by decide) (by decide)
  have huser := atOrBelow_mount hf "user".toList "/user".toList "/user/".toList (by decide) (by decide) (by decide)
  rw [isMounted, isSystem, ← hsys, ← happs, ← huser, Afos.isMounted]
  simp only [Bool.or_assoc]

/-- What the kernel does with one module: it is sorted to the table or to the initial files, or stops the boot. -/
theorem loadModules_module (hf : IsBundlePath f.1) (rest : List LimineFile) (files : BootFiles) :
    loadModules (f.module :: rest) files =
      if f.isMounted then
        loadModules rest (if f.isSystem then { files with system := files.system ++ [f.embedded] }
          else { files with mutable := files.mutable ++ [f.initial] })
      else none := by
  -- what the kernel finds out about the module, from its command line
  have hcmdline : stripPrefix "afos-file:".toList f.module.cmdline = some ('/' :: join f.1) := stripPrefix_append _ _
  have hsys : (decide ('/' :: join f.1 = "/sys".toList) || startsWith "/sys/".toList ('/' :: join f.1)) = f.isSystem :=
    atOrBelow_mount hf "sys".toList "/sys".toList "/sys/".toList (by decide) (by decide) (by decide)
  have hnormal : (normalizePath "/".toList ('/' :: join f.1)).toOption = some ('/' :: join f.1) := by
    rw [normalizePath_slash_join hf.plain]
    rfl
  have hslash : stripPrefix ['/'] ('/' :: join f.1) = some (join f.1) := stripPrefix_append ['/'] (join f.1)
  rw [loadModules, hcmdline]
  simp only [isMounted_path hf, hnormal, hslash, hsys, ne_eq, not_true_eq_false, decide_false, Bool.or_false]
  cases f.isMounted with
  | false => rfl
  | true => cases f.isSystem <;> rfl

/-- What the kernel makes of the modules of a bundle. The order is that of the modules, in each of the two lists. -/
def sorted (bundle : List BundleFile) : BootFiles where
  system := (bundle.filter isSystem).map embedded
  mutable := (bundle.filter (!isSystem ·)).map initial

theorem loadModules_bundle {bundle : List BundleFile} (hbundle : ∀ f ∈ bundle, IsBundlePath f.1) :
    ∀ files : BootFiles, loadModules (bundle.map module) files =
      if bundle.all isMounted then
        some ⟨files.system ++ (sorted bundle).system, files.mutable ++ (sorted bundle).mutable⟩
      else none := by
  induction bundle with
  | nil =>
    intro files
    simp [loadModules, sorted]
  | cons f bundle ih =>
    intro files
    rw [List.map_cons, loadModules_module (hbundle f List.mem_cons_self), List.all_cons]
    cases hmounted : f.isMounted with
    | false => simp
    | true =>
      rw [if_pos rfl, Bool.true_and, ih fun g hg => hbundle g (List.mem_cons_of_mem _ hg)]
      cases hsys : f.isSystem <;> simp [sorted, hsys]

theorem loadBootFiles_bundle {bundle : List BundleFile} (hbundle : ∀ f ∈ bundle, IsBundlePath f.1) :
    loadBootFiles (bundle.map module) =
      if bundle.all isMounted && bundle.any isSystem then some (sorted bundle) else none := by
  rw [loadBootFiles, loadModules_bundle hbundle]
  cases bundle.all isMounted with
  | false => rfl
  | true =>
    have hempty : (sorted bundle).system.isEmpty = !bundle.any isSystem := by
      rw [Bool.eq_iff_iff]
      simp [sorted, List.isEmpty_iff, List.filter_eq_nil_iff]
    have hsorted : (⟨[] ++ (sorted bundle).system, [] ++ (sorted bundle).mutable⟩ : BootFiles) = sorted bundle := rfl
    rw [if_pos rfl, hsorted, Bool.true_and, Option.filter_some, hempty, Bool.not_not]

end BundleFile

/-- The files of an image are those of a directory, in another order, and with paths that get through. -/
structure IsBundle (bundle : List BundleFile) (staged : SourceDir) : Prop where
  perm : (bundle.map BundleFile.onHost).Perm staged.files
  distinct : staged.Distinct
  paths : ∀ f ∈ bundle, IsBundlePath f.1

namespace IsBundle

variable {bundle : List BundleFile} {staged : SourceDir}

theorem mem_files (h : IsBundle bundle staged) {f : BundleFile} (hf : f ∈ bundle) : f.onHost ∈ staged.files :=
  h.perm.mem_iff.mp (List.mem_map_of_mem hf)

theorem nodup (h : IsBundle bundle staged) : (bundle.map Prod.fst).Nodup := by
  have hhost : ((bundle.map BundleFile.onHost).map Prod.fst).Nodup :=
    (h.perm.map Prod.fst).nodup_iff.mpr h.distinct.nodup_files
  rw [List.map_map] at hhost
  have hcomp : (Prod.fst ∘ BundleFile.onHost : BundleFile → List OsName) = List.map asBytes ∘ Prod.fst := rfl
  rw [hcomp, ← List.map_map] at hhost
  exact hhost.of_map

theorem nodup_paths (h : IsBundle bundle staged) (keep : BundleFile → Bool) :
    ((bundle.filter keep).map fun f => join f.1).Nodup := by
  have hnodup : ((bundle.filter keep).map Prod.fst).Nodup := h.nodup.sublist (List.filter_sublist.map _)
  have hpaths : (bundle.filter keep).map (fun f => join f.1) = ((bundle.filter keep).map Prod.fst).map join := by
    rw [List.map_map]
    rfl
  rw [hpaths]
  refine List.Nodup.map_on ?_ hnodup
  intro a ha b hb heq
  obtain ⟨f, hf, rfl⟩ := List.mem_map.mp ha
  obtain ⟨g, hg, rfl⟩ := List.mem_map.mp hb
  exact join_injective (isName_of_plain (h.paths f (List.mem_of_mem_filter hf)).plain)
    (isName_of_plain (h.paths g (List.mem_of_mem_filter hg)).plain) heq

/-- No file is above another, in the running system as on the host: the paths are the same names. -/
theorem not_below (h : IsBundle bundle staged) {f g : BundleFile} (hf : f ∈ bundle) (hg : g ∈ bundle) :
    ¬ Below (join f.1) (join g.1) := by
  intro hbelow
  obtain ⟨rest, hrest, hnames⟩ := (below_join_iff (isName_of_plain (h.paths f hf).plain)
    (isName_of_plain (h.paths g hg).plain) (h.paths f hf).ne_nil).mp hbelow
  have hsame : f.onHost = g.onHost := h.distinct.eq_of_prefix (h.mem_files hf) (h.mem_files hg)
    ⟨rest.map asBytes, by rw [BundleFile.onHost, BundleFile.onHost, hnames, List.map_append]⟩
  have hlength : f.1.length = g.1.length := by
    simpa [BundleFile.onHost] using congrArg (List.length ∘ Prod.fst) hsame
  rw [hnames, List.length_append] at hlength
  have := List.length_pos_iff.mpr hrest
  omega

theorem initial_files (h : IsBundle bundle staged) : ∀ f ∈ (BundleFile.sorted bundle).mutable,
    (IsCanonical f.path ∧ f.path ≠ []) ∧ ∀ g ∈ (BundleFile.sorted bundle).mutable, ¬ Below f.path g.path := by
  intro f hf
  obtain ⟨f', hf', rfl⟩ := List.mem_map.mp hf
  have hmem := List.mem_of_mem_filter hf'
  have hnames := isName_of_plain (h.paths f' hmem).plain
  refine ⟨⟨isCanonical_join hnames, mt (join_eq_nil_iff hnames).mp (h.paths f' hmem).ne_nil⟩, fun g hg => ?_⟩
  obtain ⟨g', hg', rfl⟩ := List.mem_map.mp hg
  exact h.not_below hmem (List.mem_of_mem_filter hg')

/-- The system files are a table, if the mount itself is not a file. A file called `sys` would be taken for a system
    file, and it has no name below the mount. -/
theorem isTable (h : IsBundle bundle staged) (hsys : ∀ f ∈ bundle, f.1 ≠ ["sys".toList]) :
    IsTable (BundleFile.sorted bundle).system := by
  -- a path below the mount, no path twice, no file above another
  refine ⟨?_, ?_, ?_⟩
  · intro e he
    obtain ⟨f, hf, rfl⟩ := List.mem_map.mp he
    obtain ⟨hmem, hin⟩ := List.mem_filter.mp hf
    have hhead : f.1.head? = some "sys".toList := beq_iff_eq.mp hin
    obtain ⟨cs, hcs⟩ : ∃ cs, f.1 = "sys".toList :: cs := by
      cases hf1 : f.1 with
      | nil =>
        rw [hf1] at hhead
        cases hhead
      | cons c cs =>
        rw [hf1] at hhead
        exact ⟨cs, by rw [Option.some.inj hhead]⟩
    refine ⟨cs, fun c hc => (h.paths f hmem).plain c (hcs ▸ List.mem_cons_of_mem _ hc), ?_, ?_⟩
    · rintro rfl
      exact hsys f hmem hcs
    · rw [BundleFile.embedded, hcs]
  · have hpaths : (BundleFile.sorted bundle).system.map EmbeddedFile.path =
        ((bundle.filter BundleFile.isSystem).map fun f => join f.1).map ('/' :: ·) := by
      rw [BundleFile.sorted, List.map_map, List.map_map]
      rfl
    rw [hpaths]
    exact (h.nodup_paths _).map List.cons_injective
  · intro e he d hd hbelow
    obtain ⟨f, hf, rfl⟩ := List.mem_map.mp he
    obtain ⟨g, hg, rfl⟩ := List.mem_map.mp hd
    exact h.not_below (List.mem_of_mem_filter hf) (List.mem_of_mem_filter hg) (below_slash_iff.mp hbelow)

end IsBundle

theorem exists_bundle {workspace package root : Str} {source staged : SourceDir} (hsource : source.Distinct)
    (hhost : ∀ f ∈ source.files, ∀ n ∈ f.1, IsHostName n)
    (hstage : stageFilesystem workspace package source = .ok staged) {names : List Str}
    (hnames : bundleFiles root staged = .ok names) :
    ∃ bundle, IsBundle bundle staged ∧
      readModules (imageFile staged) (lines (limineConfig names)) = some (bundle.map BundleFile.module) := by
  have hstaged := staged_of_stageFilesystem hsource hstage
  obtain ⟨bundle, hperm, rfl, hpaths⟩ := bundleFiles_ok hstaged hhost hnames
  refine ⟨bundle, ⟨hperm, hstaged.distinct, hpaths⟩, ?_⟩
  have hheader : limineHeaderLines.all (fun line =>
      decide (stripPrefix "module_path: boot():/".toList line = none)) = true := by decide
  rw [lines_limineConfig hpaths, readModules_skip fun line hline =>
    of_decide_eq_true (List.all_eq_true.mp hheader line hline)]
  exact readModules_configLines fun f hf => imageFile_name hstaged.distinct hperm hpaths hf

/-- Packaging, the boot loader and the kernel in a row. The modules that the loader reads are the files of the
    workspace that are packaged, each with its name in the image and its content. The kernel takes them if all of them
    are in one of the mounts, and one is in `/sys`; then it has each of them once, under the path that it has in the
    workspace and with its content, in the table or among the initial files. These are what the file system expects
    them to be: canonical paths, none of them above another. -/
theorem boot_files_of_package {workspace package root : Str} {source staged : SourceDir} (hsource : source.Distinct)
    (hhost : ∀ f ∈ source.files, ∀ n ∈ f.1, IsHostName n)
    (hstage : stageFilesystem workspace package source = .ok staged) {names : List Str}
    (hnames : bundleFiles root staged = .ok names) :
    ∃ bundle : List BundleFile,
      readModules (imageFile staged) (lines (limineConfig names)) = some (bundle.map BundleFile.module) ∧
      (bundle.map BundleFile.onHost).Perm (source.files.filter fun f => f.1.all keeps) ∧
      loadBootFiles (bundle.map BundleFile.module) =
        (if bundle.all BundleFile.isMounted && bundle.any BundleFile.isSystem then some (BundleFile.sorted bundle)
        else none) ∧
      (∀ f ∈ (BundleFile.sorted bundle).mutable, (IsCanonical f.path ∧ f.path ≠ []) ∧
        ∀ g ∈ (BundleFile.sorted bundle).mutable, ¬ Below f.path g.path) ∧
      ((∀ f ∈ bundle, f.1 ≠ ["sys".toList]) → IsTable (BundleFile.sorted bundle).system) := by
  obtain ⟨bundle, hbundle, hmodules⟩ := exists_bundle hsource hhost hstage hnames
  have hfiles := (staged_of_stageFilesystem hsource hstage).files
  exact ⟨bundle, hmodules, hfiles ▸ hbundle.perm, BundleFile.loadBootFiles_bundle hbundle.paths,
    hbundle.initial_files, hbundle.isTable⟩

/-- A file in each of the mounts, one of them in a directory below it, and one that is there for git. -/
def smallSource : SourceDir :=
  .sub (asBytes "apps".toList) (.file (asBytes "b".toList) [2, 3] .nil)
    (.sub (asBytes "sys".toList) (.file (asBytes "a".toList) [1] .nil)
      (.sub (asBytes "user".toList) (.file gitkeep [] (.sub (asBytes "docs".toList) (.file (asBytes "c".toList) [4] .nil)
        .nil)) .nil))

theorem distinct_smallSource : smallSource.Distinct := by
  simp only [smallSource, Directory.Distinct, Directory.entryNames]
  decide

theorem isHostName_smallSource : ∀ f ∈ smallSource.files, ∀ n ∈ f.1, IsHostName n := by
  have hall : smallSource.files.all (fun f => f.1.all fun n => decide (IsHostName n)) = true := by decide
  exact fun f hf n hn => of_decide_eq_true (List.all_eq_true.mp (List.all_eq_true.mp hall f hf) n hn)

theorem exists_smallStage : ∃ staged names, stageFilesystem "w".toList "p".toList smallSource = .ok staged ∧
    bundleFiles "p".toList staged = .ok names :=
  ⟨_, _, rfl, rfl⟩

/-- The files of it that are packaged. -/
def smallBundle : List BundleFile :=
  [(["apps".toList, "b".toList], [2, 3]), (["sys".toList, "a".toList], [1]),
    (["user".toList, "docs".toList, "c".toList], [4])]

theorem boot_files_of_package_small : ∃ (staged : SourceDir) (names : List Str) (bundle : List BundleFile),
    stageFilesystem "w".toList "p".toList smallSource = .ok staged ∧
      bundleFiles "p".toList staged = .ok names ∧
      readModules (imageFile staged) (lines (limineConfig names)) = some (bundle.map BundleFile.module) ∧
      bundle.Perm smallBundle ∧ loadBootFiles (bundle.map BundleFile.module) = some (BundleFile.sorted bundle) := by
  obtain ⟨staged, names, hstage, hnames⟩ := exists_smallStage
  obtain ⟨bundle, hmodules, hperm, hload, -⟩ := boot_files_of_package distinct_smallSource isHostName_smallSource
    hstage hnames
  have hsmall : bundle.Perm smallBundle := (List.map_perm_map_iff BundleFile.onHost_injective).mp hperm
  refine ⟨staged, names, bundle, hstage, hnames, hmodules, hsmall, hload.trans (if_pos ?_)⟩
  rw [hsmall.all_eq, hsmall.any_eq]
  decide

end Afos
