import Afos.Machine
import Afos.Shell
import Afos.Proof.Sessions

/-!
# Where a trusted source comes from

Trust is a property of the text of a path, `isTrustedPath`, and the source is what the
filesystem finds there after normalizing the path once more. The two agree when the path is
normal already. A command with a slash is normalized before it is looked up; a bare command is
not, it is put behind each application directory as it stands. What keeps `.` and `..` out is
the registry: such a path has an empty extension, and no runtime has that (`hext` below; a
registry with one does let them through, and then the source is another file of the table).

`Starts` is the point in `runCommand` where an application begins to run.
-/

set_option autoImplicit false

namespace Afos

open Lib

variable {σ : Type}

/-! ## Paths of applications -/

/-- An application directly in `/sys/apps`: what is behind the directory has no slash. -/
theorem isTrustedPath_iff {path : Str} :
    isTrustedPath path = true ↔ ∃ c, path = "/sys/apps/".toList ++ c ∧ '/' ∉ c := by
  unfold isTrustedPath
  cases h : stripPrefix "/sys/apps/".toList path with
  | none =>
    constructor
    · intro hany
      cases hany
    · rintro ⟨c, rfl, -⟩
      rw [stripPrefix_append] at h
      cases h
  | some suffix =>
    have hpath := stripPrefix_eq_some_iff.mp h
    subst hpath
    simp only [Option.any_some, Bool.not_eq_true', List.contains_eq_mem, decide_eq_false_iff_not,
      List.append_cancel_left_eq, exists_eq_left']

theorem sysApps_append_eq (c : Str) :
    "/sys/apps/".toList ++ c = '/' :: join ["sys".toList, "apps".toList, c] := by
  rw [join_cons_cons, join_cons_cons, join_singleton]
  rfl

theorem isPathPrefix_sysApps (c : Str) :
    isPathPrefix "/sys".toList ("/sys/apps/".toList ++ c) = true := by
  have hsplit : "/sys/apps/".toList ++ c = "/sys".toList ++ ("/apps/".toList ++ c) := rfl
  unfold isPathPrefix
  rw [hsplit, stripPrefix_append, Bool.or_eq_true]
  exact Or.inr rfl

/-- A plain name in `/sys/apps` makes a normal path, which the filesystem does not change. -/
theorem rooted_sysApps {c : Str} (hc : Plain c) : Rooted ("/sys/apps/".toList ++ c) := by
  refine ⟨["sys".toList, "apps".toList, c], ?_, sysApps_append_eq c⟩
  intro d hd
  simp only [List.mem_cons, List.not_mem_nil, or_false] at hd
  rcases hd with rfl | rfl | rfl
  · decide
  · decide
  · exact hc

/-- A normal path that is trusted has one name after the directory. Without being normal it could end in a slash, and
    have none. -/
theorem isName_of_rooted_sysApps {c : Str} (h : Rooted ("/sys/apps/".toList ++ c))
    (hc : '/' ∉ c) : IsName c := by
  refine ⟨?_, hc⟩
  rintro rfl
  obtain ⟨cs, hcs, heq⟩ := h
  -- the names of the path with the slash are those of the path without
  have hnames := congrArg names heq
  rw [names_slash_join hcs, show names ("/sys/apps/".toList ++ []) =
    ["sys".toList, "apps".toList] by decide] at hnames
  rw [← hnames] at heq
  exact absurd heq (by decide)

theorem plain_append_rhai {c : Str} (hslash : '/' ∉ c) (hnul : '\x00' ∉ c) (hback : '\\' ∉ c) :
    Plain (c ++ ".rhai".toList) := by
  have hne : ∀ d : Str, d.length < 5 → c ++ ".rhai".toList ≠ d := by
    rintro d hd rfl
    rw [List.length_append, show (".rhai".toList).length = 5 by decide] at hd
    omega
  have hmem : ∀ x, x ∉ ".rhai".toList → x ∉ c → x ∉ c ++ ".rhai".toList := by
    intro x hx hxc hin
    exact (List.mem_append.mp hin).elim hxc hx
  exact ⟨⟨⟨hne _ (by decide), hmem _ (by decide) hslash⟩, hne _ (by decide), hne _ (by decide)⟩,
    hmem _ (by decide) hnul, hmem _ (by decide) hback⟩

/-- Adding the extension to a normal path leaves it normal: the last name only gets longer, and is no dot
    afterwards. -/
theorem Rooted.append_rhai {p : Str} (h : Rooted p) : Rooted (p ++ ".rhai".toList) := by
  obtain ⟨cs, hcs, rfl⟩ := h
  -- the root is the one path without a last name
  rcases List.eq_nil_or_concat' cs with rfl | ⟨front, c, rfl⟩
  · exact ⟨[".rhai".toList], by decide, rfl⟩
  · have hc := hcs c (by simp)
    refine ⟨front ++ [c ++ ".rhai".toList], ?_, ?_⟩
    · intro d hd
      rcases List.mem_append.mp hd with hd | hd
      · exact hcs d (List.mem_append_left _ hd)
      · rw [List.mem_singleton.mp hd]
        exact plain_append_rhai hc.1.1.2 hc.2.1 hc.2.2
    · by_cases hf : front = []
      · subst hf
        simp
      · rw [join_append hf (by simp), join_append hf (by simp),
          join_singleton, join_singleton]
        simp

/-! ## Resolving a command -/

/-- The path has the extension of a runtime: what is behind its last dot, wherever in the path that is. -/
theorem RuntimeRegistry.supports_iff {runtimes : RuntimeRegistry} {path : Str} :
    runtimes.supports path = true ↔
      ∃ a ext, path = a ++ '.' :: ext ∧ '.' ∉ ext ∧ ∃ r ∈ runtimes, r.extension = ext := by
  unfold supports
  cases h : rsplitOnce '.' path with
  | none =>
    constructor
    · intro hany
      cases hany
    · rintro ⟨a, ext, rfl, -⟩
      exact absurd (rsplitOnce_eq_none_iff.mp h) (by simp)
  | some ab =>
    obtain ⟨a, ext⟩ := ab
    rw [Option.any_some, List.any_eq_true]
    constructor
    · rintro ⟨r, hr, hext⟩
      obtain ⟨hpath, hdot⟩ := rsplitOnce_eq_some_iff.mp h
      exact ⟨a, ext, hpath, hdot, r, hr, by simpa using hext⟩
    · rintro ⟨a', ext', hpath, hdot, r, hr, hext⟩
      have hsplit := rsplitOnce_eq_some_iff.mpr ⟨hpath, hdot⟩
      cases h.symm.trans hsplit
      exact ⟨r, hr, by simpa using hext⟩

namespace Shell

variable [Platform σ]

/-- What looking for applications keeps: the table, the registry and the directory. The backend may have been
    asked. -/
structure SameShell (s s' : Shell σ) : Prop where
  systemFiles : s'.system.vfs.systemFiles = s.system.vfs.systemFiles
  runtimes : s'.runtimes = s.runtimes
  cwd : s'.cwd = s.cwd

instance : IsPreorder (Shell σ) SameShell where
  refl _ := ⟨rfl, rfl, rfl⟩
  trans _ _ _ h h' := ⟨h'.systemFiles.trans h.systemFiles, h'.runtimes.trans h.runtimes,
    h'.cwd.trans h.cwd⟩

theorem keeps_existsAt (path : Str) :
    Op.Keeps SameShell (onVfs (Vfs.existsAt path) : Op Error (Shell σ) Bool) := by
  have hvfs : Op.Keeps (Op.Same Vfs.systemFiles) (Vfs.existsAt path : Op Error (Vfs σ) Bool) := by
    refine Op.Keeps.bind (Op.Keeps.ofExcept _) fun p => ?_
    refine Op.Keeps.ite (Op.Keeps.pure _) (Op.Keeps.ite (Op.Keeps.map _ Op.Keeps.read) ?_)
    exact Op.Keeps.bind (Op.Keeps.ofExcept _) fun q => fun v => rfl
  intro s
  exact ⟨hvfs s.system.vfs, rfl, rfl⟩

theorem same_of_existsAt {path : Str} {s s' : Shell σ} {r : Except Error Bool}
    (h : onVfs (Vfs.existsAt path) s = (r, s')) : SameShell s s' := by
  have hs := keeps_existsAt path s
  rw [h] at hs
  exact hs

/-- The file name a bare command stands for. A command with a dot in it is a file name already. -/
def appFile (command : Str) : Str :=
  if command.contains '.' then command else command ++ ".rhai".toList

theorem searchRoots_cons (command root : Str) (rest : List Str) :
    (searchRoots command (root :: rest) : Op Error (Shell σ) Str) =
      (onVfs (Vfs.existsAt (root ++ '/' :: appFile command)) >>= fun present =>
        Op.read >>= fun s =>
          if present && s.runtimes.supports (root ++ '/' :: appFile command) then
            pure (root ++ '/' :: appFile command)
          else searchRoots command rest) := by
  have hpath : (if command.contains '.' then root ++ '/' :: command
      else root ++ '/' :: (command ++ ".rhai".toList)) = root ++ '/' :: appFile command := by
    unfold appFile
    split <;> rfl
  rw [searchRoots, hpath]

/-- A path that the search finds: one of the directories, the command's file, and a runtime. It is not normalized. -/
theorem searchRoots_ok {command path : Str} {roots : List Str} {s s' : Shell σ}
    (h : searchRoots command roots s = (.ok path, s')) :
    SameShell s s' ∧ (∃ root ∈ roots, path = root ++ '/' :: appFile command) ∧
      s.runtimes.supports path = true := by
  -- by the directories; looking has changed nothing that matters here
  induction roots generalizing s with
  | nil => cases h
  | cons root rest ih =>
    rw [searchRoots_cons] at h
    obtain ⟨present, s₁, hexists, h⟩ := Op.bind_ok h
    have hsame := same_of_existsAt hexists
    rw [Op.run_bind, Op.run_read] at h
    simp only at h
    -- found in this directory, or looked for in the others
    by_cases hfound : (present && s₁.runtimes.supports (root ++ '/' :: appFile command)) = true
    · rw [if_pos hfound] at h
      cases h
      rw [Bool.and_eq_true, hsame.runtimes] at hfound
      exact ⟨hsame, ⟨root, List.mem_cons_self, rfl⟩, hfound.2⟩
    · rw [if_neg hfound] at h
      obtain ⟨hsame', ⟨root', hroot, hpath⟩, hsupports⟩ := ih h
      rw [hsame.runtimes] at hsupports
      exact ⟨IsTrans.trans _ _ _ hsame hsame', ⟨root', List.mem_cons_of_mem _ hroot, hpath⟩,
        hsupports⟩

/-- What a command resolves to: a normal path, or a bare name behind an application directory with a runtime for it.
    Only in the second case can there be dots left. -/
theorem resolveCommand_ok {command path : Str} {s s' : Shell σ} (hcwd : Rooted s.cwd)
    (h : resolveCommand command s = (.ok path, s')) :
    SameShell s s' ∧ (Rooted path ∨ '/' ∉ appFile command ∧
      (∃ root ∈ ["/sys/apps".toList, "/apps".toList], path = root ++ '/' :: appFile command) ∧
        s.runtimes.supports path = true) := by
  unfold resolveCommand at h
  split at h
  -- with a slash the path is resolved, and taken as it is or with the extension
  case isTrue =>
    rw [Op.run_bind, Op.run_read] at h
    obtain ⟨p, s₁, hn, h⟩ := Op.bind_ok h
    rw [Op.run_ofExcept, Prod.mk.injEq] at hn
    obtain ⟨hn, rfl⟩ := hn
    have hp := hcwd.normalizePath hn
    obtain ⟨present, s₂, hexists, h⟩ := Op.bind_ok h
    have hsame := same_of_existsAt hexists
    rw [Op.run_bind, Op.run_read] at h
    simp only at h
    split at h
    · cases h
      exact ⟨hsame, Or.inl hp⟩
    · split at h
      · obtain ⟨present', s₃, hexists', h⟩ := Op.bind_ok h
        have hsame' := same_of_existsAt hexists'
        split at h
        · cases h
          exact ⟨IsTrans.trans _ _ _ hsame hsame', Or.inl hp.append_rhai⟩
        · cases h
      · cases h
  case isFalse hslash =>
    obtain ⟨hsame, hroot, hsupports⟩ := searchRoots_ok h
    refine ⟨hsame, Or.inr ⟨?_, hroot, hsupports⟩⟩
    have hmem : '/' ∉ command := by simpa [List.contains_iff_mem] using hslash
    unfold appFile
    split
    · exact hmem
    · intro hin
      exact (List.mem_append.mp hin).elim hmem (by decide)

/-! ## Starting an application -/

/-- The commands that start no application. `run` is not among them, since it starts the application that is named
    behind it. -/
def builtins : List Str :=
  ["cd".toList, "exit".toList, "clear".toList, "passwd".toList, "setup".toList]

/-- The application and the arguments that a command line names, if it does not name a builtin. -/
def appCommand (line : Str) : Option (Str × List Str) :=
  match splitCommandLine line with
  | .ok (command :: args) =>
      if builtins.contains command then none
      else if command = "run".toList then args.head?.map fun path => (path, args.tail)
      else some (command, args)
  | _ => none

theorem dispatch_of_notMem [Argon2] {command : Str} (h : command ∉ builtins) (args : List Str) :
    (dispatch command args : Op Error (Shell σ) CommandOutcome) =
      if command = "run".toList then
        match args with
        | [] => Op.throw (.invalidInput "usage: run <app> [args...]".toList)
        | path :: rest => .next <$> executeApp path rest
      else .next <$> executeApp command args := by
  simp only [builtins, List.mem_cons, List.not_mem_nil, or_false, not_or] at h
  obtain ⟨hcd, hexit, hclear, hpasswd, hsetup⟩ := h
  have hpass : ¬ (command = "passwd".toList ∨ command = "setup".toList) := by
    rintro (heq | heq)
    · exact hpasswd heq
    · exact hsetup heq
  exact (if_neg hcd).trans ((if_neg hexit).trans ((if_neg hclear).trans (if_neg hpass)))

theorem runCommand_of_split [Argon2] {line command : Str} {args : List Str}
    (h : splitCommandLine line = .ok (command :: args)) :
    (runCommand line : Op Error (Shell σ) CommandOutcome) = dispatch command args := by
  unfold runCommand
  rw [h]
  rfl

/-- A line that names an application executes it, with the words behind the name as its arguments, and the outcome is
    never an exit. -/
theorem runCommand_of_appCommand [Argon2] {line command : Str} {args : List Str}
    (h : appCommand line = some (command, args)) :
    (runCommand line : Op Error (Shell σ) CommandOutcome) =
      .next <$> executeApp command args := by
  unfold appCommand at h
  cases hsplit : splitCommandLine line with
  | error e =>
    rw [hsplit] at h
    cases h
  | ok tokens =>
    rw [hsplit] at h
    cases tokens with
    | nil => cases h
    | cons first rest =>
      rw [runCommand_of_split hsplit]
      simp only at h
      -- a builtin is no application, and `run` has its application in the arguments
      by_cases hb : first ∈ builtins
      · rw [if_pos (List.contains_iff_mem.mpr hb)] at h
        cases h
      · rw [if_neg (mt List.contains_iff_mem.mp hb)] at h
        rw [dispatch_of_notMem hb]
        by_cases hrun : first = "run".toList
        · rw [if_pos hrun] at h ⊢
          cases rest with
          | nil => cases h
          | cons path rest =>
            cases h
            rfl
        · rw [if_neg hrun] at h ⊢
          cases h
          rfl

/-- The line starts this application, in this state. All that can be refused before has been passed. -/
def Starts (line : Str) (s : Shell σ) (launch : Launch) (s' : Shell σ) : Prop :=
  ∃ command args, appCommand line = some (command, args) ∧
    loadApp command args s = (.ok launch, s')

/-- What is left of the command once the application starts: to run it, in the shell as loading has left it. -/
theorem Starts.runCommand [Argon2] {line : Str} {s s' : Shell σ} {launch : Launch}
    (h : Starts line s launch s') :
    runCommand line s = (CommandOutcome.next <$> startApp launch) s' := by
  obtain ⟨command, args, happ, hload⟩ := h
  rw [runCommand_of_appCommand happ, executeApp, Op.map_bind, Op.run_bind_ok hload]

theorem trusted_of_parseMetadata {sourcePath source : Str} {trusted : Bool} {app : AppIdentity}
    (h : parseMetadata sourcePath source trusted = .ok app) : app.trusted = trusted := by
  unfold parseMetadata at h
  cases hs : fileStem sourcePath with
  | none =>
    rw [hs] at h
    cases h
  | some stem =>
    rw [hs] at h
    simp only at h
    cases hp : Header.parseLines (lines source) ⟨stem, 1, []⟩ with
    | error e =>
      rw [hp] at h
      cases h
    | ok header =>
      rw [hp] at h
      cases h
      rfl

/-- The steps of loading an application: the path, the source that is read there, and whether the path is a trusted
    one. -/
theorem loadApp_ok {command : Str} {args : List Str} {s s' : Shell σ} {launch : Launch}
    (h : loadApp command args s = (.ok launch, s')) :
    ∃ s₁, resolveCommand command s = (.ok launch.path, s₁) ∧
      (∃ v, Vfs.readText launch.path s₁.system.vfs = (.ok launch.source, v)) ∧
      launch.identity.trusted = isTrustedPath launch.path := by
  obtain ⟨path, s₁, hresolve, h⟩ := Op.bind_ok h
  obtain ⟨source, s₂, hread, h⟩ := Op.bind_ok h
  split at h
  · cases h
  obtain ⟨identity, s₃, hmeta, h⟩ := Op.bind_ok h
  cases h
  refine ⟨s₁, hresolve, ?_, trusted_of_parseMetadata (congrArg Prod.fst hmeta)⟩
  have hv := congrArg Prod.fst hread
  exact ⟨(Vfs.readText path s₁.system.vfs).2, Prod.ext hv rfl⟩

/-- A path with a runtime does not end in a dot, as long as no runtime is registered for the empty extension. -/
theorem ne_dot_of_supports {runtimes : RuntimeRegistry} {path : Str}
    (hext : ∀ r ∈ runtimes, r.extension ≠ []) (h : runtimes.supports path = true) (x : Str) :
    path ≠ x ++ ['.'] := by
  rintro rfl
  obtain ⟨a, ext, hpath, hdot, r, hr, rfl⟩ := RuntimeRegistry.supports_iff.mp h
  rcases List.eq_nil_or_concat' r.extension with hnil | ⟨e, z, hconcat⟩
  · exact hext r hr hnil
  · rw [hconcat] at hpath hdot
    have hpath' : x ++ ['.'] = (a ++ '.' :: e) ++ [z] := by simpa using hpath
    have hz := List.singleton_inj.mp (List.append_inj' hpath' rfl).2
    exact hdot (hz ▸ by simp)

/-- A trusted path that can be read is normal. For a bare command this needs that no runtime has the empty
    extension. -/
theorem rooted_of_trusted {command path p : Str} {s s' : Shell σ} (hcwd : Rooted s.cwd)
    (hext : ∀ r ∈ s.runtimes, r.extension ≠ []) (h : resolveCommand command s = (.ok path, s'))
    (htrusted : isTrustedPath path = true) (hn : normalizePath "/".toList path = .ok p) :
    Rooted path := by
  obtain ⟨-, hrooted | ⟨hslash, ⟨root, hroot, hpath⟩, hsupports⟩⟩ := resolveCommand_ok hcwd h
  · exact hrooted
  obtain ⟨c, hc, -⟩ := isTrustedPath_iff.mp htrusted
  simp only [List.mem_cons, List.not_mem_nil, or_false] at hroot
  rcases hroot with rfl | rfl
  · have hfile : path = "/sys/apps/".toList ++ appFile command := by
      rw [hpath]
      rfl
    rw [hfile] at hn hsupports ⊢
    obtain ⟨⟨hnul, hback⟩, -⟩ := normalizePath_ok_iff.mp hn
    -- the dots that are no names end in a dot, and have no runtime
    have hne := ne_dot_of_supports hext hsupports
    refine rooted_sysApps ⟨⟨⟨?_, hslash⟩, ?_, ?_⟩, ?_, ?_⟩
    · intro hnil
      unfold appFile at hnil
      split at hnil
      case isTrue hdot =>
        rw [hnil] at hdot
        cases hdot
      · exact absurd (List.append_eq_nil_iff.mp hnil).2 (by decide)
    · intro hdot
      exact hne "/sys/apps/".toList (by rw [hdot]; rfl)
    · intro hdots
      exact hne "/sys/apps/.".toList (by rw [hdots]; rfl)
    · exact fun hx => hnul (List.mem_append_right _ hx)
    · exact fun hx => hback (List.mem_append_right _ hx)
  · -- the other directory is not a trusted one
    rw [hpath] at hc
    have hsecond := congrArg (fun l => l[1]?) hc
    exact absurd hsecond (by simp)

/-- A trusted application runs a file of the table, directly in `/sys/apps`. The path was normal, so what was read is
    what the path says. -/
theorem trusted_source {line : Str} {s s' : Shell σ} {launch : Launch} (hcwd : Rooted s.cwd)
    (hext : ∀ r ∈ s.runtimes, r.extension ≠ []) (h : Starts line s launch s')
    (htrusted : launch.identity.trusted = true) :
    isPathPrefix "/sys".toList launch.path = true ∧ Rooted launch.path ∧
      ∃ file ∈ s.system.vfs.systemFiles, ∃ c, IsName c ∧
        file.path = "/sys/apps/".toList ++ c ∧ asBytes launch.source = file.data := by
  obtain ⟨command, args, -, hload⟩ := h
  obtain ⟨s₁, hresolve, ⟨v, hread⟩, hflag⟩ := loadApp_ok hload
  rw [htrusted] at hflag
  obtain ⟨c, hpath, hc⟩ := isTrustedPath_iff.mp hflag.symm
  have hsame := (resolveCommand_ok hcwd hresolve).1
  have hsys : isPathPrefix "/sys".toList launch.path = true := by
    rw [hpath]
    exact isPathPrefix_sysApps c
  -- the read has normalized the path, so it is one that could be
  -- the file came from the backend, or from the table
  obtain ⟨bytes, hutf8, ⟨q, hq, -⟩ | ⟨p, file, hn, -, hfile, hdata, -⟩⟩ := Vfs.readText_ok hread
  · have hrooted := rooted_of_trusted hcwd hext hresolve hflag.symm hq.1
    have hout := hq.2.1
    rw [← names_of_rooted hrooted hq.1, hsys] at hout
    cases hout
  · have hrooted := rooted_of_trusted hcwd hext hresolve hflag.symm hn
    rw [normalizePath_self hrooted] at hn
    cases hn
    obtain ⟨hmem, hfpath⟩ := Vfs.path_of_systemFile hfile
    rw [hsame.systemFiles] at hmem
    refine ⟨hsys, hrooted, file, hmem, c, ?_, hfpath.trans hpath, ?_⟩
    · exact isName_of_rooted_sysApps (hpath ▸ hrooted) hc
    · rw [hdata]
      exact asBytes_of_fromUtf8 hutf8

/-! ## Bare names in the table -/

theorem existsAt_table {v : Vfs σ} {p : Str} {file : EmbeddedFile} (hp : Rooted p)
    (hsys : isPathPrefix "/sys".toList p = true) (hfile : v.systemFile p = some file) :
    Vfs.existsAt p v = (.ok true, v) := by
  unfold Vfs.existsAt
  rw [normalizePath_self hp, Op.run_bind, Op.run_ofExcept]
  show (ite _ _ _ : Op Error (Vfs σ) Bool) v = _
  split
  · rfl
  · rw [Op.run_map, Op.run_read]
    simp only [hfile, Option.isSome_some, Bool.true_or]

theorem readText_table {v : Vfs σ} {p text : Str} {file : EmbeddedFile} (hp : Rooted p)
    (hsys : isPathPrefix "/sys".toList p = true) (hfile : v.systemFile p = some file)
    (htext : fromUtf8 file.data = some text) : Vfs.readText p v = (.ok text, v) := by
  have hread : Vfs.read p v = (.ok file.data, v) := by
    unfold Vfs.read
    rw [normalizePath_self hp, Op.run_bind, Op.run_ofExcept]
    show (ite _ _ _ : Op Error (Vfs σ) Bytes) v = _
    rw [if_pos hsys, Op.run_bind, Op.run_read]
    simp only [hfile, Op.run_pure]
  unfold Vfs.readText
  rw [Op.run_bind_ok hread]
  simp only [htext, Op.run_pure]

/-- The file of the table that a bare command without a dot stands for, in the first of the directories that are
    searched. -/
def bundledPath (command : Str) : Str := "/sys/apps/".toList ++ (command ++ ".rhai".toList)

/-- A command whose file is in the table resolves to it, and the backend is never asked. -/
theorem resolveCommand_bundled {command : Str} {s : Shell σ} {file : EmbeddedFile}
    (hslash : '/' ∉ command) (hdot : '.' ∉ command) (hnul : '\x00' ∉ command)
    (hback : '\\' ∉ command) (hfile : s.system.vfs.systemFile (bundledPath command) = some file)
    (hsupports : s.runtimes.supports (bundledPath command) = true) :
    resolveCommand command s = (.ok (bundledPath command), s) := by
  -- the command is one name, so that its path is normal and in the table as it stands
  have hrooted : Rooted (bundledPath command) :=
    rooted_sysApps (plain_append_rhai hslash hnul hback)
  have hexists : onVfs (Vfs.existsAt (bundledPath command)) s = (.ok true, s) := by
    have hvfs := existsAt_table hrooted (isPathPrefix_sysApps _) hfile
    show ((Vfs.existsAt (bundledPath command) s.system.vfs).1,
      { s with system := { s.system with
        vfs := (Vfs.existsAt (bundledPath command) s.system.vfs).2 } }) = _
    rw [hvfs]
  have hpath : "/sys/apps".toList ++ '/' :: appFile command = bundledPath command := by
    have hfileName : appFile command = command ++ ".rhai".toList := by
      unfold appFile
      rw [if_neg (by simpa [List.contains_iff_mem] using hdot)]
    rw [hfileName]
    rfl
  unfold resolveCommand
  rw [if_neg (by simpa [List.contains_iff_mem] using hslash), searchRoots_cons, hpath,
    Op.run_bind_ok hexists, Op.run_bind, Op.run_read]
  simp only [hsupports, Bool.and_true, if_true, Op.run_pure]

/-- The application of the table that a bare command starts, with everything the command asks of the table as a
    premise about it. -/
theorem loadApp_bundled {command : Str} (args : List Str) {s : Shell σ} {file : EmbeddedFile}
    (hslash : '/' ∉ command) (hdot : '.' ∉ command) (hnul : '\x00' ∉ command)
    (hback : '\\' ∉ command) (hfile : s.system.vfs.systemFile (bundledPath command) = some file)
    (hsupports : s.runtimes.supports (bundledPath command) = true) {source : Str}
    (hsource : fromUtf8 file.data = some source) (hlen : file.data.length ≤ maxSourceLen)
    {app : AppIdentity} (happ : parseMetadata (bundledPath command) source true = .ok app) :
    loadApp command args s = (.ok ⟨bundledPath command, source, app, app.id :: args⟩, s) := by
  have hrooted : Rooted (bundledPath command) :=
    rooted_sysApps (plain_append_rhai hslash hnul hback)
  -- reading does not ask the backend either
  have hread : onVfs (Vfs.readText (bundledPath command)) s = (.ok source, s) := by
    have hvfs := readText_table hrooted (isPathPrefix_sysApps _) hfile hsource
    show ((Vfs.readText (bundledPath command) s.system.vfs).1,
      { s with system := { s.system with
        vfs := (Vfs.readText (bundledPath command) s.system.vfs).2 } }) = _
    rw [hvfs]
  have htrusted : isTrustedPath (bundledPath command) = true := by
    refine isTrustedPath_iff.mpr ⟨command ++ ".rhai".toList, rfl, fun hin => ?_⟩
    exact (List.mem_append.mp hin).elim hslash (by decide)
  have hshort : ¬ maxSourceLen < (asBytes source).length := by
    rw [asBytes_of_fromUtf8 hsource]
    omega
  unfold loadApp
  rw [Op.run_bind_ok (resolveCommand_bundled hslash hdot hnul hback hfile hsupports),
    Op.run_bind_ok hread]
  show (ite _ _ _ : Op Error (Shell σ) Launch) s = _
  rw [if_neg hshort, htrusted, happ]
  rfl

/-- Trust cannot be forged. A trusted application runs, byte for byte, a file of the table that
    sits directly in `/sys/apps`; one whose path leads to the backend is not trusted; and a bare
    command whose file is in the table starts that file, whatever the backend holds. -/
theorem trust_not_forged [Argon2] (s : Shell σ) (hcwd : Rooted s.cwd)
    (hext : ∀ r ∈ s.runtimes, r.extension ≠ []) (line : Str) :
    (∀ launch s', Starts line s launch s' →
      (launch.identity.trusted = true → ∃ file ∈ s.system.vfs.systemFiles, ∃ c, IsName c ∧
        file.path = "/sys/apps/".toList ++ c ∧ asBytes launch.source = file.data) ∧
      ((∃ q, Routes launch.path q) → launch.identity.trusted = false)) ∧
    ∀ command args, splitCommandLine line = .ok (command :: args) →
      command ∉ builtins → command ≠ "run".toList →
      ('/' ∉ command ∧ '.' ∉ command ∧ '\x00' ∉ command ∧ '\\' ∉ command) →
      ∀ file, s.system.vfs.systemFile (bundledPath command) = some file →
        s.runtimes.supports (bundledPath command) = true →
        ∀ source, fromUtf8 file.data = some source → file.data.length ≤ maxSourceLen →
          ∀ app, parseMetadata (bundledPath command) source true = .ok app →
            Starts line s ⟨bundledPath command, source, app, app.id :: args⟩ s ∧
              runCommand line s = (CommandOutcome.next <$>
                startApp ⟨bundledPath command, source, app, app.id :: args⟩) s := by
  refine ⟨fun launch s' h => ⟨fun ht => (trusted_source hcwd hext h ht).2.2, ?_⟩, ?_⟩
  · -- a path that is routed to the backend is not in `/sys`
    rintro ⟨q, hq⟩
    refine Bool.eq_false_iff.mpr fun ht => ?_
    obtain ⟨hsys, hrooted, -⟩ := trusted_source hcwd hext h ht
    have hout := hq.2.1
    rw [← names_of_rooted hrooted hq.1, hsys] at hout
    cases hout
  · rintro command args hsplit hbuiltin hrun ⟨hslash, hdot, hnul, hback⟩ file hfile hsupports
      source hsource hlen app happ
    have hstarts : Starts line s ⟨bundledPath command, source, app, app.id :: args⟩ s := by
      refine ⟨command, args, ?_, ?_⟩
      · unfold appCommand
        rw [hsplit]
        show ite _ _ _ = _
        rw [if_neg (mt List.contains_iff_mem.mp hbuiltin), if_neg hrun]
      · exact loadApp_bundled args hslash hdot hnul hback hfile hsupports hsource hlen happ
    exact ⟨hstarts, hstarts.runCommand⟩

section Corners

attribute [local instance] lengthArgon2

/-- A shell with this table and one runtime, for this extension, whose scripts do nothing. -/
def tableShell (files : List EmbeddedFile) (extension : Str) : Shell Obliging where
  system := System.withVfs ⟨⟨⟩, files⟩
  runtimes := [⟨extension, fun _ _ _ _ => .done (.ok 0)⟩]
  cwd := "/user".toList

/-- With a runtime for the empty extension, the command `..` is trusted and runs the file of the
    table at `/sys`. And a name with a backslash in it is refused although its file is in the
    table. -/
theorem trust_corners :
    (∃ launch s', Starts "..".toList (tableShell [⟨"/sys".toList, asBytes "x".toList⟩] []) launch s' ∧
        launch.identity.trusted = true ∧ launch.source = "x".toList) ∧
      (splitCommandLine "a\\\\b".toList = .ok ["a\\b".toList] ∧
        (runCommand "a\\\\b".toList
          (tableShell [⟨"/sys/apps/a\\b.rhai".toList, []⟩] "rhai".toList)).1 =
            .error .invalidPath) := by
  refine ⟨?_, by decide, by decide +kernel⟩
  have hload : (loadApp "..".toList []
      (tableShell [⟨"/sys".toList, asBytes "x".toList⟩] [])).1.map
        (fun launch => (launch.identity.trusted, launch.source)) = .ok (true, "x".toList) := by
    decide +kernel
  -- what the run comes to is computed, and the launch is taken from it
  cases hrun : loadApp "..".toList [] (tableShell [⟨"/sys".toList, asBytes "x".toList⟩] []) with
  | mk r s' =>
    rw [hrun] at hload
    cases r with
    | error e => cases hload
    | ok launch =>
      have hboth := Prod.mk.inj (Except.ok.inj hload)
      exact ⟨launch, s', ⟨"..".toList, [], by decide, hrun⟩, hboth.1, hboth.2⟩

theorem trust_not_forged_hello :
    ∃ app, Starts "hello".toList (tableShell [⟨"/sys/apps/hello.rhai".toList, []⟩] "rhai".toList)
      ⟨bundledPath "hello".toList, [], app, [app.id]⟩
      (tableShell [⟨"/sys/apps/hello.rhai".toList, []⟩] "rhai".toList) := by
  refine ⟨⟨"hello".toList, "/sys/apps/hello.rhai".toList, true, 1, []⟩, ?_⟩
  have hforged := trust_not_forged
    (tableShell [⟨"/sys/apps/hello.rhai".toList, []⟩] "rhai".toList)
    ⟨["user".toList], by decide, rfl⟩ (by simp [tableShell]) "hello".toList
  exact (hforged.2 "hello".toList [] (by decide) (by decide) (by decide) (by decide)
    ⟨"/sys/apps/hello.rhai".toList, []⟩ (by decide) (by decide) [] (by decide) (by decide) _
    (by decide)).1

end Corners

end Shell

end Afos
