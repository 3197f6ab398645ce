import Afos.Proof.Appdata
import Afos.Proof.Frame

/-!
# How far the verifier is out of reach

`authorize` refuses the verifier's path and what is below it. That keeps an application from
naming the file, and on a well-formed tree a call that cannot name the file can still change it
in one way only: by moving a directory above it. Nothing else that an application can do to the
directories `user` and `user/config` succeeds; they cannot be removed, written to or replaced.
But `rename` does not know the directories that `remove` protects.

Beside `authorize` there are the appdata calls, which it never sees. They stay below
`/user/appdata` unless the application is called `..`, and then the verifier is a path of
theirs.

With these two doors shut, the invariant `Guarded` holds over any run.
-/

set_option autoImplicit false

namespace Afos

open Lib

/-! ## Storage paths -/

/-- A path that is passed on is passed on in canonical form, and is not empty. The lemmas about trees need nothing
    more of it. -/
theorem Routes.canonical {path q : Str} (h : Routes path q) : IsCanonical q ∧ q ≠ [] := by
  obtain ⟨hn, -, hp⟩ := h
  obtain ⟨cs, hcs, heq⟩ := rooted_root.normalizePath hn
  rw [(List.cons.inj heq).2] at hp ⊢
  refine ⟨isCanonical_join (isName_of_plain hcs), ?_⟩
  intro hnil
  obtain ⟨-, hmount⟩ := (Vfs.persistentPath_ok_iff (isName_of_plain hcs)).mp hp
  rw [(join_eq_nil_iff (isName_of_plain hcs)).mp hnil] at hmount
  rcases hmount with h | h <;> cases List.prefix_nil.mp h

theorem securityFile_eq : securityFile = join securityNames := by decide

/-- The directories above the verifier. There are two, and both are among those that `remove` refuses. -/
theorem at_securityFile {q : Str} (hc : IsCanonical q) (hne : q ≠ [])
    (h : FileTree.At q securityFile) :
    q = securityFile ∨ q = "user/config".toList ∨ q = "user".toList := by
  rcases h with h | h
  · exact Or.inl h.symm
  · have hnames : names q ≠ [] := by
      intro hnil
      rw [IsCanonical, hnil, join_nil] at hc
      exact hne hc.symm
    rw [securityFile_eq, ← hc, below_join_iff (names_isName q) (by decide) hnames] at h
    obtain ⟨d, hd, heq⟩ := h
    -- a proper prefix of three names has one name or two
    rw [← hc]
    rcases hq : names q with _ | ⟨a, _ | ⟨b, _ | ⟨c, rest⟩⟩⟩
    · exact absurd hq hnames
    · rw [hq] at heq
      cases heq
      exact Or.inr (Or.inr rfl)
    · rw [hq] at heq
      cases heq
      exact Or.inr (Or.inl rfl)
    · rw [hq] at heq
      have hlen := congrArg List.length heq
      have hpos := List.length_pos_of_ne_nil hd
      simp only [securityNames, List.length_cons, List.length_append, List.length_nil] at hlen
      omega

/-! ## The invariant -/

/-- The tree has its shape, and the verifier has these bytes. The shape is needed, as a rename on another tree might
    overwrite a file. -/
structure Guarded (data : Bytes) (t : FileTree) : Prop where
  sound : t.Sound
  present : t.files.lookup securityFile = some data

section Storage

variable {D η : Type} [BlockDevice D] {data : Bytes}

theorem Guarded.run {p : BareMetalPlatform D η} (h : Guarded data p.tree) (op : StorageOp)
    (hc : ∀ q ∈ op.paths, IsCanonical q ∧ q ≠ []) (hs : op.Spares securityFile) :
    Guarded data (op.run p).2.tree :=
  ⟨StorageOp.run_sound h.sound hc, StorageOp.lookup_of_spares h.sound hc hs h.present⟩

variable [Hardware η]

namespace Vfs

variable {v : Vfs (BareMetalPlatform D η)}

theorem guarded_write (h : Guarded data v.tree) {path : Str}
    (hp : ∀ q, Routes path q → q ≠ securityFile) (bytes : Bytes) :
    Guarded data (write path bytes v).2.tree := by
  rcases write_cases (σ := BareMetalPlatform D η) path bytes with ⟨q, hq, hrun⟩ | ⟨e, hrun⟩
  · rw [hrun]
    refine Guarded.run h (.write q bytes) ?_ (Ne.symm (hp q hq))
    simpa [StorageOp.paths] using hq.canonical
  · rw [hrun]
    exact h

theorem guarded_createDirAll (h : Guarded data v.tree) (path : Str) :
    Guarded data (createDirAll path v).2.tree := by
  rcases createDirAll_cases (σ := BareMetalPlatform D η) path with ⟨q, hq, hrun⟩ | ⟨e, hrun⟩
  · rw [hrun]
    refine Guarded.run h (.createDirAll q) ?_ trivial
    simpa [StorageOp.paths] using hq.canonical
  · rw [hrun]
    exact h

/-- The directories above the verifier are among those that are never removed. -/
theorem guarded_remove (h : Guarded data v.tree) {path : Str}
    (hp : ∀ q, Routes path q → q ≠ securityFile) : Guarded data (remove path v).2.tree := by
  rcases remove_cases (σ := BareMetalPlatform D η) path with ⟨q, hq, hroot, hrun⟩ | ⟨e, hrun⟩
  · rw [hrun]
    refine Guarded.run h (.remove q) (by simpa [StorageOp.paths] using hq.canonical) ?_
    intro hat
    rcases at_securityFile hq.canonical.1 hq.canonical.2 hat with rfl | rfl | rfl
    · exact hp _ hq rfl
    · exact hroot (by decide)
    · exact hroot (by decide)
  · rw [hrun]
    exact h

/-- A rename keeps the verifier, unless it moves a directory above it. The path of such a directory is not refused, as
    the verifier's own is. -/
theorem guarded_rename (h : Guarded data v.tree) {source : Str}
    (hp : ∀ q, Routes source q → ¬ FileTree.At q securityFile) (target : Str) :
    Guarded data (rename source target v).2.tree := by
  rcases rename_cases (σ := BareMetalPlatform D η) source target with
    ⟨q, q', hq, hq', hrun⟩ | ⟨e, hrun⟩
  · rw [hrun]
    refine Guarded.run h (.rename q q') ?_ (hp q hq)
    simpa [StorageOp.paths] using ⟨hq.canonical, hq'.canonical⟩
  · rw [hrun]
    exact h

end Vfs

end Storage

/-! ## Application data -/

/-- Without `..` among them, the names that are not `.` are pushed one after the other. So the second normalization
    keeps the order of what it keeps. -/
theorem foldlM_pushComponent_filter {cs : List Str} (h : ∀ c ∈ cs, c ≠ "..".toList)
    (stack : List Str) :
    cs.foldlM pushComponent stack =
      .ok (stack ++ cs.filter fun c => c ≠ [] ∧ c ≠ ".".toList) := by
  -- by the names: an empty one and a dot are skipped, everything else is pushed
  induction cs generalizing stack with
  | nil => simp [pure, Except.pure]
  | cons c cs ih =>
    have hrest := fun stack => ih (fun d hd => h d (List.mem_cons_of_mem _ hd)) stack
    rw [List.foldlM_cons]
    by_cases hdot : c = [] ∨ c = ".".toList
    · have hpush : pushComponent stack c = .ok stack := by rw [pushComponent, if_pos hdot]
      have hskip : ¬ (c ≠ [] ∧ c ≠ ".".toList) := by tauto
      rw [hpush, List.filter_cons_of_neg (by simpa only [decide_eq_true_eq] using hskip)]
      exact hrest stack
    · have hpush : pushComponent stack c = .ok (stack ++ [c]) := by
        rw [pushComponent, if_neg hdot, if_neg (h c List.mem_cons_self)]
      have htake : c ≠ [] ∧ c ≠ ".".toList := by tauto
      rw [hpush, List.filter_cons_of_pos (by simpa only [decide_eq_true_eq] using htake)]
      have hnext := hrest (stack ++ [c])
      rw [List.append_assoc] at hnext
      exact hnext

/-- What the filesystem reads a path of an application's data as, the id `.` included. It is never the verifier's
    path, if the id is not `..`. -/
theorem appdata_ne_securityPath {app : AppIdentity} (hid : IsName app.id)
    (hdots : app.id ≠ "..".toList) {path p p' : Str}
    (hn : normalizePath (appdataRootOf app) path = .ok p)
    (hpre : pathPrefix (appdataRootOf app) p = true)
    (hn' : normalizePath "/".toList p = .ok p') : p' ≠ securityPath := by
  obtain ⟨out, rfl, ⟨rest, rfl⟩, hout⟩ := resolveAppdata_names hid hn hpre
  -- no name is `..`: neither of the resolved ones, nor of the directory's
  have hclean : ∀ c ∈ appdataNames app.id ++ rest, c ≠ "..".toList := by
    intro c hc
    rcases hout c hc with h | h
    · exact h.2.2
    · simp only [appdataNames, List.mem_cons, List.not_mem_nil, or_false] at h
      rcases h with rfl | rfl | rfl
      · decide
      · decide
      · exact hdots
  have hname : ∀ c ∈ appdataNames app.id ++ rest, IsName c := by
    intro c hc
    rcases hout c hc with h | h
    · exact h.1
    · exact isName_appdataNames hid c h
  obtain ⟨-, out', hfold, rfl⟩ := normalizePath_ok_iff.mp hn'
  have hstart : startNames "/".toList ('/' :: join (appdataNames app.id ++ rest)) = [] := by
    simp [startNames]
  rw [hstart, splitOn_slash_join hname (by simp [appdataNames])] at hfold
  rw [List.foldlM_cons] at hfold
  have hfold' := (foldlM_pushComponent_filter hclean []).symm.trans hfold
  obtain rfl := Except.ok.inj hfold'
  intro heq
  -- the second name of the one is `appdata`, of the other `config`
  have hsec : securityPath = '/' :: join securityNames := by decide
  rw [hsec, List.nil_append] at heq
  have hlist := slash_join_injective (fun c hc => hname c (List.mem_of_mem_filter hc))
    (by decide) heq
  have hsplit : (appdataNames app.id ++ rest).filter (fun c => c ≠ [] ∧ c ≠ ".".toList) =
      "user".toList :: "appdata".toList ::
        (app.id :: rest).filter (fun c => c ≠ [] ∧ c ≠ ".".toList) := by
    rw [appdataNames, List.cons_append, List.filter_cons_of_pos (by decide), List.cons_append,
      List.filter_cons_of_pos (by decide)]
    rfl
  rw [hsplit] at hlist
  have hsecond := (List.cons.inj (List.cons.inj hlist).2).1
  exact absurd hsecond (by decide)

/-! ## One call -/

/-- A rename of a directory above the verifier, by an application that declares both ends. This is the first door. -/
def ApiCall.MovesConfig (app : AppIdentity) (cwd : Str) : ApiCall → Prop
  | .rename source target =>
      ∃ p p', normalizePath cwd source = .ok p ∧ normalizePath cwd target = .ok p' ∧
        (p = "/user".toList ∨ p = "/user/config".toList) ∧
        declares app (.fsWrite p) = true ∧ declares app (.fsWrite p') = true
  | _ => False

/-- The path a call reads, after both normalizations, that of the session and that of the filesystem. -/
def ApiCall.ReadsAt (cwd appdataRoot : Str) : ApiCall → Str → Prop
  | .readText path, p =>
      ∃ p₁, normalizePath cwd path = .ok p₁ ∧ normalizePath "/".toList p₁ = .ok p
  | .appdataRead path, p =>
      ∃ p₁, normalizePath appdataRoot path = .ok p₁ ∧ normalizePath "/".toList p₁ = .ok p
  | _, _ => False

/-- The filesystem has these bytes at this path, in its table or in the backend. -/
inductive Vfs.Holds {D η : Type} (v : Vfs (BareMetalPlatform D η)) (p : Str) (data : Bytes) : Prop
  | table (file : EmbeddedFile) (mem : file ∈ v.systemFiles) (path : file.path = p)
      (data : file.data = data)
  | stored (q : Str) (path : p = '/' :: q) (data : v.tree.files.lookup q = some data)

theorem Vfs.Holds.of_contents {D η : Type} {v v' : Vfs (BareMetalPlatform D η)} {p : Str}
    {data : Bytes} (h : v'.Holds p data) (hc : v'.contents = v.contents) : v.Holds p data := by
  cases h with
  | table file mem path data =>
    have htable : v'.systemFiles = v.systemFiles := congrArg Prod.fst hc
    exact .table file (htable ▸ mem) path data
  | stored q path data =>
    have htree : v'.tree = v.tree := congrArg Prod.snd hc
    exact .stored q path (htree ▸ data)

/-- `authorize` lets through only what is declared, and never the verifier. Whether the user was asked does not matter
    here. -/
theorem System.authorize_ok {σ : Type} [Platform σ] [Argon2] {app : AppIdentity}
    {capability : Capability} {resource : Str} {s s' : System σ}
    (h : System.authorize app capability resource s = (.ok (), s')) :
    isSecurityResource resource = false ∧ declares app capability = true := by
  unfold System.authorize at h
  split at h
  · cases h
  case isFalse hopen =>
    split at h
    · cases h
    case isFalse hdeclared =>
      exact ⟨by simpa using hopen, by simpa using hdeclared⟩

theorem ne_securityFile_of_open {p q : Str} (hp : Rooted p)
    (hopen : isSecurityResource p = false) (hq : Routes p q) : q ≠ securityFile := by
  rintro rfl
  rw [names_of_rooted hp hq.1] at hopen
  cases hopen

section Session

variable {D η : Type} [BlockDevice D] [Hardware η] {data : Bytes}

theorem Vfs.holds_of_readText {v v' : Vfs (BareMetalPlatform D η)} {path text : Str}
    (h : readText path v = (.ok text, v')) :
    ∃ p bytes, normalizePath "/".toList path = .ok p ∧ v.Holds p bytes ∧
      fromUtf8 bytes = some text := by
  obtain ⟨bytes, hutf8, ⟨q, hq, hread⟩ | ⟨p, file, hn, -, hfile, hdata, -⟩⟩ := readText_ok h
  · refine ⟨'/' :: q, bytes, hq.1, .stored q rfl ?_, hutf8⟩
    exact BareMetalPlatform.storageRead_ok (congrArg Prod.fst hread)
  · obtain ⟨hmem, hpath⟩ := path_of_systemFile hfile
    exact ⟨p, bytes, hn, .table file hmem hpath hdata, hutf8⟩

theorem AppSession.guarded_appdataWrite {s : AppSession (BareMetalPlatform D η)} (h : Guarded data s.tree)
    {app : AppIdentity} (hs : s.IsOf app) (hid : IsName app.id) (hdots : app.id ≠ "..".toList)
    (path text : Str) : Guarded data (AppSession.appdataWrite path text s).2.tree := by
  rw [AppSession.appdataWrite, Op.run_bind]
  cases hres : AppSession.resolveAppdata path s with
  | mk r s' =>
    obtain ⟨rfl, hp⟩ := AppSession.resolveAppdata_cases hres
    cases r with
    | error e => exact h
    | ok p =>
      obtain ⟨hn, hpre⟩ := hp p rfl
      rw [hs.root] at hn hpre
      -- the directory first, then the file
      have hdir : Guarded data (AppSession.onVfs (Vfs.createDirAll s'.appdataRoot) s').2.tree :=
        Vfs.guarded_createDirAll (v := s'.system.vfs) h s'.appdataRoot
      show Guarded data ((AppSession.onVfs (Vfs.createDirAll s'.appdataRoot) >>= fun _ =>
        AppSession.onVfs (Vfs.write p (asBytes text))) s').2.tree
      rw [Op.run_bind]
      cases hrun : AppSession.onVfs (Vfs.createDirAll s'.appdataRoot) s' with
      | mk r₁ s₁ =>
        rw [hrun] at hdir
        cases r₁ with
        | error e => exact hdir
        | ok u =>
          refine Vfs.guarded_write (v := s₁.system.vfs) hdir ?_ (asBytes text)
          rintro q hq rfl
          exact appdata_ne_securityPath hid hdots hn hpre hq.1 rfl

variable [Argon2]

namespace AppSession

/-- A filesystem call on one path keeps the verifier if its action does, on the paths `authorize` lets through. Asking
    the user changes no file. -/
theorem guarded_withPath {α : Type} {s : AppSession (BareMetalPlatform D η)}
    (h : Guarded data s.tree) (hcwd : Rooted s.cwd) {capability : Str → Capability} {path : Str}
    {act : Str → Op Error (Vfs (BareMetalPlatform D η)) α}
    (hact : ∀ p v, Rooted p → isSecurityResource p = false → Guarded data (Vfs.tree v) →
      Guarded data (act p v).2.tree) : Guarded data (withPath capability path act s).2.tree := by
  cases hrun : withPath capability path act s with
  | mk r s' =>
    -- it does not resolve, it is refused, or the action runs on a path that is not the verifier's
    rcases withPath_cases hrun with ⟨e, -, rfl, -⟩ | ⟨p, y, hn, ⟨e, hauth, -, rfl⟩ | ⟨hauth, hok⟩⟩
    · exact h
    · show Guarded data y.tree
      rw [System.tree_eq ((System.keeps_authorize s.app _ _).eq hauth)]
      exact h
    · have hvfs : Guarded data (Vfs.tree y.vfs) := by
        show Guarded data y.tree
        rw [System.tree_eq ((System.keeps_authorize s.app _ _).eq hauth)]
        exact h
      have hnext := hact p y.vfs (hcwd.normalizePath hn) (System.authorize_ok hauth).1 hvfs
      rw [← congrArg Prod.snd hok]
      exact hnext

/-- A rename keeps the verifier, unless it moves a directory above it. -/
theorem guarded_rename {s : AppSession (BareMetalPlatform D η)} (h : Guarded data s.tree)
    (hcwd : Rooted s.cwd) {source target : Str}
    (hmoves : ¬ (ApiCall.rename source target).MovesConfig s.app s.cwd) :
    Guarded data (rename source target s).2.tree := by
  have hsame : ∀ {x y : System (BareMetalPlatform D η)} {p : Str} {r : Except Error Unit},
      System.authorize s.app (.fsWrite p) p x = (r, y) → Guarded data x.tree →
        Guarded data y.tree := by
    intro x y p r hauth hx
    rw [System.tree_eq ((System.keeps_authorize s.app _ _).eq hauth)]
    exact hx
  cases hrun : rename source target s with
  | mk r s' =>
    rcases rename_cases hrun with ⟨e, -, rfl⟩ | ⟨p, p', y, hn, hn', hrest⟩
    · exact h
    -- authorization leaves the tree alone, granted or not
    rcases hrest with ⟨e, hy, -, rfl⟩ | ⟨z, hy, ⟨e, hz, -, rfl⟩ | ⟨hz, hok⟩⟩
    · exact hsame hy h
    · exact hsame hz (hsame hy h)
    · rw [← congrArg Prod.snd hok]
      refine Vfs.guarded_rename (v := z.vfs) (hsame hz (hsame hy h)) ?_ p'
      intro q hq hat
      have hp := names_of_rooted (hcwd.normalizePath hn) hq.1
      have hdeclared := And.intro (System.authorize_ok hy).2 (System.authorize_ok hz).2
      -- the source is the verifier or above it, and there are three such paths
      rcases at_securityFile hq.canonical.1 hq.canonical.2 hat with rfl | rfl | rfl
      · exact ne_securityFile_of_open (hcwd.normalizePath hn) (System.authorize_ok hy).1 hq rfl
      · exact hmoves ⟨p, p', hn, hn', Or.inr hp, hdeclared⟩
      · exact hmoves ⟨p, p', hn, hn', Or.inl hp, hdeclared⟩

/-- One call keeps the verifier, unless it moves a directory above it. It does not matter what the call answers. -/
theorem call_guarded {s : AppSession (BareMetalPlatform D η)} (h : Guarded data s.tree)
    (hcwd : Rooted s.cwd) {app : AppIdentity} (hs : s.IsOf app) (hid : IsName app.id)
    (hdots : app.id ≠ "..".toList) {request : ApiCall}
    (hmoves : ¬ request.MovesConfig s.app s.cwd) : Guarded data (call request s).2.tree := by
  -- most calls write nothing; of those that do, each is kept from the verifier in its own way
  cases hw : request.writes with
  | false =>
    rw [tree_eq (keeps_contents_call hw s)]
    exact h
  | true =>
    cases request with
    | writeText path text =>
      rw [call, Op.snd_map]
      refine guarded_withPath h hcwd fun p v hp hopen hv => Vfs.guarded_write hv ?_ _
      exact fun q => ne_securityFile_of_open hp hopen
    | createDirAll path =>
      rw [call, Op.snd_map]
      exact guarded_withPath h hcwd fun p v _ _ hv => Vfs.guarded_createDirAll hv p
    | remove path =>
      rw [call, Op.snd_map]
      refine guarded_withPath h hcwd fun p v hp hopen hv => Vfs.guarded_remove hv ?_
      exact fun q => ne_securityFile_of_open hp hopen
    | rename source target =>
      rw [call, Op.snd_map]
      exact guarded_rename h hcwd hmoves
    | appdataWrite path text =>
      rw [call, Op.snd_map]
      exact guarded_appdataWrite h hs hid hdots path text
    | _ => cases hw

/-- A text that a call answers was typed, or is the text of a file that is not the verifier. The other calls answer no
    text. -/
theorem call_text {s : AppSession (BareMetalPlatform D η)} (hcwd : Rooted s.cwd)
    {app : AppIdentity} (hs : s.IsOf app) (hid : IsName app.id) (hdots : app.id ≠ "..".toList)
    {request : ApiCall} {text : Str} (h : (call request s).1 = .ok (.text text)) :
    (∃ prompt, request = .consoleReadLine prompt) ∨
      ∃ p bytes, request.ReadsAt s.cwd s.appdataRoot p ∧ p ≠ securityPath ∧
        s.system.vfs.Holds p bytes ∧ fromUtf8 bytes = some text := by
  cases request with
  | consoleReadLine prompt => exact Or.inl ⟨prompt, rfl⟩
  | readText path =>
    obtain ⟨t, s', hrun, ht⟩ := Op.map_ok h
    cases ht
    rcases withPath_cases hrun with ⟨e, he, -⟩ | ⟨p₁, y, hn, ⟨e, -, he, -⟩ | ⟨hauth, hok⟩⟩
    · cases he
    · cases he
    · obtain ⟨v', hread, -⟩ := onVfs_eq hok
      obtain ⟨p, bytes, hn', hholds, hutf8⟩ := Vfs.holds_of_readText hread
      have hc : y.vfs.contents = s.system.vfs.contents :=
        (System.keeps_authorize s.app _ _).eq hauth
      refine Or.inr ⟨p, bytes, ⟨p₁, hn, hn'⟩, ?_, hholds.of_contents hc, hutf8⟩
      rintro rfl
      -- the path was normal already, so it is the one `authorize` looked at
      rw [normalizePath_self (hcwd.normalizePath hn)] at hn'
      cases hn'
      have hopen := (System.authorize_ok hauth).1
      cases hopen
  | appdataRead path =>
    obtain ⟨t, s', hrun, ht⟩ := Op.map_ok h
    cases ht
    obtain ⟨p₁, s₁, hres, hok⟩ := Op.bind_ok hrun
    obtain ⟨rfl, hp⟩ := resolveAppdata_cases hres
    obtain ⟨hn, hpre⟩ := hp p₁ rfl
    obtain ⟨v', hread, -⟩ := onVfs_eq hok
    obtain ⟨p, bytes, hn', hholds, hutf8⟩ := Vfs.holds_of_readText hread
    refine Or.inr ⟨p, bytes, ⟨p₁, hn, hn'⟩, ?_, hholds, hutf8⟩
    rw [hs.root] at hn hpre
    exact appdata_ne_securityPath hid hdots hn hpre hn'
  | _ =>
    obtain ⟨t, s', -, ht⟩ := Op.map_ok h
    cases ht

/-! ## Whole runs -/

/-- A run of calls keeps the verifier, if none of them moves a directory above it. -/
theorem runCalls_guarded {s : AppSession (BareMetalPlatform D η)} (h : Guarded data s.tree)
    (hcwd : Rooted s.cwd) {app : AppIdentity} (hs : s.IsOf app) (hid : IsName app.id)
    (hdots : app.id ≠ "..".toList) {requests : List ApiCall}
    (hmoves : ∀ r ∈ requests, ¬ r.MovesConfig app s.cwd) :
    Guarded data (runCalls requests s).tree := by
  -- by the calls; the session stays the same, so each is one of the same application
  induction requests generalizing s with
  | nil => exact h
  | cons request requests ih =>
    have hsame := call_sameSession request s
    have hfirst : ¬ request.MovesConfig s.app s.cwd := by
      rw [hs.identity]
      exact hmoves request List.mem_cons_self
    refine ih (s := (call request s).2) (call_guarded h hcwd hs hid hdots hfirst) ?_ ?_ ?_
    · rw [hsame.cwd]
      exact hcwd
    · exact ⟨hsame.app.trans hs.identity, hsame.appdataRoot.trans hs.root⟩
    · rw [hsame.cwd]
      exact fun r hr => hmoves r (List.mem_cons_of_mem _ hr)

/-- An application that is not called `..` and moves no directory above the verifier leaves it
    as it was, and is never shown it: each text it gets was typed at the console or is, at the
    path that the call reads, another file's. -/
theorem verifier_out_of_reach {sourcePath source : Str} {trusted : Bool} {app : AppIdentity}
    (happ : parseMetadata sourcePath source trusted = .ok app)
    (system : System (BareMetalPlatform D η)) (args : List Str) {cwd : Str} (hcwd : Rooted cwd)
    (htree : system.tree.Sound) {data : Bytes}
    (hfile : system.tree.files.lookup securityFile = some data)
    (hdots : app.id ≠ "..".toList) (requests : List ApiCall)
    (hmoves : ∀ r ∈ requests, ¬ r.MovesConfig app cwd) :
    (runCalls requests (AppSession.new system app args cwd)).tree.files.lookup securityFile =
        some data ∧
      ∀ before request after, requests = before ++ request :: after →
        ∀ text, (call request (runCalls before (AppSession.new system app args cwd))).1 =
            .ok (.text text) →
          (∃ prompt, request = .consoleReadLine prompt) ∨
            ∃ p bytes, request.ReadsAt cwd (appdataRootOf app) p ∧ p ≠ securityPath ∧
              (runCalls before (AppSession.new system app args cwd)).system.vfs.Holds p bytes ∧
              fromUtf8 bytes = some text := by
  have hs := isOf_new system app args cwd
  have hid := isName_id happ
  have hguarded : Guarded data (AppSession.new system app args cwd).tree := ⟨htree, hfile⟩
  refine ⟨(runCalls_guarded hguarded hcwd hs hid hdots hmoves).present, ?_⟩
  intro before request after _ text htext
  have hsame := runCalls_sameSession before (AppSession.new system app args cwd)
  have hs' : (runCalls before (AppSession.new system app args cwd)).IsOf app :=
    ⟨hsame.app.trans hs.identity, hsame.appdataRoot.trans hs.root⟩
  have hcwd' : Rooted (runCalls before (AppSession.new system app args cwd)).cwd := by
    rw [hsame.cwd]
    exact hcwd
  have hans := call_text hcwd' hs' hid hdots htext
  rw [hsame.cwd, hs'.root] at hans
  exact hans

end AppSession

end Session

/-! ## The two doors -/

section Doors

attribute [local instance] lengthArgon2

/-- A machine with a verifier, and with the directory for application data, made by storage calls. -/
def lockedMachine : BareMetalPlatform NoDisk Keyboard :=
  StorageOp.runAll [.createDirAll "user/appdata".toList,
    .write securityFile (asBytes "AFOS-AUTH-1".toList)] (diskless FileTree.empty [])

theorem lockedMachine_sound : lockedMachine.tree.Sound :=
  StorageOp.runAll_sound FileTree.sound_empty (by decide)

def lockedSystem : System (BareMetalPlatform NoDisk Keyboard) := System.new lockedMachine

/-- A trusted application that may read and write below `/user`, as one that comes with the system could be. -/
def moverApp : AppIdentity where
  id := "mover".toList
  sourcePath := "/sys/apps/mover.rhai".toList
  trusted := true
  apiVersion := 1
  capabilities := [.fsRead "/user".toList, .fsWrite "/user".toList]

def moverSession : AppSession (BareMetalPlatform NoDisk Keyboard) :=
  AppSession.new lockedSystem moverApp [] "/user".toList

/-- Moving `/user/config` takes the verifier along, and it can then be read where it is; and to
    an application called `..` the verifier is private data. -/
theorem verifier_reached :
    (parseMetadata "/sys/apps/mover.rhai".toList
        "// afos:capabilities=fs.read:/user,fs.write:/user\n".toList true = .ok moverApp ∧
      (AppSession.runCalls [.rename "/user/config".toList "/user/x".toList]
          moverSession).tree.files.lookup securityFile = none ∧
      (AppSession.call (.readText "/user/x/security".toList)
          (AppSession.runCalls [.rename "/user/config".toList "/user/x".toList] moverSession)).1 =
        .ok (.text "AFOS-AUTH-1".toList)) ∧
    (parseMetadata "/apps/x.rhai".toList "// afos:id=..\n".toList false = .ok dotdotApp ∧
      (AppSession.call (.appdataRead "config/security".toList)
          (AppSession.new lockedSystem dotdotApp [] "/user".toList)).1 =
        .ok (.text "AFOS-AUTH-1".toList)) := by
  refine ⟨⟨by decide, ?_, ?_⟩, by decide, ?_⟩
  · decide +kernel
  · decide +kernel
  · decide +kernel

theorem verifier_out_of_reach_saves :
    ∃ data, (AppSession.runCalls [.createDirAll "/user/saves".toList,
          .rename "/user/saves".toList "/user/old".toList] moverSession).tree.files.lookup
        securityFile = some data := by
  have happ : parseMetadata "/sys/apps/mover.rhai".toList
      "// afos:capabilities=fs.read:/user,fs.write:/user\n".toList true = .ok moverApp := by decide
  have hcwd : Rooted "/user".toList := ⟨["user".toList], by decide, rfl⟩
  have hfile : lockedSystem.tree.files.lookup securityFile =
      some (asBytes "AFOS-AUTH-1".toList) := by decide +kernel
  refine ⟨asBytes "AFOS-AUTH-1".toList, (AppSession.verifier_out_of_reach happ lockedSystem [] hcwd
    lockedMachine_sound hfile (by decide) _ ?_).1⟩
  intro r hr hm
  simp only [List.mem_cons, List.not_mem_nil, or_false] at hr
  rcases hr with rfl | rfl
  · exact hm
  · obtain ⟨p, p', hn, -, hp, -⟩ := hm
    have hsaves : normalizePath "/user".toList "/user/saves".toList =
        .ok "/user/saves".toList := by decide
    cases hsaves.symm.trans hn
    exact absurd hp (by decide)

end Doors

end Afos
