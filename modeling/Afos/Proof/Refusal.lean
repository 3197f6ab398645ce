import Afos.Lib.Run
import Afos.Lib.Sim
import Afos.Proof.Connections
import Afos.Proof.Mounts
import Afos.Proof.Verifier

/-!
# What a refused application learns

Two machines without a disk that have in common what an application may know without asking: its
own data, the directories the system has made, and what the user types. Everything else may
differ. As long as the user refuses, a call of the application goes the same way on both
(`Op.Sim`), so the application cannot tell them apart, with one exception: the state of the
network is given out to whoever has declared a connection to anywhere, and nobody is asked.

The relation between the machines is built in layers, one for each part of a session: trees that
agree at the paths an application reaches by itself, hardware on which the same is typed, records
with the same console output in them.
-/

set_option autoImplicit false

namespace Afos

open Lib

/-! ## Trees -/

namespace FileTree

/-- The trees have the same at these paths: a file with the same content or none in either, and a directory in
    both or in neither. What is at any other path may be in one tree and not in the other, so a result that holds
    under this relation for a set `A` cannot depend on anything outside of `A`. -/
def AgreeOn (A : Str → Prop) (t t' : FileTree) : Prop :=
  ∀ q, A q → t.files.lookup q = t'.files.lookup q ∧
    t.directories.contains q = t'.directories.contains q

variable {A : Str → Prop} {t t' : FileTree} {q : Str}

theorem AgreeOn.contains_files (h : AgreeOn A t t') (hq : A q) :
    t.files.contains q = t'.files.contains q := by
  rw [OrdMap.contains, OrdMap.contains, (h q hq).1]

theorem AgreeOn.insertDir (h : AgreeOn A t t') (p : Str) :
    AgreeOn A (t.insertDir p) (t'.insertDir p) := by
  intro q hq
  rw [FileTree.insertDir, FileTree.insertDir, OrdMap.contains_insert, OrdMap.contains_insert,
    (h q hq).2]
  exact ⟨(h q hq).1, rfl⟩

theorem AgreeOn.insertFile (h : AgreeOn A t t') (p : Str) (data : Bytes) :
    AgreeOn A (t.insertFile p data) (t'.insertFile p data) := by
  intro q hq
  rw [FileTree.insertFile, FileTree.insertFile, OrdMap.lookup_insert, OrdMap.lookup_insert,
    (h q hq).1]
  exact ⟨rfl, (h q hq).2⟩

/-- The loop of `addParents` looks at the paths it passes and nowhere else: it stops at a file among them and makes
    directories of the rest. Trees that agree at these paths are treated alike, and agree there afterwards. -/
theorem sim_addParentsFrom {cs : List Str} {current : Str} (hwalk : ∀ p ∈ walk cs current, A p) :
    Op.Sim (AgreeOn A) (addParentsFrom cs current) (addParentsFrom cs current) := by
  induction cs generalizing current with
  | nil => exact Op.Sim.pure ()
  | cons c cs ih =>
    -- both runs test the same path for a file, and the trees agree about it, so they take the same branch
    refine Op.Sim.read_bind fun t t' h => ?_
    rw [h.contains_files (hwalk _ List.mem_cons_self)]
    split
    · exact Op.Sim.throw _
    · refine Op.Sim.bind (Op.Sim.modify fun _ _ h => h.insertDir _) fun _ => ?_
      exact ih fun p hp => hwalk p (List.mem_cons_of_mem _ hp)

end FileTree

/-! ## Machines -/

/-- States of two kinds of hardware on which the same is typed, and the same key pressed to cancel. The relation
    `agree` is closed under the three calls in which a user is heard, so it holds along a whole session. Clock,
    entropy and network are left free: an application that is refused does not get to them. -/
structure SameInput {η θ : Type} [Hardware η] [Hardware θ] (agree : η → θ → Prop) : Prop where
  consoleWrite : ∀ {h h'} (text : Str), agree h h' →
    agree (Hardware.consoleWrite text h) (Hardware.consoleWrite text h')
  consoleReadLine : ∀ {h h'} (prompt : Str) (secret : Bool), agree h h' →
    (Hardware.consoleReadLine prompt secret h).1 = (Hardware.consoleReadLine prompt secret h').1 ∧
      agree (Hardware.consoleReadLine prompt secret h).2 (Hardware.consoleReadLine prompt secret h').2
  pollCancel : ∀ {h h'}, agree h h' →
    (Hardware.pollCancel h).1 = (Hardware.pollCancel h').1 ∧
      agree (Hardware.pollCancel h).2 (Hardware.pollCancel h').2

namespace BareMetalPlatform

variable {D E η θ : Type}

/-- Machines without a disk whose trees agree at these paths. Without a disk a storage call fails only for what is
    in the tree. With one it may also fail because the rest of the tree does not fit, and that would tell the
    application something about files it cannot read. -/
structure Twins (A : Str → Prop) (agree : η → θ → Prop) (p : BareMetalPlatform D η)
    (p' : BareMetalPlatform E θ) : Prop where
  disk : p.persistence = none
  disk' : p'.persistence = none
  trees : p.tree.AgreeOn A p'.tree
  hardware : agree p.hardware p'.hardware

variable {A : Str → Prop} {agree : η → θ → Prop}

theorem sim_onTree {α : Type} {x y : Op Error FileTree α} (h : Op.Sim (FileTree.AgreeOn A) x y) :
    Op.Sim (Twins (D := D) (E := E) A agree) (onTree x) (onTree y) :=
  h.zoom (fun _ _ hp => hp.trees) fun _ _ _ _ hp ht => ⟨hp.disk, hp.disk', ht, hp.hardware⟩

theorem sim_askHardware {α : Type} {f : η → α × η} {g : θ → α × θ}
    (h : ∀ {u u'}, agree u u' → (f u).1 = (g u').1 ∧ agree (f u).2 (g u').2) :
    Op.Sim (Twins (D := D) (E := E) A agree)
      (Op.ofState (askHardware f) : Op Error _ α) (Op.ofState (askHardware g)) := by
  intro p p' hp
  obtain ⟨hfst, hsnd⟩ := h hp.hardware
  exact ⟨congrArg _ hfst, hp.disk, hp.disk', hp.trees, hsnd⟩

theorem sim_storageRead {q : Str} (hq : A q) :
    Op.Sim (Twins (D := D) (E := E) A agree) (storageRead q) (storageRead q) := by
  intro p p' hp
  obtain ⟨hfiles, hdirectories⟩ := hp.trees q hq
  unfold storageRead
  rw [hdirectories, hfiles]
  split
  · exact ⟨rfl, hp⟩
  · split
    · exact ⟨rfl, hp⟩
    · exact ⟨rfl, hp⟩

variable [BlockDevice D] [BlockDevice E]

theorem sim_commit (previous previous' : FileTree) :
    Op.Sim (Twins (D := D) (E := E) A agree) (commit previous) (commit previous') := by
  intro p p' hp
  unfold commit persist
  rw [hp.disk, hp.disk']
  exact ⟨rfl, hp⟩

theorem sim_storageCreateDirAll {q : Str} (hwalk : ∀ p ∈ FileTree.walk (names q) [], A p) :
    Op.Sim (Twins (D := D) (E := E) A agree) (storageCreateDirAll q) (storageCreateDirAll q) := by
  refine Op.Sim.read_bind fun p p' _ => ?_
  exact Op.Sim.bind (sim_onTree (FileTree.sim_addParentsFrom hwalk)) fun _ => sim_commit _ _

theorem sim_storageWrite {q : Str} (data : Bytes) (hq : A q)
    (hwalk : ∀ p ∈ FileTree.walk (names (parent q)) [], A p) :
    Op.Sim (Twins (D := D) (E := E) A agree) (storageWrite q data) (storageWrite q data) := by
  refine Op.Sim.read_bind fun p p' hp => ?_
  rw [(hp.trees q hq).2]
  split
  · exact Op.Sim.throw _
  · refine Op.Sim.bind (sim_onTree (FileTree.sim_addParentsFrom hwalk)) fun _ => ?_
    refine Op.Sim.bind (sim_onTree (Op.Sim.modify fun _ _ h => h.insertFile q data)) fun _ => ?_
    exact sim_commit _ _

end BareMetalPlatform

/-! ## Records -/

/-- What a call shows on the console. -/
def Event.shown : Event → Option Str
  | .consoleWrite text _ => some text
  | .consoleReadLine prompt _ _ => some prompt
  | _ => none

/-- Everything that has been shown, in the order in which it was. Two recordings may differ in the calls that
    leave no trace on the console. -/
def consoleOutput (events : List Event) : List Str := events.filterMap Event.shown

namespace Recorded

variable {σ τ α : Type}

/-- The same has been shown, and the backends are related. The logs themselves need not be equal: the same call may
    have been recorded with another answer, as long as nothing of it was shown. -/
structure Twins (Q : σ → τ → Prop) (w : Recorded σ) (w' : Recorded τ) : Prop where
  inner : Q w.inner w'.inner
  shown : consoleOutput w.log = consoleOutput w'.log

variable {Q : σ → τ → Prop}

theorem Twins.append {w : Recorded σ} {w' : Recorded τ} (h : Twins Q w w') {i : σ} {i' : τ}
    (hinner : Q i i') {e e' : Event} (hshown : e.shown = e'.shown) :
    Twins Q ⟨i, w.log ++ [e]⟩ ⟨i', w'.log ++ [e']⟩ := by
  refine ⟨hinner, ?_⟩
  have happend : ∀ (l : List Event) (e : Event),
      consoleOutput (l ++ [e]) = consoleOutput l ++ e.shown.toList := by
    intro l e
    rw [consoleOutput, List.filterMap_append]
    cases hs : e.shown with
    | none => simp [consoleOutput, hs]
    | some text => simp [consoleOutput, hs]
  rw [happend, happend, h.shown, hshown]

theorem sim_call {x : Op Error σ α} {y : Op Error τ α} {event event' : Except Error α → Event}
    (h : Op.Sim Q x y) (hshown : ∀ r, (event r).shown = (event' r).shown) :
    Op.Sim (Twins Q) (call x event) (call y event') := by
  intro w w' hw
  obtain ⟨hfst, hsnd⟩ := h _ _ hw.inner
  -- one event on each side, made of the same answer
  refine ⟨hfst, hw.append hsnd ?_⟩
  rw [hfst]
  exact hshown _

theorem sim_ask {f : σ → α × σ} {g : τ → α × τ} {event event' : α → Event}
    (h : Op.Sim Q (Op.ofState f : Op Error σ α) (Op.ofState g))
    (hshown : ∀ a, (event a).shown = (event' a).shown) :
    Op.Sim (Twins Q) (Op.ofState (ask f event) : Op Error _ α) (Op.ofState (ask g event')) := by
  intro w w' hw
  obtain ⟨hfst, hsnd⟩ := h _ _ hw.inner
  refine ⟨hfst, hw.append hsnd ?_⟩
  rw [Except.ok.inj hfst]
  exact hshown _

end Recorded

/-! ## The paths an application reaches by itself -/

/-- The directories of the layout, and what is in the application's own directory. The first belong to it because
    writing into the second passes through them: `add_parents` tests `user` and `user/appdata` for files on its way
    down, and a file in the place of one of them would be noticed. -/
def OwnPath (id q : Str) : Prop := q ∈ Vfs.layout ∨ FileTree.At (join (appdataNames id)) q

/-- A path on the way to something that is the application's own is one of these paths: it is either above the
    application's directory, and then a directory of the layout, or in it. -/
theorem OwnPath.of_leads {id p q : Str} (hid : IsName id) (hq : IsCanonical q)
    (hown : appdataNames id <+: q.splitOn '/') (hp : Leads p q) : OwnPath id p := by
  have hne : names q ≠ [] := by
    intro hnil
    rw [IsCanonical, hnil, join_nil] at hq
    rw [← hq] at hp
    exact not_leads_nil p hp
  rw [← hq, splitOn_join (names_isName q) hne] at hown
  rw [← hq, leads_join_iff (names_isName q)] at hp
  obtain ⟨a, b, ha, hab, rfl⟩ := hp
  have hnames : ∀ c ∈ a, IsName c := fun c hc => names_isName q c (hab ▸ List.mem_append_left _ hc)
  -- `a` and the names of the application's directory both begin `names q`, so one begins the other
  rcases List.prefix_or_prefix_of_prefix (List.prefix_append a b) (hab ▸ hown) with hshort | hlong
  · -- a way down to the application's directory
    rw [appdataNames, List.prefix_cons_iff] at hshort
    obtain rfl | ⟨a₁, rfl, hshort⟩ := hshort
    · exact absurd rfl ha
    rw [List.prefix_cons_iff] at hshort
    obtain rfl | ⟨a₂, rfl, hshort⟩ := hshort
    · exact Or.inl (by decide)
    rw [List.prefix_cons_iff] at hshort
    obtain rfl | ⟨a₃, rfl, hnil⟩ := hshort
    · exact Or.inl (by decide)
    · rw [List.prefix_nil.mp hnil]
      exact Or.inr (Or.inl rfl)
  · -- the directory itself, or something below it
    obtain ⟨d, rfl⟩ := hlong
    refine Or.inr ?_
    by_cases hd : d = []
    · rw [hd, List.append_nil]
      exact Or.inl rfl
    · exact Or.inr ((below_join_iff (isName_appdataNames hid) hnames (by simp [appdataNames])).mpr
        ⟨d, hd, rfl⟩)

/-! ## The filesystem over two machines -/

namespace Vfs

variable {σ τ α : Type}

/-- Filesystems over related backends. Their tables of system files may differ: a call of an application on its
    own data is never routed to `/sys`. -/
def Over (P : σ → τ → Prop) (v : Vfs σ) (v' : Vfs τ) : Prop := P v.platform v'.platform

variable {P : σ → τ → Prop} {path : Str}

theorem sim_onPlatform {x : Op Error σ α} {y : Op Error τ α} (h : Op.Sim P x y) :
    Op.Sim (Over P) (onPlatform x) (onPlatform y) :=
  h.zoom (fun _ _ hv => hv) fun _ _ _ _ _ hp => hp

/-- An operation on a path outside of `/sys` is one of the backends, or refused by both with the same error: which
    of the two, and with which path, is computed from the text of the path alone. -/
theorem sim_routed {inSys : Str → Op Error (Vfs σ) α} {inSys' : Str → Op Error (Vfs τ) α}
    {remote : Str → Op Error σ α} {remote' : Str → Op Error τ α} (hsys : ¬ InSys path)
    (h : ∀ q, Routes path q → Op.Sim P (remote q) (remote' q)) :
    Op.Sim (Over P) (routed path inSys remote) (routed path inSys' remote') := by
  -- the three ways out of `routed`: no path at all, a path in no mount, and the call of the backend
  cases hn : normalizePath "/".toList path with
  | error e =>
    unfold routed
    rw [hn]
    exact Op.Sim.throw e
  | ok p =>
    have hp : isPathPrefix "/sys".toList p = false := by
      rw [← Bool.not_eq_true]
      exact fun hp => hsys ⟨p, hn, hp⟩
    cases hq : persistentPath p with
    | error e =>
      rw [routed_of_unmounted hn hp hq, routed_of_unmounted hn hp hq]
      exact Op.Sim.throw e
    | ok q =>
      obtain rfl := eq_slash_of_persistentPath hq
      have hroutes : Routes path q := ⟨hn, hp, hq⟩
      rw [routed_of_routes hroutes, routed_of_routes hroutes]
      exact sim_onPlatform (h q hroutes)

end Vfs

/-- A path that leads into the application's directory, if it resolves at all. It is stated of the path as the
    application gives it to the file system, that is, after `resolve_appdata` has joined it to the application's
    root and before the file system normalizes it once more. -/
structure Homeward (app : AppIdentity) (path : Str) : Prop where
  outside : ¬ InSys path
  own : ∀ q, Routes path q → appdataNames app.id <+: q.splitOn '/'

theorem homeward_join {app : AppIdentity} (hid : IsOrdinary app.id) {out : List Str}
    (hpre : appdataNames app.id <+: out)
    (hout : ∀ c ∈ out, IsOrdinary c ∨ c ∈ appdataNames app.id) : Homeward app ('/' :: join out) := by
  refine ⟨?_, fun q hq => appdata_prefix hid hpre hout hq.1⟩
  -- in `/sys` the first name would be `sys`, and it is `user`
  rintro ⟨p, hn, hsys⟩
  obtain ⟨cs, hcs, rfl⟩ := rooted_root.normalizePath hn
  have hown := appdata_prefix hid hpre hout hn
  have hne : cs ≠ [] := by
    rintro rfl
    exact absurd hown (by simp [appdataNames, join_nil])
  rw [splitOn_join (isName_of_plain hcs) hne] at hown
  have hroot := (isPathPrefix_slash_iff (a := ["sys".toList]) (by decide) (isName_of_plain hcs)
    (by decide)).mp hsys
  obtain ⟨a, rfl⟩ := hroot
  have := (List.cons_prefix_cons.mp hown).1
  exact absurd this (by decide)

theorem homeward_root {app : AppIdentity} (hid : IsOrdinary app.id) :
    Homeward app (appdataRootOf app) := by
  rw [appdataRootOf_eq]
  exact homeward_join hid (List.prefix_refl _) fun c hc => Or.inr hc

theorem homeward_resolved {app : AppIdentity} (hid : IsOrdinary app.id) {path p : Str}
    (hn : normalizePath (appdataRootOf app) path = .ok p)
    (hpre : pathPrefix (appdataRootOf app) p = true) : Homeward app p := by
  obtain ⟨out, rfl, hprefix, hout⟩ := resolveAppdata_names hid.1 hn hpre
  exact homeward_join hid hprefix hout

section Machines

variable {D E η θ : Type} [BlockDevice D] [BlockDevice E] [Hardware η] [Hardware θ]

/-- Machines that have in common what the application may know: the same has been shown on both, what is typed is
    the same, and their trees agree at the paths that the application reaches by itself. -/
def SameFor (app : AppIdentity) (agree : η → θ → Prop) :
    Recorded (BareMetalPlatform D η) → Recorded (BareMetalPlatform E θ) → Prop :=
  Recorded.Twins (BareMetalPlatform.Twins (OwnPath app.id) agree)

variable {app : AppIdentity} {agree : η → θ → Prop} {path : Str}

namespace Vfs

theorem sim_readText (hid : IsOrdinary app.id) (hpath : Homeward app path) :
    Op.Sim (Over (SameFor (D := D) (E := E) app agree)) (readText path) (readText path) := by
  refine Op.Sim.bind ?_ fun data => ?_
  · rw [read_eq_routed, read_eq_routed]
    refine sim_routed hpath.outside fun q hq => Recorded.sim_call ?_ fun _ => rfl
    exact BareMetalPlatform.sim_storageRead (OwnPath.of_leads hid.1 hq.canonical.1 (hpath.own q hq)
      ⟨hq.canonical.2, Or.inl rfl⟩)
  · cases fromUtf8 data with
    | none => exact Op.Sim.throw _
    | some text => exact Op.Sim.pure _

theorem sim_createDirAll (hid : IsOrdinary app.id) (hpath : Homeward app path) :
    Op.Sim (Over (SameFor (D := D) (E := E) app agree)) (createDirAll path) (createDirAll path) := by
  rw [createDirAll_eq_routed, createDirAll_eq_routed]
  refine sim_routed hpath.outside fun q hq => Recorded.sim_call ?_ fun _ => rfl
  refine BareMetalPlatform.sim_storageCreateDirAll fun p hp => ?_
  exact OwnPath.of_leads hid.1 hq.canonical.1 (hpath.own q hq)
    ((FileTree.mem_walk_names_iff hq.canonical.1).mp hp)

theorem sim_write (hid : IsOrdinary app.id) (hpath : Homeward app path) (data : Bytes) :
    Op.Sim (Over (SameFor (D := D) (E := E) app agree)) (write path data) (write path data) := by
  rw [write_eq_routed, write_eq_routed]
  refine sim_routed hpath.outside fun q hq => Recorded.sim_call ?_ fun _ => rfl
  obtain ⟨hcanonical, hne⟩ := hq.canonical
  have hown : ∀ {p}, Leads p q → OwnPath app.id p :=
    fun hp => OwnPath.of_leads hid.1 hcanonical (hpath.own q hq) hp
  refine BareMetalPlatform.sim_storageWrite data (hown ⟨hne, Or.inl rfl⟩) fun p hp => ?_
  have hleads := (FileTree.mem_walk_names_iff (isCanonical_parent hcanonical)).mp hp
  exact hown ⟨hleads.1, Or.inr ((leads_parent_iff hleads.1).mp hleads)⟩

end Vfs

end Machines

/-! ## Sessions -/

/-- Two sessions of one application over related backends, with no connections. That there are none is part of the
    invariant: a connection is opened only with a permission, so while everything is refused the list stays empty,
    and every call on a handle fails alike. -/
structure Paired {σ τ : Type} (app : AppIdentity) (cwd : Str) (P : σ → τ → Prop)
    (s : AppSession σ) (s' : AppSession τ) : Prop where
  identity : s.app = app ∧ s'.app = app
  directory : s.cwd = cwd ∧ s'.cwd = cwd
  root : s.appdataRoot = appdataRootOf app ∧ s'.appdataRoot = appdataRootOf app
  sockets : s.sockets = [] ∧ s'.sockets = []
  platform : P s.system.vfs.platform s'.system.vfs.platform

namespace AppSession

variable {σ τ α : Type} {P : σ → τ → Prop} {app : AppIdentity} {cwd : Str}

theorem sim_onSystem {x : Op Error (System σ) α} {y : Op Error (System τ) α}
    (h : Op.Sim (fun s s' => P s.vfs.platform s'.vfs.platform) x y) :
    Op.Sim (Paired app cwd P) (onSystem x) (onSystem y) :=
  h.zoom (fun _ _ hs => hs.platform) fun _ _ _ _ hs hp =>
    ⟨hs.identity, hs.directory, hs.root, hs.sockets, hp⟩

theorem sim_onVfs {x : Op Error (Vfs σ) α} {y : Op Error (Vfs τ) α}
    (h : Op.Sim (Vfs.Over P) x y) : Op.Sim (Paired app cwd P) (onVfs x) (onVfs y) :=
  sim_onSystem (h.zoom (fun _ _ hp => hp) fun _ _ _ _ _ hp => hp)

theorem sim_onPlatform {x : Op Error σ α} {y : Op Error τ α} (h : Op.Sim P x y) :
    Op.Sim (Paired app cwd P) (onPlatform x) (onPlatform y) :=
  sim_onVfs (Vfs.sim_onPlatform h)

/-- A path of the application's own data, resolved against its directory. `resolve_appdata` reads the directory from
    the session and changes nothing, so it is this function of the two texts. -/
def appdataPath (root path : Str) : Except Error Str := do
  let resolved ← normalizePath root path
  if !pathPrefix root resolved then
    .error (.permissionDenied "path escapes application data".toList)
  else .ok resolved

theorem appdataPath_ok {root path p : Str} (h : appdataPath root path = .ok p) :
    normalizePath root path = .ok p ∧ pathPrefix root p = true := by
  unfold appdataPath at h
  cases hn : normalizePath root path with
  | error e =>
    rw [hn] at h
    cases h
  | ok resolved =>
    rw [hn] at h
    simp only [bind, Except.bind] at h
    split at h
    · cases h
    · rename_i hpre
      obtain rfl := Except.ok.inj h
      exact ⟨rfl, by simpa using hpre⟩

theorem resolveAppdata_eq (path : Str) (s : AppSession σ) :
    resolveAppdata path s = (appdataPath s.appdataRoot path, s) := by
  rw [resolveAppdata, Op.run_bind_ok (Op.run_read s), appdataPath]
  cases normalizePath s.appdataRoot path with
  | error e => rfl
  | ok p =>
    show (if _ then _ else _ : Op Error (AppSession σ) Str) s = (if _ then _ else _, s)
    split <;> rfl

theorem sim_resolveAppdata_bind {path : Str} {f : Str → Op Error (AppSession σ) α}
    {g : Str → Op Error (AppSession τ) α}
    (h : ∀ p, appdataPath (appdataRootOf app) path = .ok p → Op.Sim (Paired app cwd P) (f p) (g p)) :
    Op.Sim (Paired app cwd P) (resolveAppdata path >>= f) (resolveAppdata path >>= g) := by
  intro s s' hs
  rw [Op.run_bind, Op.run_bind, resolveAppdata_eq, resolveAppdata_eq, hs.root.1, hs.root.2]
  cases hp : appdataPath (appdataRootOf app) path with
  | error e => exact ⟨rfl, hs⟩
  | ok p => exact h p hp s s' hs

theorem sim_ownedSocket_bind (handle : Nat) {f : Unit → Op Error (AppSession σ) α}
    {g : Unit → Op Error (AppSession τ) α} :
    Op.Sim (Paired app cwd P) (ownedSocket handle >>= f) (ownedSocket handle >>= g) := by
  intro s s' h
  -- whatever the handle, an empty list of connections does not contain it
  have hnone : ∀ {σ : Type} {s : AppSession σ}, s.sockets = [] →
      ownedSocket handle s = (.error (noConnection handle), s) := by
    intro σ s hs
    rcases ownedSocket_cases handle s with ⟨hmem, -⟩ | ⟨-, heq⟩
    · rw [hs] at hmem
      cases hmem
    · exact heq
  rw [Op.run_bind_error (hnone h.sockets.1), Op.run_bind_error (hnone h.sockets.2)]
  exact ⟨rfl, h⟩

end AppSession

/-! ## Refusal -/

namespace System

/-- Show a permission request and take the answer: the first half of `request_permission`, up to the point where
    the answer is looked at. All that a refused application can bring about is in this half. -/
def ask {σ : Type} [Platform σ] (app : AppIdentity) (capability : Capability) (resource : Str) :
    Op Error (System σ) Str := do
  consoleWrite (permissionRequest app capability resource)
  consoleReadLine allowPrompt false

/-- What the application is told when the answer is not a yes. A console that fails is passed on as it is. -/
def denial : Except Error Str → Error
  | .ok _ => .permissionDenied "request denied".toList
  | .error e => e

/-- Why a demand is turned down before anybody is asked: it names the master password's verifier, or a capability
    that the application has not declared. Neither depends on the machine. -/
def rejects (app : AppIdentity) (demand : Capability × Str) : Option Error :=
  if isSecurityResource demand.2 then
    some (.permissionDenied "security configuration is not exposed to applications".toList)
  else if !declares app demand.1 then some (.capabilityNotDeclared demand.1.display)
  else none

variable {σ τ : Type} [Platform σ] [Platform τ] {app : AppIdentity}

theorem sim_ask {P : σ → τ → Prop}
    (hwrite : ∀ text, Op.Sim P (Platform.consoleWrite text) (Platform.consoleWrite text))
    (hread : ∀ prompt, Op.Sim P (Platform.consoleReadLine prompt false)
      (Platform.consoleReadLine prompt false)) (capability : Capability) (resource : Str) :
    Op.Sim (fun s s' => P s.vfs.platform s'.vfs.platform)
      (ask app capability resource : Op Error (System σ) Str) (ask app capability resource) := by
  have hzoom : ∀ {α : Type} {x : Op Error σ α} {y : Op Error τ α}, Op.Sim P x y →
      Op.Sim (fun s s' => P s.vfs.platform s'.vfs.platform) (onPlatform x) (onPlatform y) :=
    fun h => (Vfs.sim_onPlatform h).zoom (fun _ _ hp => hp) fun _ _ _ _ _ hp => hp
  exact Op.Sim.bind (hzoom (hwrite _)) fun _ => hzoom (hread _)

variable [Argon2]

theorem requestPermission_of_refused {capability : Capability} {resource : Str} {y : System σ}
    (h : ∀ answer, (ask app capability resource y).1 = .ok answer → isYes answer = false) :
    requestPermission app capability resource y =
      (.error (denial (ask app capability resource y).1), (ask app capability resource y).2) := by
  -- the source has the question and the answer in one sequence with what follows; here they are split off
  have hask : requestPermission app capability resource =
      (ask app capability resource >>= fun answer =>
        if !isYes answer then Op.throw (.permissionDenied "request denied".toList)
        else do
          let present ← SecurityManager.hasPassword
          if present then do
            let password ← consoleReadLine "Master password: ".toList true
            SecurityManager.verify password
          else pure () : Op Error (System σ) Unit) := by
    funext y
    rw [requestPermission, ask, Op.run_bind, Op.run_bind, Op.run_bind]
    cases consoleWrite (permissionRequest app capability resource) y with
    | mk r y₁ =>
      cases r with
      | error e => rfl
      | ok => rfl
  rw [hask, Op.run_bind]
  cases hrun : ask app capability resource y with
  | mk r y₁ =>
    rw [hrun] at h
    cases r with
    | error e => rfl
    | ok answer =>
      simp only [h answer rfl]
      rfl

theorem authorize_of_rejected {demand : Capability × Str} {e : Error}
    (h : rejects app demand = some e) (y : System σ) :
    authorize app demand.1 demand.2 y = (.error e, y) := by
  unfold rejects at h
  unfold authorize
  split at h
  · rename_i hsecurity
    obtain rfl := Option.some.inj h
    rw [if_pos hsecurity]
    rfl
  · rename_i hsecurity
    rw [if_neg hsecurity]
    split at h
    · rename_i hdeclared
      obtain rfl := Option.some.inj h
      rw [if_pos hdeclared]
      rfl
    · cases h

theorem authorize_of_asked {demand : Capability × Str} (huntrusted : app.trusted = false)
    (h : rejects app demand = none) : (authorize app demand.1 demand.2 : Op Error (System σ) Unit) =
      requestPermission app demand.1 demand.2 := by
  unfold rejects at h
  split at h
  · cases h
  · rename_i hsecurity
    split at h
    · cases h
    · rename_i hdeclared
      rw [authorize, if_neg hsecurity, if_neg hdeclared, huntrusted, if_neg Bool.false_ne_true]

end System

namespace AppSession

variable {σ : Type} [Platform σ] [Argon2]

theorem run_authorize (capability : Capability) (resource : Str) (s : AppSession σ) :
    authorize capability resource s = ((System.authorize s.app capability resource s.system).1,
      { s with system := (System.authorize s.app capability resource s.system).2 }) := rfl

section Denied

variable {s : AppSession σ} {e : Error} {y : System σ}

/-- What comes after an authorization that has failed does not happen. -/
theorem authorize_bind_of_error {α : Type} {capability : Capability} {resource : Str}
    (ha : System.authorize s.app capability resource s.system = (.error e, y))
    (f : Unit → Op Error (AppSession σ) α) :
    (authorize capability resource >>= f) s = (.error e, { s with system := y }) := by
  rw [Op.run_bind, run_authorize, ha]

theorem withPath_of_error {α : Type} {capability : Str → Capability} {path p : Str}
    {act : Str → Op Error (Vfs σ) α} (hp : normalizePath s.cwd path = .ok p)
    (ha : System.authorize s.app (capability p) p s.system = (.error e, y)) :
    withPath capability path act s = (.error e, { s with system := y }) := by
  rw [withPath, Op.run_bind, resolve_eq, hp]
  exact authorize_bind_of_error ha _

/-- A protected call whose paths do not resolve. The paths are resolved before anything is authorized, so the call
    fails with the error of the path and the session is as it was. -/
theorem call_of_no_demands {request : ApiCall} (hd : request.demands s.cwd = .error e) :
    call request s = (.error e, s) := by
  have hpath : ∀ {α : Type} {capability : Str → Capability} {path : Str}
      {act : Str → Op Error (Vfs σ) α}, ApiCall.pathDemand capability s.cwd path = .error e →
      withPath capability path act s = (.error e, s) := by
    intro α capability path act hd
    unfold ApiCall.pathDemand at hd
    rw [withPath, Op.run_bind, resolve_eq]
    cases hn : normalizePath s.cwd path with
    | error e' =>
      rw [hn] at hd
      obtain rfl := Except.error.inj hd
      rfl
    | ok p =>
      rw [hn] at hd
      cases hd
  cases request with
  | readText path => exact Op.run_map_error (hpath hd) _
  | writeText path text => exact Op.run_map_error (hpath hd) _
  | list path => exact Op.run_map_error (hpath hd) _
  | createDirAll path => exact Op.run_map_error (hpath hd) _
  | remove path => exact Op.run_map_error (hpath hd) _
  | rename source target =>
    refine Op.run_map_error ?_ _
    simp only [ApiCall.demands] at hd
    rw [rename, Op.run_bind, resolve_eq]
    cases hn : normalizePath s.cwd source with
    | error e' =>
      rw [hn] at hd
      obtain rfl := Except.error.inj hd
      rfl
    | ok p =>
      rw [hn] at hd
      cases hn' : normalizePath s.cwd target with
      | error e' =>
        rw [hn'] at hd
        obtain rfl := Except.error.inj hd
        simp only [Op.run_bind, resolve_eq, hn']
      | ok p' =>
        rw [hn'] at hd
        cases hd
  | netConnect host port =>
    simp only [ApiCall.demands] at hd
    split at hd
    · rename_i hhost
      obtain rfl := Except.error.inj hd
      refine Op.run_map_error ?_ _
      rw [netConnect, if_pos hhost]
      rfl
    · cases hd
  | _ => cases hd

/-- A protected call whose first demand is not authorized. It returns that error, and has done nothing but what the
    authorization did: every call authorizes before it acts, and `rename`, which makes two demands, makes the
    second only after the first. -/
theorem call_of_denied {request : ApiCall} {d : Capability × Str} {ds : List (Capability × Str)}
    (hd : request.demands s.cwd = .ok (d :: ds))
    (ha : System.authorize s.app d.1 d.2 s.system = (.error e, y)) :
    call request s = (.error e, { s with system := y }) := by
  -- the five calls on one path are one definition, and share this argument
  have hpath : ∀ {α : Type} {capability : Str → Capability} {path : Str}
      {act : Str → Op Error (Vfs σ) α}, ApiCall.pathDemand capability s.cwd path = .ok (d :: ds) →
      withPath capability path act s = (.error e, { s with system := y }) := by
    intro α capability path act hd
    unfold ApiCall.pathDemand at hd
    cases hn : normalizePath s.cwd path with
    | error e' =>
      rw [hn] at hd
      cases hd
    | ok p =>
      rw [hn] at hd
      obtain ⟨rfl, -⟩ := List.cons.inj (Except.ok.inj hd)
      exact withPath_of_error hn ha
  cases request with
  | readText path => exact Op.run_map_error (hpath hd) _
  | writeText path text => exact Op.run_map_error (hpath hd) _
  | list path => exact Op.run_map_error (hpath hd) _
  | createDirAll path => exact Op.run_map_error (hpath hd) _
  | remove path => exact Op.run_map_error (hpath hd) _
  | rename source target =>
    refine Op.run_map_error ?_ _
    simp only [ApiCall.demands] at hd
    cases hn : normalizePath s.cwd source with
    | error e' =>
      rw [hn] at hd
      cases hd
    | ok p =>
      cases hn' : normalizePath s.cwd target with
      | error e' =>
        rw [hn, hn'] at hd
        cases hd
      | ok p' =>
        rw [hn, hn'] at hd
        obtain ⟨rfl, -⟩ := List.cons.inj (Except.ok.inj hd)
        have hsource : resolve source s = (.ok p, s) := by rw [resolve_eq, hn]
        have htarget : resolve target s = (.ok p', s) := by rw [resolve_eq, hn']
        rw [rename, Op.run_bind_ok hsource, Op.run_bind_ok htarget]
        exact authorize_bind_of_error ha _
  | monotonicMillis =>
    obtain ⟨rfl, -⟩ := List.cons.inj (Except.ok.inj hd)
    exact Op.run_map_error (authorize_bind_of_error ha _) _
  | systemInfo =>
    obtain ⟨rfl, -⟩ := List.cons.inj (Except.ok.inj hd)
    exact Op.run_map_error (authorize_bind_of_error ha _) _
  | netConnect host port =>
    simp only [ApiCall.demands] at hd
    split at hd
    · cases hd
    · rename_i hhost
      obtain ⟨rfl, -⟩ := List.cons.inj (Except.ok.inj hd)
      refine Op.run_map_error ?_ _
      rw [netConnect, if_neg hhost]
      exact authorize_bind_of_error ha _
  | _ => cases hd

end Denied

/-- The permission request of this call, if it comes to one, is not answered with a yes. There is only one: the call
    ends with the refusal. It is a condition on the first of the two machines alone; that the other user refuses as
    well follows from the same input. -/
def Refused (request : ApiCall) (s : AppSession σ) : Prop :=
  ∀ d ds, request.demands s.cwd = .ok (d :: ds) → System.rejects s.app d = none →
    ∀ answer, (System.ask s.app d.1 d.2 s.system).1 = .ok answer → isYes answer = false

end AppSession

section Machines

variable {D E η θ : Type} [BlockDevice D] [BlockDevice E] [Hardware η] [Hardware θ]
  {app : AppIdentity} {agree : η → θ → Prop} {cwd : Str}

theorem sim_consoleWrite (hinput : SameInput agree) (text : Str) :
    Op.Sim (SameFor (D := D) (E := E) app agree) (Platform.consoleWrite text)
      (Platform.consoleWrite text) :=
  Recorded.sim_call (BareMetalPlatform.sim_askHardware fun h => ⟨rfl, hinput.consoleWrite text h⟩)
    fun _ => rfl

theorem sim_consoleReadLine (hinput : SameInput agree) (prompt : Str) :
    Op.Sim (SameFor (D := D) (E := E) app agree) (Platform.consoleReadLine prompt false)
      (Platform.consoleReadLine prompt false) :=
  Recorded.sim_call
    (BareMetalPlatform.sim_askHardware fun h => hinput.consoleReadLine prompt false h) fun _ => rfl

theorem sim_pollCancel (hinput : SameInput agree) :
    Op.Sim (SameFor (D := D) (E := E) app agree) (Op.ofState Platform.pollCancel : Op Error _ Bool)
      (Op.ofState Platform.pollCancel) :=
  Recorded.sim_ask (BareMetalPlatform.sim_askHardware fun h => hinput.pollCancel h) fun _ => rfl

theorem ApiCall.demands_ne_nil {request : ApiCall} (hp : request.isProtected = true) (cwd : Str) :
    request.demands cwd ≠ .ok [] := by
  have hpath : ∀ capability path, pathDemand capability cwd path ≠ .ok [] := by
    intro capability path
    unfold pathDemand
    cases normalizePath cwd path with
    | error e => exact fun h => (by cases h)
    | ok p => exact fun h => (by cases h)
  cases request with
  | readText path => exact hpath _ _
  | writeText path text => exact hpath _ _
  | list path => exact hpath _ _
  | createDirAll path => exact hpath _ _
  | remove path => exact hpath _ _
  | rename source target =>
    simp only [demands]
    cases normalizePath cwd source with
    | error e => exact fun h => (by cases h)
    | ok p =>
      cases normalizePath cwd target with
      | error e => exact fun h => (by cases h)
      | ok p' => exact fun h => (by cases h)
  | netConnect host port =>
    simp only [demands]
    split
    · exact fun h => (by cases h)
    · exact fun h => (by cases h)
  | monotonicMillis => exact fun h => (by cases h)
  | systemInfo => exact fun h => (by cases h)
  | _ => cases hp

namespace AppSession

variable [Argon2] {s : AppSession (Recorded (BareMetalPlatform D η))}
  {s' : AppSession (Recorded (BareMetalPlatform E θ))}

/-- A protected call that is refused: the same answer, and nothing but the question shown. Neither the paths nor the
    capabilities are looked up on the machine, so the question is the same on both, and so is the answer to it. -/
theorem paired_of_refused (huntrusted : app.trusted = false) (hinput : SameInput agree)
    (h : Paired app cwd (SameFor app agree) s s') {request : ApiCall}
    (hp : request.isProtected = true) (hrefused : Refused request s) :
    (call request s).1 = (call request s').1 ∧
      Paired app cwd (SameFor app agree) (call request s).2 (call request s').2 := by
  obtain ⟨hs, hs'⟩ := h.directory
  -- the call ends at the first of three points: resolving its paths, the checks on the declaration, the answer
  cases hd : request.demands cwd with
  | error e =>
    rw [call_of_no_demands (hs ▸ hd), call_of_no_demands (hs' ▸ hd)]
    exact ⟨rfl, h⟩
  | ok demands =>
  cases demands with
  | nil => exact absurd hd (ApiCall.demands_ne_nil hp cwd)
  | cons d ds =>
    obtain ⟨happ, happ'⟩ := h.identity
    cases hrejects : System.rejects app d with
    | some e =>
      rw [call_of_denied (hs ▸ hd) (happ ▸ System.authorize_of_rejected hrejects s.system),
        call_of_denied (hs' ▸ hd) (happ' ▸ System.authorize_of_rejected hrejects s'.system)]
      exact ⟨rfl, h⟩
    | none =>
      -- the answer on the second machine is the one on the first, hence also no yes
      have hno := happ ▸ hrefused d ds (hs ▸ hd) (happ ▸ hrejects)
      have hwrite : ∀ text, Op.Sim (SameFor (D := D) (E := E) app agree) (Platform.consoleWrite text)
          (Platform.consoleWrite text) := sim_consoleWrite hinput
      obtain ⟨hanswer, hasked⟩ := System.sim_ask hwrite
        (sim_consoleReadLine hinput) d.1 d.2 s.system s'.system h.platform
      have hno' := hanswer ▸ hno
      have hdenied := System.requestPermission_of_refused hno
      have hdenied' := System.requestPermission_of_refused hno'
      rw [← System.authorize_of_asked huntrusted hrejects, ← hanswer] at hdenied'
      rw [← System.authorize_of_asked huntrusted hrejects] at hdenied
      have hcall := call_of_denied (hs ▸ hd) ((congrArg (System.authorize · _ _ _) happ).trans hdenied)
      have hcall' :=
        call_of_denied (hs' ▸ hd) ((congrArg (System.authorize · _ _ _) happ').trans hdenied')
      rw [hcall, hcall']
      exact ⟨rfl, h.identity, h.directory, h.root, h.sockets, hasked⟩

/-- The calls nobody is asked about: the console, the application's own data, the poll for a cancellation, calls on
    connections, of which there are none, and the state of the network. The last is the exception: `net_status`
    asks for a declared connection and for nothing else, so it goes alike only where it is not declared. -/
theorem sim_call_unprotected (hid : IsOrdinary app.id) (hinput : SameInput agree)
    {request : ApiCall} (hp : request.isProtected = false)
    (hnet : request = .netStatus → declaresAnyNetwork app = false) :
    Op.Sim (Paired app cwd (SameFor (D := D) (E := E) app agree)) (call request) (call request) := by
  have hhome : ∀ {path p}, appdataPath (appdataRootOf app) path = .ok p → Homeward app p := by
    intro path p hresolved
    obtain ⟨hn, hpre⟩ := appdataPath_ok hresolved
    exact homeward_resolved hid hn hpre
  cases request with
  | consoleWrite text => exact (sim_onPlatform (sim_consoleWrite hinput text)).map _
  | consoleReadLine prompt => exact (sim_onPlatform (sim_consoleReadLine hinput prompt)).map _
  | appdataRead path =>
    refine Op.Sim.map (sim_resolveAppdata_bind fun p hresolved => ?_) _
    exact sim_onVfs (Vfs.sim_readText hid (hhome hresolved))
  | appdataWrite path text =>
    refine Op.Sim.map (sim_resolveAppdata_bind fun p hresolved => ?_) _
    -- a write makes the application's directory first, and then the file
    refine Op.Sim.read_bind fun s s' h => ?_
    rw [h.root.1, h.root.2]
    refine Op.Sim.bind (sim_onVfs (Vfs.sim_createDirAll hid (homeward_root hid))) fun _ => ?_
    exact sim_onVfs (Vfs.sim_write hid (hhome hresolved) _)
  | netStatus =>
    refine Op.Sim.map (Op.Sim.read_bind fun s s' h => ?_) _
    rw [h.identity.1, h.identity.2, hnet rfl]
    exact Op.Sim.throw _
  | netSend handle data => exact (sim_ownedSocket_bind handle).map _
  | netRecv handle max => exact (sim_ownedSocket_bind handle).map _
  | netClose handle => exact (sim_ownedSocket_bind handle).map _
  | cancelled => exact (sim_onPlatform (sim_pollCancel hinput)).map _
  | _ => cases hp

/-- One call, refused if anybody is asked about it: the answers are equal, and the sessions stay related. This is the
    step from which the statement about whole sessions follows. -/
theorem paired_call (huntrusted : app.trusted = false) (hid : IsOrdinary app.id)
    (hinput : SameInput agree) (h : Paired app cwd (SameFor app agree) s s') {request : ApiCall}
    (hnet : request = .netStatus → declaresAnyNetwork app = false) (hrefused : Refused request s) :
    (call request s).1 = (call request s').1 ∧
      Paired app cwd (SameFor app agree) (call request s).2 (call request s').2 := by
  cases hp : request.isProtected with
  | true => exact paired_of_refused huntrusted hinput h hp hrefused
  | false => exact sim_call_unprotected hid hinput hp hnet s s' h

/-- A whole session: as long as each request is refused when it comes up, the histories of questions and answers are
    equal and the sessions are related at the end. -/
theorem paired_runCalls (huntrusted : app.trusted = false) (hid : IsOrdinary app.id)
    (hinput : SameInput agree) {requests : List ApiCall}
    (hnet : .netStatus ∈ requests → declaresAnyNetwork app = false)
    (h : Paired app cwd (SameFor app agree) s s')
    (hrefused : Along (fun s request => (call request s).2) (fun s request => Refused request s)
      s requests) :
    history requests s = history requests s' ∧
      Paired app cwd (SameFor app agree) (runCalls requests s) (runCalls requests s') := by
  -- over the calls; the relation between the two sessions is what is carried along
  induction requests generalizing s s' with
  | nil => exact ⟨rfl, h⟩
  | cons request requests ih =>
    obtain ⟨hanswer, hnext⟩ := paired_call huntrusted hid hinput h
      (fun heq => hnet (heq ▸ List.mem_cons_self)) hrefused.1
    obtain ⟨hhistory, hend⟩ := ih (fun hmem => hnet (List.mem_cons_of_mem _ hmem)) hnext hrefused.2
    refine ⟨?_, hend⟩
    rw [history, history, hanswer, hhistory]

end AppSession

end Machines

/-! ## Nothing is revealed -/

/-- Two systems that have in common what the application may know without asking: the directories
    of the layout, its own data, and the input. Neither has a disk, and nothing has been shown
    yet. -/
structure AlikeFor {D E η θ : Type} (app : AppIdentity) (agree : η → θ → Prop)
    (y : System (Recorded (BareMetalPlatform D η))) (y' : System (Recorded (BareMetalPlatform E θ))) :
    Prop where
  disk : y.vfs.platform.inner.persistence = none ∧ y'.vfs.platform.inner.persistence = none
  layout : y.vfs.platform.inner.tree.AgreeOn (· ∈ Vfs.layout) y'.vfs.platform.inner.tree
  own : y.vfs.platform.inner.tree.AgreeOn (FileTree.At (join (appdataNames app.id)))
    y'.vfs.platform.inner.tree
  input : agree y.vfs.platform.inner.hardware y'.vfs.platform.inner.hardware
  shown : log y = [] ∧ log y' = []

/-- Whatever the two systems are, as long as the permission requests are refused the application
    gets the same answers on both, the same is shown, and its data comes to be the same. -/
def RevealsNothing (app : AppIdentity) (requests : List ApiCall) : Prop :=
  ∀ {D E η θ : Type} [BlockDevice D] [BlockDevice E] [Hardware η] [Hardware θ] [Argon2]
    (agree : η → θ → Prop) (y : System (Recorded (BareMetalPlatform D η)))
    (y' : System (Recorded (BareMetalPlatform E θ))) (args : List Str) (cwd : Str),
    SameInput agree → AlikeFor app agree y y' →
    Along (fun s request => (AppSession.call request s).2)
      (fun s request => AppSession.Refused request s) (AppSession.new y app args cwd) requests →
    AppSession.history requests (AppSession.new y app args cwd) =
        AppSession.history requests (AppSession.new y' app args cwd) ∧
      consoleOutput (log (AppSession.runCalls requests (AppSession.new y app args cwd))) =
        consoleOutput (log (AppSession.runCalls requests (AppSession.new y' app args cwd))) ∧
      (AppSession.runCalls requests
          (AppSession.new y app args cwd)).system.vfs.platform.inner.tree.AgreeOn
        (FileTree.At (join (appdataNames app.id)))
        (AppSession.runCalls requests
          (AppSession.new y' app args cwd)).system.vfs.platform.inner.tree

theorem revealsNothing_of_no_netStatus {app : AppIdentity} (huntrusted : app.trusted = false)
    (hid : IsOrdinary app.id) {requests : List ApiCall}
    (hnet : .netStatus ∈ requests → declaresAnyNetwork app = false) :
    RevealsNothing app requests := by
  intro D E η θ _ _ _ _ _ agree y y' args cwd hinput halike hrefused
  have hown : y.vfs.platform.inner.tree.AgreeOn (OwnPath app.id) y'.vfs.platform.inner.tree := by
    intro q hq
    rcases hq with hq | hq
    · exact halike.layout q hq
    · exact halike.own q hq
  have hstart : Paired app cwd (SameFor app agree) (AppSession.new y app args cwd)
      (AppSession.new y' app args cwd) := by
    refine ⟨⟨rfl, rfl⟩, ⟨rfl, rfl⟩, ⟨rfl, rfl⟩, ⟨rfl, rfl⟩,
      ⟨halike.disk.1, halike.disk.2, hown, halike.input⟩, ?_⟩
    exact congrArg consoleOutput (halike.shown.1.trans halike.shown.2.symm)
  obtain ⟨hhistory, hend⟩ := AppSession.paired_runCalls huntrusted hid hinput hnet hstart hrefused
  exact ⟨hhistory, hend.platform.shown, fun q hq => hend.platform.inner.trees q (Or.inr hq)⟩

/-! ## The exception -/

/-- A system on an unattended machine with nothing on it. The two of them, with and without a network, are alike for
    every application and refuse everything, which makes them the pair that `net_status` tells apart. -/
def unattended (wired : Bool) : System (Recorded (BareMetalPlatform NoDisk (Unattended wired))) :=
  System.new ⟨⟨FileTree.empty, none, ⟨⟩, 0, 1⟩, []⟩

theorem sameInput_unattended :
    SameInput (fun (_ : Unattended true) (_ : Unattended false) => True) :=
  ⟨fun _ _ => trivial, fun _ _ _ => ⟨rfl, trivial⟩, fun _ => ⟨rfl, trivial⟩⟩

theorem alikeFor_unattended (app : AppIdentity) :
    AlikeFor app (fun _ _ => True) (unattended true) (unattended false) :=
  ⟨⟨rfl, rfl⟩, fun _ _ => ⟨rfl, rfl⟩, fun _ _ => ⟨rfl, rfl⟩, trivial, rfl, rfl⟩

namespace AppSession

/-- Nobody answers, and no answer is not a yes. -/
theorem refused_unattended {D : Type} [BlockDevice D] {wired : Bool} (request : ApiCall)
    (s : AppSession (Recorded (BareMetalPlatform D (Unattended wired)))) : Refused request s := by
  intro d ds _ _ answer hanswer
  obtain rfl : [] = answer := Except.ok.inj hanswer
  rfl

variable [Argon2]

theorem netStatus_unattended {D : Type} [BlockDevice D] {wired : Bool}
    {s : AppSession (Recorded (BareMetalPlatform D (Unattended wired)))}
    (hnet : declaresAnyNetwork s.app = true) : (call .netStatus s).1 =
      if wired then .ok (.net wiredStatus) else .error noNetworkDevice := by
  rw [call, Op.fst_map, netStatus, Op.run_bind_ok (Op.run_read s), hnet]
  cases wired with
  | true => rfl
  | false => rfl

theorem history_append {σ : Type} [Platform σ] (before after : List ApiCall) (s : AppSession σ) :
    history (before ++ after) s = history before s ++ history after (runCalls before s) := by
  induction before generalizing s with
  | nil => rfl
  | cons request before ih =>
    rw [List.cons_append, history, history, ih]
    rfl

theorem length_history {σ : Type} [Platform σ] (requests : List ApiCall) (s : AppSession σ) :
    (history requests s).length = requests.length := by
  induction requests generalizing s with
  | nil => rfl
  | cons request requests ih => rw [history, List.length_cons, List.length_cons, ih]

end AppSession

section Exception

attribute [local instance] lengthArgon2

/-- The one call that tells: whatever comes before it, it is answered on the wired machine and fails on the other,
    and nobody was asked. -/
theorem not_revealsNothing {app : AppIdentity} {requests : List ApiCall}
    (hmem : .netStatus ∈ requests) (hnet : declaresAnyNetwork app = true) :
    ¬ RevealsNothing app requests := by
  intro h
  obtain ⟨before, after, rfl⟩ := List.append_of_mem hmem
  have hhistory := (h (fun _ _ => True) (unattended true) (unattended false) [] "/user".toList
    sameInput_unattended (alikeFor_unattended app)
    (Along.of_forall (fun s request => AppSession.refused_unattended request s) _ _)).1
  -- equal histories are equal call by call, so the answers to this call would have to be
  rw [AppSession.history_append, AppSession.history_append] at hhistory
  have hrest := (List.append_inj hhistory (by simp only [AppSession.length_history])).2
  rw [AppSession.history, AppSession.history] at hrest
  have hanswer := (Prod.mk.inj (List.cons.inj hrest).1).2
  rw [AppSession.netStatus_unattended, AppSession.netStatus_unattended] at hanswer
  · cases hanswer
  · rw [(AppSession.runCalls_sameSession before _).app]
    exact hnet
  · rw [(AppSession.runCalls_sameSession before _).app]
    exact hnet

/-- Refusing every permission request keeps everything from an application, exactly if it does not ask for the state
    of the network or has no connection declared. In one direction this is noninterference, for every pair of
    machines that are alike for the application; in the other, one pair that the application tells apart. -/
theorem refusal_reveals_nothing_iff {app : AppIdentity} (huntrusted : app.trusted = false)
    (hid : IsOrdinary app.id) (requests : List ApiCall) :
    RevealsNothing app requests ↔ (.netStatus ∈ requests → declaresAnyNetwork app = false) := by
  constructor
  · intro h hmem
    rw [← Bool.not_eq_true]
    exact fun hnet => not_revealsNothing hmem hnet h
  · exact revealsNothing_of_no_netStatus huntrusted hid

/-- An installed application with these capabilities. -/
def curious (capabilities : List Capability) : AppIdentity where
  id := "curious".toList
  sourcePath := "/apps/curious.rhai".toList
  trusted := false
  apiVersion := 1
  capabilities := capabilities

/-- An application that may connect to one host finds out, without anybody being asked, what there
    is of a network. -/
theorem netStatus_reveals_network :
    (curious [.network "a".toList]).trusted = false ∧
      IsOrdinary (curious [.network "a".toList]).id ∧
      AlikeFor (curious [.network "a".toList]) (fun _ _ => True) (unattended true)
        (unattended false) ∧
      (AppSession.call .netStatus
        (AppSession.new (unattended true) (curious [.network "a".toList]) [] "/user".toList)).1 =
          .ok (.net wiredStatus) ∧
      (AppSession.call .netStatus
        (AppSession.new (unattended false) (curious [.network "a".toList]) [] "/user".toList)).1 =
          .error noNetworkDevice :=
  ⟨rfl, by decide, alikeFor_unattended _, by decide, by decide⟩

theorem refusal_reveals_nothing_clock :
    RevealsNothing (curious [.clock, .fsRead "/".toList])
      [.monotonicMillis, .readText "/user/a".toList, .appdataWrite "a".toList [], .netStatus] :=
  (refusal_reveals_nothing_iff rfl (by decide) _).mpr (by decide)

end Exception

end Afos
