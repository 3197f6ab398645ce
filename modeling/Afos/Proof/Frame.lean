import Afos.Proof.Sessions
import Afos.Proof.StorageCalls

/-!
# What a call leaves alone

Frame results for the bare-metal platform, in two parts. A storage call leaves every file as it
was that it does not name, and a rename every file that is not at its source or below it
(`StorageOp.lookup_of_spares`). And everything a session does besides its four storage calls
leaves every file as it was: asking the user, checking a password, reading and listing
(`keeps_contents_call`).

The first part says less about ill-formed trees than it might. Only a rename needs the shape:
on a tree with an entry below nothing, it may overwrite a file on the way.
-/

set_option autoImplicit false

namespace Afos

open Lib

/-! ## Files a storage call does not name -/

namespace FileTree

theorem files_addParents (q : Str) (t : FileTree) : (addParents q t).2.files = t.files := by
  rcases addParentsFrom_cases (names q) [] t with ⟨h, -⟩ | ⟨l, p, r, -, -, h⟩
  · rw [addParents, h]
    exact insertDirs_files _ t
  · rw [addParents, h]
    exact insertDirs_files _ t

theorem lookup_insertFile {t : FileTree} {f q : Str} (h : f ≠ q) (data : Bytes) :
    (t.insertFile q data).files.lookup f = t.files.lookup f := by
  rw [insertFile, OrdMap.lookup_insert, if_neg (Ne.symm h)]

theorem lookup_removeFile {t : FileTree} {f q : Str} (h : f ≠ q) :
    (t.removeFile q).files.lookup f = t.files.lookup f := by
  rw [removeFile, OrdMap.lookup_remove, if_neg (Ne.symm h)]

theorem lookup_removeSubtree {t : FileTree} {f q : Str} (h : ¬ Below q f) :
    (t.removeSubtree q).files.lookup f = t.files.lookup f := by
  have hkeep : (!startsWith (q ++ ['/']) f) = true := by
    rw [Bool.not_eq_true', ← Bool.not_eq_true, startsWith_slash_iff]
    exact h
  rw [removeSubtree, OrdMap.lookup_retain]
  cases t.files.lookup f with
  | none => rfl
  | some data => simp [hkeep]

end FileTree

namespace BareMetalPlatform

variable {D η : Type} [BlockDevice D]

/-- Saving leaves the tree it was given, or the copy: what holds of both holds after it. -/
theorem commit_tree {Q : FileTree → Prop} {previous : FileTree} {p : BareMetalPlatform D η}
    (ht : Q p.tree) (hp : Q previous) : Q (commit previous p).2.tree := by
  rcases commit_cases previous p with ⟨s, h⟩ | ⟨e, s, h⟩
  · rw [h]
    exact ht
  · rw [h]
    exact hp

/-- Making directories enters some, on any tree, and does nothing else to it. Which ones is not said, as a file in the
    way may have stopped it. -/
theorem storageCreateDirAll_eq (q : Str) (p : BareMetalPlatform D η) :
    ∃ ps s, (storageCreateDirAll q p).2 =
      { p with persistence := s, tree := p.tree.insertDirs ps } := by
  simp only [storageCreateDirAll, Op.run_bind, Op.run_read, run_onTree]
  -- all parents are clear, and then the tree is saved or put back; or a file is in the way
  rcases FileTree.addParentsFrom_cases (names q) [] p.tree with ⟨h, -⟩ | ⟨l, r, _, -, -, h⟩
  · simp only [FileTree.addParents, h]
    rcases commit_cases p.tree { p with tree := p.tree.insertDirs (FileTree.walk (names q) []) }
      with ⟨s, hc⟩ | ⟨e, s, hc⟩
    · rw [hc]
      exact ⟨_, s, rfl⟩
    · rw [hc]
      exact ⟨[], s, rfl⟩
  · simp only [FileTree.addParents, h]
    exact ⟨l, p.persistence, rfl⟩

theorem lookup_storageWrite {f q : Str} (hne : f ≠ q) (data : Bytes) (p : BareMetalPlatform D η) :
    (storageWrite q data p).2.tree.files.lookup f = p.tree.files.lookup f := by
  have hfiles := FileTree.files_addParents (parent q) p.tree
  unfold storageWrite
  rw [Op.run_bind, Op.run_read]
  -- a directory at the path is refused, a file in the way too, and then the file is entered
  by_cases hd : p.tree.directories.contains q = true
  · simp only [hd, if_true, Op.run_throw]
  · simp only [hd, Bool.false_eq_true, if_false, Op.run_bind, run_onTree]
    cases h : FileTree.addParents (parent q) p.tree with
    | mk r t =>
      rw [h] at hfiles
      cases r with
      | error e => rw [hfiles]
      | ok u =>
        refine commit_tree (Q := fun t => t.files.lookup f = p.tree.files.lookup f) ?_ rfl
        show (t.insertFile q data).files.lookup f = _
        rw [FileTree.lookup_insertFile hne, hfiles]

end BareMetalPlatform

namespace StorageOp

/-- The call neither names the file nor, if it removes or moves something, a directory above
    it. -/
def Spares : StorageOp → Str → Prop
  | write path _, f => f ≠ path
  | createDirAll _, _ => True
  | remove path, f => ¬ FileTree.At path f
  | rename source _, f => ¬ FileTree.At source f

/-- A call that succeeds leaves the files alone that it spares. Contents are meant as well: the file is under its path
    with the bytes it had. -/
theorem Succeeds.lookup_of_spares {op : StorageOp} {t t' : FileTree} (hs : op.Succeeds t t')
    (h : t.Sound) (hc : ∀ q ∈ op.paths, q ≠ []) {f : Str} {data : Bytes} (hspares : op.Spares f)
    (hf : t.files.lookup f = some data) : t'.files.lookup f = some data := by
  -- call by call, on what a success has made of the tree
  cases op with
  | write path bytes =>
    obtain ⟨-, t₁, he, rfl⟩ := hs
    rw [FileTree.lookup_insertFile hspares, he.files, hf]
  | createDirAll path => rw [FileTree.Entered.files hs, hf]
  | remove path =>
    rcases hs with ⟨-, rfl⟩ | ⟨-, -, rfl⟩
    · rw [FileTree.lookup_removeFile fun heq => hspares (Or.inl heq), hf]
    · rw [FileTree.lookup_removeSubtree fun hb => hspares (Or.inr hb), hf]
  | rename source target =>
    rcases hs with ⟨-, rfl⟩ | ⟨-, hex, -, t₁, he, hmove⟩
    · exact hf
    -- the target is free, so it is not the file, and no file is below it
    have hfree : ∀ {p}, FileTree.At target p → t₁.files.contains p = false := by
      intro p hp
      rw [he.files]
      refine Bool.eq_false_iff.mpr fun hpf => ?_
      have hpe : t.existsAt p = true := FileTree.existsAt_iff.mpr (Or.inl hpf)
      rcases hp with rfl | hp
      · rw [hex] at hpe
        cases hpe
      · have ht := h.wellFormed.existsAt_of_below (hc target (by simp [paths])) hp hpe
        rw [hex] at ht
        cases ht
    have hft : f ≠ target := by
      rintro rfl
      have hno := hfree (Or.inl rfl)
      rw [he.files, OrdMap.contains_iff.mpr ⟨data, hf⟩] at hno
      cases hno
    rcases hmove with ⟨bytes, -, rfl⟩ | ⟨-, -, rfl⟩
    · rw [FileTree.lookup_insertFile hft,
        FileTree.lookup_removeFile fun heq => hspares (Or.inl heq), he.files, hf]
    · refine (FileTree.lookup_moveSubtree_files source hfree).mpr (Or.inr ⟨?_, ?_⟩)
      · exact fun hb => hspares (Or.inr hb)
      · rw [he.files, hf]

variable {D η : Type} [BlockDevice D]

/-- A file that a storage call spares is there afterwards, whatever the call answered. A failed call has left the tree
    as it was, or has entered directories. -/
theorem lookup_of_spares {p : BareMetalPlatform D η} (h : p.tree.Sound) {op : StorageOp}
    (hc : ∀ q ∈ op.paths, IsCanonical q ∧ q ≠ []) {f : Str} {data : Bytes}
    (hspares : op.Spares f) (hf : p.tree.files.lookup f = some data) :
    (op.run p).2.tree.files.lookup f = some data := by
  cases run_cases h.wellFormed fun q hq => (hc q hq).1 with
  | succeeded result tree =>
    exact tree.lookup_of_spares h (fun q hq => (hc q hq).2) hspares hf
  | unchanged e result tree no => rw [tree, hf]
  | strayed e result source target call tree leaves => rw [tree.files, hf]

end StorageOp

/-! ## Calls that leave everything -/

section Contents

open Op (Keeps Same)

variable {D η α : Type}

def Vfs.tree (v : Vfs (BareMetalPlatform D η)) : FileTree := v.platform.tree

def System.tree (s : System (BareMetalPlatform D η)) : FileTree := s.vfs.tree

def AppSession.tree (s : AppSession (BareMetalPlatform D η)) : FileTree := s.system.tree

/-- Every file there is: those of the table and those of the tree. What a session can read is determined by it. -/
def Vfs.contents (v : Vfs (BareMetalPlatform D η)) : List EmbeddedFile × FileTree :=
  (v.systemFiles, v.tree)

def System.contents (s : System (BareMetalPlatform D η)) : List EmbeddedFile × FileTree :=
  s.vfs.contents

def AppSession.contents (s : AppSession (BareMetalPlatform D η)) :
    List EmbeddedFile × FileTree := s.system.contents

theorem System.tree_eq {s s' : System (BareMetalPlatform D η)} (h : s'.contents = s.contents) :
    s'.tree = s.tree := congrArg Prod.snd h

theorem AppSession.tree_eq {s s' : AppSession (BareMetalPlatform D η)}
    (h : s'.contents = s.contents) : s'.tree = s.tree := congrArg Prod.snd h

namespace BareMetalPlatform

/-- A successful read answers the file's bytes, all of them and as they were written. -/
theorem storageRead_ok {q : Str} {p : BareMetalPlatform D η} {bytes : Bytes}
    (h : (storageRead q p).1 = .ok bytes) : p.tree.files.lookup q = some bytes := by
  unfold storageRead at h
  split at h
  · cases h
  · split at h
    case h_1 found hl =>
      cases h
      exact hl
    case h_2 => cases h

theorem keeps_askHardware (f : η → α × η) :
    Keeps (Same tree) (Op.ofState (askHardware f) : Op Error (BareMetalPlatform D η) α) :=
  fun _ => rfl

theorem keeps_onHardware (x : Op Error η α) :
    Keeps (Same tree) (onHardware x : Op Error (BareMetalPlatform D η) α) := fun _ => rfl

theorem keeps_storageRead (q : Str) :
    Keeps (Same tree) (storageRead q : Op Error (BareMetalPlatform D η) Bytes) := by
  intro p
  unfold storageRead
  split
  · rfl
  · split <;> rfl

theorem keeps_storageList (q : Str) :
    Keeps (Same tree) (storageList q : Op Error (BareMetalPlatform D η) _) := by
  intro p
  unfold storageList
  split
  · split <;> rfl
  · rfl

theorem keeps_storageExists (q : Str) :
    Keeps (Same tree) (storageExists q : Op Error (BareMetalPlatform D η) Bool) := fun _ => rfl

variable [Hardware η]

end BareMetalPlatform

theorem Vfs.keeps_onPlatform {x : Op Error (BareMetalPlatform D η) α}
    (hx : Keeps (Same BareMetalPlatform.tree) x) : Keeps (Same contents) (Vfs.onPlatform x) :=
  hx.zoom fun v _ h => congrArg (Prod.mk v.systemFiles) h

theorem System.keeps_onVfs {x : Op Error (Vfs (BareMetalPlatform D η)) α}
    (hx : Keeps (Same Vfs.contents) x) : Keeps (Same contents) (System.onVfs x) :=
  hx.zoom fun _ _ h => h

theorem System.keeps_onPlatform {x : Op Error (BareMetalPlatform D η) α}
    (hx : Keeps (Same BareMetalPlatform.tree) x) : Keeps (Same contents) (System.onPlatform x) :=
  System.keeps_onVfs (Vfs.keeps_onPlatform hx)

theorem AppSession.keeps_contents_onSystem {x : Op Error (System (BareMetalPlatform D η)) α}
    (hx : Keeps (Same System.contents) x) : Keeps (Same contents) (AppSession.onSystem x) :=
  hx.zoom fun _ _ h => h

theorem AppSession.keeps_contents_onVfs {x : Op Error (Vfs (BareMetalPlatform D η)) α}
    (hx : Keeps (Same Vfs.contents) x) : Keeps (Same contents) (AppSession.onVfs x) :=
  AppSession.keeps_contents_onSystem (System.keeps_onVfs hx)

theorem AppSession.keeps_contents_onPlatform {x : Op Error (BareMetalPlatform D η) α}
    (hx : Keeps (Same BareMetalPlatform.tree) x) : Keeps (Same contents) (AppSession.onPlatform x) :=
  AppSession.keeps_contents_onSystem (System.keeps_onPlatform hx)

theorem AppSession.keeps_contents_ownedSocket (handle : Nat) :
    Keeps (Same contents) (AppSession.ownedSocket handle : Op Error (AppSession (BareMetalPlatform D η)) Unit) :=
  Keeps.bind Keeps.read fun _ => Keeps.ite (Keeps.pure _) (Keeps.throw _)

variable [BlockDevice D] [Hardware η]

namespace Vfs

theorem keeps_read (path : Str) :
    Keeps (Same contents) (read path : Op Error (Vfs (BareMetalPlatform D η)) Bytes) := by
  rw [read_eq_routed]
  rcases routed_cases path (readSystem : Str → Op Error (Vfs (BareMetalPlatform D η)) Bytes)
    Platform.storageRead with ⟨q, -, h⟩ | ⟨p, -, -, h⟩ | ⟨e, h⟩
  · rw [h]
    exact keeps_onPlatform (BareMetalPlatform.keeps_storageRead q)
  · rw [h]
    refine Keeps.bind Keeps.read fun v => ?_
    cases v.systemFile p with
    | some file => exact Keeps.pure _
    | none => exact Keeps.throw _
  · rw [h]
    exact Keeps.throw e

theorem keeps_readText (path : Str) :
    Keeps (Same contents) (readText path : Op Error (Vfs (BareMetalPlatform D η)) Str) := by
  refine Keeps.bind (keeps_read path) fun data => ?_
  cases fromUtf8 data with
  | some text => exact Keeps.pure _
  | none => exact Keeps.throw _

theorem keeps_list (path : Str) :
    Keeps (Same contents) (list path : Op Error (Vfs (BareMetalPlatform D η)) _) := by
  refine Keeps.bind (Keeps.ofExcept _) fun p => Keeps.ite (Keeps.pure _) (Keeps.ite ?_ ?_)
  · exact Keeps.bind Keeps.read fun v => Keeps.ofExcept _
  · refine Keeps.bind (Keeps.ofExcept _) fun q => ?_
    exact keeps_onPlatform (BareMetalPlatform.keeps_storageList q)

theorem keeps_existsAt (path : Str) :
    Keeps (Same contents) (existsAt path : Op Error (Vfs (BareMetalPlatform D η)) Bool) := by
  refine Keeps.bind (Keeps.ofExcept _) fun p => Keeps.ite (Keeps.pure _) (Keeps.ite ?_ ?_)
  · exact Keeps.map _ Keeps.read
  · refine Keeps.bind (Keeps.ofExcept _) fun q => ?_
    exact keeps_onPlatform (BareMetalPlatform.keeps_storageExists q)

end Vfs

namespace System

theorem keeps_consoleWrite (text : Str) :
    Keeps (Same contents) (consoleWrite text : Op Error (System (BareMetalPlatform D η)) Unit) :=
  keeps_onPlatform (BareMetalPlatform.keeps_askHardware _)

theorem keeps_consoleReadLine (prompt : Str) (secret : Bool) :
    Keeps (Same contents)
      (consoleReadLine prompt secret : Op Error (System (BareMetalPlatform D η)) Str) :=
  keeps_onPlatform (BareMetalPlatform.keeps_askHardware _)

theorem keeps_hasPassword :
    Keeps (Same contents)
      (SecurityManager.hasPassword : Op Error (System (BareMetalPlatform D η)) Bool) :=
  keeps_onVfs (Vfs.keeps_existsAt _)

variable [Argon2]

theorem keeps_verify (password : Str) :
    Keeps (Same contents)
      (SecurityManager.verify password : Op Error (System (BareMetalPlatform D η)) Unit) := by
  refine Keeps.bind (keeps_onPlatform fun _ => rfl) fun now => Keeps.bind Keeps.read fun s => ?_
  refine Keeps.ite (Keeps.throw _) (Keeps.bind (keeps_onVfs (Vfs.keeps_readText _)) fun text => ?_)
  refine Keeps.bind (Keeps.ofExcept _) fun pair => Keeps.bind (Keeps.ofExcept _) fun actual => ?_
  refine Keeps.ite (fun _ => rfl) (Keeps.bind (fun _ => rfl) fun _ => Keeps.throw _)

theorem keeps_authorize (app : AppIdentity) (capability : Capability) (resource : Str) :
    Keeps (Same contents)
      (authorize app capability resource : Op Error (System (BareMetalPlatform D η)) Unit) := by
  refine Keeps.ite (Keeps.throw _) (Keeps.ite (Keeps.throw _) (Keeps.ite (Keeps.pure _) ?_))
  refine Keeps.bind (keeps_consoleWrite _) fun _ => Keeps.bind (keeps_consoleReadLine _ _) ?_
  refine fun answer => Keeps.ite (Keeps.throw _) (Keeps.bind keeps_hasPassword fun present => ?_)
  refine Keeps.ite (Keeps.bind (keeps_consoleReadLine _ _) fun password => ?_) (Keeps.pure _)
  exact keeps_verify password

end System

/-- The calls that can change the tree. An application's own data is among them. -/
def ApiCall.writes : ApiCall → Bool
  | .writeText _ _ | .createDirAll _ | .remove _ | .rename _ _ | .appdataWrite _ _ => true
  | _ => false

namespace AppSession

variable [Argon2]

theorem keeps_contents_authorize (capability : Capability) (resource : Str) :
    Keeps (Same contents)
      (authorize capability resource : Op Error (AppSession (BareMetalPlatform D η)) Unit) :=
  Keeps.bind Keeps.read fun s => keeps_contents_onSystem (System.keeps_authorize s.app _ _)

theorem keeps_contents_withPath {capability : Str → Capability} {path : Str}
    {act : Str → Op Error (Vfs (BareMetalPlatform D η)) α}
    (hact : ∀ p, Keeps (Same Vfs.contents) (act p)) :
    Keeps (Same contents) (withPath capability path act) := by
  refine Keeps.bind (Keeps.bind Keeps.read fun _ => Keeps.ofExcept _) fun p => ?_
  exact Keeps.bind (keeps_contents_authorize _ _) fun _ => keeps_contents_onVfs (hact p)

/-- Every other call leaves all files as they were, whatever it answers. For the protected ones this includes what
    authorization does. -/
theorem keeps_contents_call {request : ApiCall} (h : request.writes = false) :
    Keeps (Same contents)
      (call request : Op Error (AppSession (BareMetalPlatform D η)) ApiValue) := by
  -- reading, the clock, the machine and the network: none of them has the tree in hand
  cases request with
  | consoleWrite text =>
    exact (keeps_contents_onPlatform (BareMetalPlatform.keeps_askHardware _)).map _
  | consoleReadLine prompt =>
    exact (keeps_contents_onPlatform (BareMetalPlatform.keeps_askHardware _)).map _
  | readText path => exact (keeps_contents_withPath Vfs.keeps_readText).map _
  | list path => exact (keeps_contents_withPath Vfs.keeps_list).map _
  | appdataRead path =>
    refine Keeps.map _ (Keeps.bind (Keeps.bind Keeps.read fun s => ?_) fun p => ?_)
    · refine Keeps.bind (Keeps.ofExcept _) fun p => ?_
      exact Keeps.ite (Keeps.throw _) (Keeps.pure _)
    · exact keeps_contents_onVfs (Vfs.keeps_readText p)
  | monotonicMillis =>
    refine Keeps.map _ (Keeps.bind (keeps_contents_authorize _ _) fun _ => ?_)
    exact keeps_contents_onPlatform fun _ => rfl
  | systemInfo =>
    refine Keeps.map _ (Keeps.bind (keeps_contents_authorize _ _) fun _ => ?_)
    exact keeps_contents_onPlatform fun _ => rfl
  | netStatus =>
    refine Keeps.map _ (Keeps.bind Keeps.read fun s => Keeps.ite (Keeps.throw _) ?_)
    exact keeps_contents_onPlatform (BareMetalPlatform.keeps_onHardware _)
  | netConnect host port =>
    refine Keeps.map _ (Keeps.ite (Keeps.throw _) ?_)
    refine Keeps.bind (keeps_contents_authorize _ _) fun _ => Keeps.bind ?_ fun handle => ?_
    · exact keeps_contents_onPlatform (BareMetalPlatform.keeps_onHardware _)
    · exact Keeps.bind (fun _ => rfl) fun _ => Keeps.pure _
  | netSend handle bytes =>
    refine Keeps.map _ (Keeps.bind (keeps_contents_ownedSocket handle) fun _ => ?_)
    exact keeps_contents_onPlatform (BareMetalPlatform.keeps_onHardware _)
  | netRecv handle max =>
    refine Keeps.map _ (Keeps.bind (keeps_contents_ownedSocket handle) fun _ => Keeps.bind ?_ ?_)
    · exact keeps_contents_onPlatform (BareMetalPlatform.keeps_onHardware _)
    · exact fun received => Keeps.pure _
  | netClose handle =>
    refine Keeps.map _ (Keeps.bind (keeps_contents_ownedSocket handle) fun _ => ?_)
    refine Keeps.bind (fun _ => rfl) fun _ => ?_
    exact keeps_contents_onPlatform (BareMetalPlatform.keeps_onHardware _)
  | cancelled => exact (keeps_contents_onPlatform (BareMetalPlatform.keeps_askHardware _)).map _
  | writeText | createDirAll | remove | rename | appdataWrite => cases h

end AppSession

end Contents

end Afos
