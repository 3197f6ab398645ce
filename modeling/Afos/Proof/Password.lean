import Afos.Proof.Frame

/-!
# Who replaces a password

Two calls reach the code that sets a password. `changePassword` asks for the current one first;
`initializeSystem` asks only whether setup has been done, and setup is done when a marker file
is there, which has nothing to do with the verifier. So on storage that has a verifier but no
marker, whoever answers `y` to setup's question replaces the password or removes it.

Everything else is as it should be, on storage in any state: in every run without such a setup,
a call that changes the verifier is a `changePassword` that was given a line `verify` accepted
(`Unlocked`).
-/

set_option autoImplicit false

namespace Afos

open Lib

variable {D η : Type}

/-- The storage path of the marker that setup leaves, as the backend gets it from `initializedPath`. -/
def initializedFile : Str := "user/config/initialized".toList

theorem routes_initializedPath : Routes initializedPath initializedFile := by decide

/-- The bytes of the verifier, if there is one. Results about who may replace them are about this, and so hold of
    whatever they say. -/
def System.verifier (s : System (BareMetalPlatform D η)) : Option Bytes :=
  s.tree.files.lookup securityFile

theorem System.verifier_eq {s s' : System (BareMetalPlatform D η)} (h : s'.contents = s.contents) :
    s'.verifier = s.verifier := by
  rw [verifier, verifier, System.tree_eq h]

/-! ## The calls -/

/-- What a console user can have the system do about the password, and turning the machine off and on. -/
inductive AdminCall where
  | setup (interactive : Bool)
  | changePassword
  | restart
  deriving DecidableEq

namespace AdminCall

variable [BlockDevice D] [Hardware η] [Argon2]

def run : AdminCall → Op Error (System (BareMetalPlatform D η)) Unit
  | setup interactive => System.initializeSystem interactive
  | changePassword => System.changePassword
  -- a fresh failure counter on the same storage
  | restart => Op.modify fun s => System.withVfs s.vfs

/-- The system after a sequence of calls, whatever each of them answered. Calls that fail are part of a history like
    the others. -/
def runAll (calls : List AdminCall) (s : System (BareMetalPlatform D η)) :
    System (BareMetalPlatform D η) := calls.foldl (fun s call => (call.run s).2) s

end AdminCall

/-- The line that setup would read: the console is written to first, and may answer differently after that. -/
def setupAnswer [Hardware η] (hardware : η) : Str :=
  (Hardware.consoleReadLine "Configure a master password? [y/N] ".toList false
    (Hardware.consoleWrite "AFOS first-run setup\n".toList hardware)).1

/-- Setup runs, for the marker is missing, and its question will be answered with yes. It says nothing of whether
    there is a password. -/
def AdminCall.Reopens [Hardware η] (s : System (BareMetalPlatform D η)) : AdminCall → Prop
  | .setup interactive =>
      interactive = true ∧ s.tree.existsAt initializedFile = false ∧
        isYes (setupAnswer s.vfs.platform.hardware) = true
  | _ => False

/-- In the state `s`, `changePassword` asks for the password and is given one that opens the
    verifier. -/
structure Unlocked [BlockDevice D] [Hardware η] [Argon2] (data : Bytes)
    (s : System (BareMetalPlatform D η)) : Prop where
  accepted : ∃ line s₁ s₂ s₃, SecurityManager.hasPassword s = (.ok true, s₁) ∧
    System.consoleReadLine "Current master password: ".toList true s₁ = (.ok line, s₂) ∧
    s₂.verifier = some data ∧ SecurityManager.verify line s₂ = (.ok (), s₃) ∧ Accepts data line

/-! ## Setup -/

section Setup

open Op (Keeps Same)

/-- What preparing the directories keeps: the verifier, the marker if it is there, and the machine's console. -/
structure Prepares (v v' : Vfs (BareMetalPlatform D η)) : Prop where
  verifier : v'.tree.files.lookup securityFile = v.tree.files.lookup securityFile
  marker : v.tree.existsAt initializedFile = true → v'.tree.existsAt initializedFile = true
  hardware : v'.platform.hardware = v.platform.hardware

instance : IsPreorder (Vfs (BareMetalPlatform D η)) Prepares where
  refl _ := ⟨rfl, id, rfl⟩
  trans _ _ _ h h' := ⟨h'.verifier.trans h.verifier, h'.marker ∘ h.marker,
    h'.hardware.trans h.hardware⟩

variable [BlockDevice D] [Hardware η]

/-- Making directories keeps all of it, on any tree, also where it fails half way and leaves some of them. -/
theorem keeps_prepares_createDir (q : Str) :
    Keeps Prepares (Vfs.onPlatform (Platform.storageCreateDirAll q) :
      Op Error (Vfs (BareMetalPlatform D η)) Unit) := by
  intro v
  obtain ⟨ps, s, h⟩ := BareMetalPlatform.storageCreateDirAll_eq q v.platform
  have hrun : (Vfs.onPlatform (Platform.storageCreateDirAll q) v).2 =
      { v with platform :=
        { v.platform with persistence := s, tree := v.platform.tree.insertDirs ps } } := by
    rw [← h]
    rfl
  rw [hrun]
  refine ⟨?_, fun hm => ?_, rfl⟩
  · show (v.platform.tree.insertDirs ps).files.lookup securityFile = _
    rw [FileTree.insertDirs_files]
    rfl
  · show (v.platform.tree.insertDirs ps).existsAt initializedFile = true
    rw [FileTree.existsAt_iff, FileTree.insertDirs_files, FileTree.contains_insertDirs]
    exact (FileTree.existsAt_iff.mp hm).imp id Or.inl

theorem keeps_prepares_initializeLayout :
    Keeps Prepares (Vfs.initializeLayout : Op Error (Vfs (BareMetalPlatform D η)) Unit) :=
  Keeps.forM keeps_prepares_createDir _

/-- Writing the marker does not touch the verifier, because the two have different paths and a write changes one
    file. -/
theorem keeps_verifier_writeMarker (data : Bytes) :
    Keeps (Same System.verifier) (System.onVfs (Vfs.write initializedPath data) :
      Op Error (System (BareMetalPlatform D η)) Unit) := by
  have hwrite : (Vfs.write initializedPath data :
      Op Error (Vfs (BareMetalPlatform D η)) Unit) = _ :=
    Vfs.routed_of_routes routes_initializedPath _ _
  intro s
  rw [hwrite]
  exact BareMetalPlatform.lookup_storageWrite (by decide) data s.vfs.platform

variable [Argon2]

omit [BlockDevice D] [Argon2] in
/-- The console of a machine always answers, so a question can be asked in one step without a case for an error. -/
theorem System.run_consoleReadLine [BlockDevice D] (prompt : Str) (secret : Bool)
    (s : System (BareMetalPlatform D η)) :
    System.consoleReadLine prompt secret s =
      (.ok (Hardware.consoleReadLine prompt secret s.vfs.platform.hardware).1,
        s.withPlatform { s.vfs.platform with
          hardware := (Hardware.consoleReadLine prompt secret s.vfs.platform.hardware).2 }) := rfl

/-- Setup's question, when it is not asked or not answered with yes, leaves all files as they were. -/
theorem offerPassword_declined {interactive : Bool} {s : System (BareMetalPlatform D η)}
    (h : interactive = true → isYes (Hardware.consoleReadLine
      "Configure a master password? [y/N] ".toList false s.vfs.platform.hardware).1 = false) :
    (System.offerPassword interactive s).2.contents = s.contents := by
  unfold System.offerPassword
  cases interactive with
  | false => rfl
  | true =>
    have hno := h rfl
    rw [if_pos rfl, Op.run_bind, System.run_consoleReadLine]
    show ((ite (isYes _ = true) _ _ : Op Error (System (BareMetalPlatform D η)) Unit) _).2.contents = _
    rw [if_neg (by rw [hno]; exact Bool.false_ne_true)]
    rfl

/-- Setup leaves the verifier alone, unless its question is answered with yes. It may make directories and write the
    marker. -/
theorem setup_verifier {interactive : Bool} {s : System (BareMetalPlatform D η)}
    (h : ¬ (AdminCall.setup interactive).Reopens s) :
    (System.initializeSystem interactive s).2.verifier = s.verifier := by
  cases hrun : System.initializeSystem interactive s with
  | mk r s' =>
    show s'.verifier = s.verifier
    have hlayout : ∀ {x : Except Error Unit} {s₁ : System (BareMetalPlatform D η)},
        System.onVfs Vfs.initializeLayout s = (x, s₁) → Prepares s.vfs s₁.vfs := by
      intro x s₁ h₁
      unfold System.onVfs at h₁
      obtain ⟨v, hv, rfl⟩ := Op.zoom_eq h₁
      have hkeeps := keeps_prepares_initializeLayout s.vfs
      rw [hv] at hkeeps
      exact hkeeps
    rcases Op.bind_cases hrun with ⟨e, h₁, -⟩ | ⟨⟨⟩, s₁, h₁, hrun⟩
    · exact (hlayout h₁).verifier
    have hprep := hlayout h₁
    rw [Vfs.existsAt_of_routes routes_initializedPath (by decide)] at hrun
    have hexists : System.onVfs (Vfs.onPlatform (Platform.storageExists initializedFile)) s₁ =
        (.ok (s₁.tree.existsAt initializedFile), s₁) := rfl
    rw [Op.run_bind_ok hexists] at hrun
    -- with the marker there is nothing to do, and the question is not asked
    cases hm : s₁.tree.existsAt initializedFile with
    | true =>
      rw [hm] at hrun
      cases hrun
      exact hprep.verifier
    | false =>
      rw [hm] at hrun
      obtain ⟨s₂, hgreet, hhw, hv⟩ : ∃ s₂, System.consoleWrite "AFOS first-run setup\n".toList s₁ =
          (.ok (), s₂) ∧ s₂.vfs.platform.hardware = Hardware.consoleWrite
            "AFOS first-run setup\n".toList s₁.vfs.platform.hardware ∧
          s₂.verifier = s₁.verifier := ⟨_, rfl, rfl, rfl⟩
      -- the question is put to the hardware as it was, after the greeting
      have hno : interactive = true → isYes (Hardware.consoleReadLine
          "Configure a master password? [y/N] ".toList false
          s₂.vfs.platform.hardware).1 = false := by
        intro hi
        refine Bool.eq_false_iff.mpr fun hyes => h ⟨hi, ?_, ?_⟩
        · refine Bool.eq_false_iff.mpr fun hmarker => ?_
          rw [show s₁.tree.existsAt initializedFile = true from hprep.marker hmarker] at hm
          cases hm
        · rw [hhw, hprep.hardware] at hyes
          exact hyes
      have hoffer := System.verifier_eq (offerPassword_declined hno)
      have hrest := Op.run_bind_ok hgreet (fun _ => System.offerPassword interactive >>= fun _ =>
        System.onVfs (Vfs.write initializedPath (asBytes "AFOS-SETUP-1\n".toList)))
      refine Eq.trans ?_ (hv.trans hprep.verifier)
      rcases Op.bind_cases (hrest.symm.trans hrun) with ⟨e, ho, -⟩ | ⟨⟨⟩, s₃, ho, hrun⟩
      · rw [ho] at hoffer
        exact hoffer
      · rw [ho] at hoffer
        exact ((keeps_verifier_writeMarker _).eq hrun).trans hoffer

end Setup

/-! ## Changing the password -/

section Change

variable [BlockDevice D] [Hardware η] [Argon2]

/-- What `verify` accepts opens the verifier that is there: of all the ways through it, only the last one returns
    `Ok`. -/
theorem accepts_of_verify {s s' : System (BareMetalPlatform D η)} {line : Str} {data : Bytes}
    (hs : s.verifier = some data) (h : SecurityManager.verify line s = (.ok (), s')) :
    Accepts data line := by
  obtain ⟨found, p, hread, haccepts, -⟩ := SecurityManager.verify_ok h
  -- the clock was read in between, which leaves the tree alone
  have hlookup : (Platform.monotonicMillis s.vfs.platform).2.tree.files.lookup securityFile =
      some found := BareMetalPlatform.storageRead_ok (congrArg Prod.fst hread)
  cases hs.symm.trans hlookup
  exact haccepts

/-- With a verifier in place, `changePassword` leaves it alone or has been given a line that
    opens it. -/
theorem changePassword_verifier {s : System (BareMetalPlatform D η)} {data : Bytes}
    (hs : s.verifier = some data) :
    (System.changePassword s).2.verifier = some data ∨ Unlocked data s := by
  have hpresent : SecurityManager.hasPassword s = (.ok true, s) := by
    rw [SecurityManager.run_hasPassword]
    have hexists : s.tree.existsAt securityFile = true :=
      FileTree.existsAt_iff.mpr (Or.inl (OrdMap.contains_iff.mpr ⟨data, hs⟩))
    show (Except.ok (s.tree.existsAt securityFile), s) = _
    rw [hexists]
  cases hrun : System.changePassword s with
  | mk r s' =>
    unfold System.changePassword at hrun
    rw [Op.run_bind_ok hpresent] at hrun
    simp only [if_true] at hrun
    obtain ⟨line, s₂, hline, hv⟩ : ∃ line s₂,
        System.consoleReadLine "Current master password: ".toList true s = (.ok line, s₂) ∧
          s₂.verifier = some data := ⟨_, _, rfl, hs⟩
    rw [Op.run_bind_ok hline] at hrun
    -- the line is refused, and nothing has been changed, or it is accepted
    rcases Op.bind_cases hrun with ⟨e, hverify, -⟩ | ⟨⟨⟩, s₃, hverify, -⟩
    · exact Or.inl ((System.verifier_eq ((System.keeps_verify line).eq hverify)).trans hv)
    · exact Or.inr ⟨line, s, s₂, s₃, hpresent, hline, hv, hverify, accepts_of_verify hv hverify⟩

/-- One call changes the verifier only after a line that opens it, setups answered with yes
    apart. -/
theorem AdminCall.run_verifier {s : System (BareMetalPlatform D η)} {call : AdminCall}
    {data : Bytes} (hs : s.verifier = some data) (hno : ¬ call.Reopens s) :
    (call.run s).2.verifier = some data ∨ call = .changePassword ∧ Unlocked data s := by
  cases call with
  | setup interactive => exact Or.inl ((setup_verifier hno).trans hs)
  | changePassword => exact (changePassword_verifier hs).imp id fun h => ⟨rfl, h⟩
  | restart => exact Or.inl hs

/-- In a run without a setup that is answered with yes while there is a verifier, the verifier
    changes or goes away only in a `changePassword` that was given a line it accepts. -/
theorem AdminCall.verifier_changed_by_owner (s₀ : System (BareMetalPlatform D η))
    (calls : List AdminCall)
    (hno : ∀ before call after, calls = before ++ call :: after →
      (runAll before s₀).verifier ≠ none → ¬ call.Reopens (runAll before s₀))
    (before : List AdminCall) (call : AdminCall) (after : List AdminCall)
    (hcalls : calls = before ++ call :: after) (data : Bytes)
    (hs : (runAll before s₀).verifier = some data)
    (hchanged : (call.run (runAll before s₀)).2.verifier ≠ some data) :
    call = .changePassword ∧ Unlocked data (runAll before s₀) := by
  have hcall : ¬ call.Reopens (runAll before s₀) := by
    apply hno before call after hcalls
    rw [hs]
    exact Option.some_ne_none data
  rcases run_verifier hs hcall with hsame | hunlocked
  · exact absurd hsame hchanged
  · exact hunlocked

end Change

/-! ## Setup on storage with a verifier -/

section Reopened

attribute [local instance] lengthArgon2

/-- A system whose master password is `secret`, without the marker, and with these lines typed
    ahead. -/
def ownedSystem (lines : List Str) : System (BareMetalPlatform NoDisk Keyboard) :=
  System.new (diskless (FileTree.empty.insertFile securityFile
    (asBytes (encodeVerifier (List.replicate 16 0) (List.replicate 32 6)))) lines)

/-- Answering `y` and then nothing removes the password of a system that would have accepted
    neither line. -/
theorem setup_removes_password :
    (SecurityManager.verify "secret".toList (ownedSystem ["y".toList, []])).1 = .ok () ∧
      (∀ line ∈ ["y".toList, []],
        (SecurityManager.verify line (ownedSystem ["y".toList, []])).1 =
          .error .authenticationFailed) ∧
      (ownedSystem ["y".toList, []]).verifier ≠ none ∧
      ((AdminCall.setup true).run (ownedSystem ["y".toList, []])).2.verifier = none := by
  refine ⟨?_, ?_, ?_, ?_⟩
  · decide +kernel
  · decide +kernel
  · decide +kernel
  · decide +kernel

theorem verifier_changed_by_owner_secret :
    ∃ data, Unlocked data (ownedSystem ["secret".toList, []]) := by
  have hs : (ownedSystem ["secret".toList, []]).verifier =
      some (asBytes (encodeVerifier (List.replicate 16 0) (List.replicate 32 6))) := by
    decide +kernel
  refine ⟨_, (AdminCall.verifier_changed_by_owner (ownedSystem ["secret".toList, []])
    [.changePassword] ?_ [] .changePassword [] rfl _ hs ?_).2⟩
  · intro before call after hcalls _ hre
    cases before with
    | nil =>
      cases hcalls
      exact hre
    | cons c before => simp at hcalls
  · decide +kernel

end Reopened

end Afos
