import Afos.Bundled
import Afos.Proof.Launch
import Afos.Proof.Runtime

/-!
# When the interactive shell goes on

The loop of `runInteractive` hands on every error of a command, so the session ends with the
first command that fails. `Fails` lists the ways a line can fail, by what it says and by the
state it is run in, and `runCommand_error_iff` says the list is complete. A session whose last
line is its first `exit` then gets to that line exactly when setup went through and none of the
lines before it is on the list (`session_survives_iff`).

The console is taken to answer (`ReliableConsole`), as the one of the bare-metal machine does.
Storage is not: where a line fails because a storage call did, the list has it.
-/

set_option autoImplicit false

namespace Afos

open Lib

section Failures

variable {σ : Type} [Platform σ]

/-- A console whose calls do not fail. The one of the desktop program can: its end of input is an error, and ends the
    session like any other. -/
structure ReliableConsole (σ : Type) [Platform σ] : Prop where
  write : ∀ (text : Str) (p : σ), ∃ p', Platform.consoleWrite text p = (.ok (), p')
  readLine : ∀ (prompt : Str) (secret : Bool) (p : σ),
    ∃ line p', Platform.consoleReadLine prompt secret p = (.ok line, p')
  clear : ∀ p : σ, ∃ p', Platform.consoleClear p = (.ok (), p')

/-! ## Passwords -/

variable [Argon2]

/-- Asking for a new password fails: the second entry differs, or it cannot be stored. Each way carries the states
    in between, because what is typed second is typed in the state that the first prompt has left. An empty entry
    is not a way to fail by itself: it asks for the password to be removed, which can fail in storage. -/
inductive PromptFails (s : System σ) : Prop
  | mismatch {password confirmation : Str} {s₁ s₂ : System σ}
      (first : System.consoleReadLine "New master password (empty disables it): ".toList true s =
        (.ok password, s₁))
      (nonempty : password ≠ [])
      (second : System.consoleReadLine "Confirm master password: ".toList true s₁ =
        (.ok confirmation, s₂))
      (differ : password ≠ confirmation)
  | disable {s₁ s₂ : System σ} {e : Error}
      (first : System.consoleReadLine "New master password (empty disables it): ".toList true s =
        (.ok [], s₁))
      (remove : SecurityManager.setPassword [] s₁ = (.error e, s₂))
  | store {password : Str} {s₁ s₂ s₃ : System σ} {e : Error}
      (first : System.consoleReadLine "New master password (empty disables it): ".toList true s =
        (.ok password, s₁))
      (nonempty : password ≠ [])
      (second : System.consoleReadLine "Confirm master password: ".toList true s₁ =
        (.ok password, s₂))
      (store : SecurityManager.setPassword password s₂ = (.error e, s₃))

/-- Changing the password fails: the current one is not given, or a new one not taken. `refused` covers a wrong
    password as well as one that is turned away while the throttle holds, and a verifier that cannot be parsed. -/
inductive PasswordFails (s : System σ) : Prop
  | lookup {s₁ : System σ} {e : Error} (lookup : SecurityManager.hasPassword s = (.error e, s₁))
  | refused {line : Str} {s₁ s₂ s₃ : System σ} {e : Error}
      (present : SecurityManager.hasPassword s = (.ok true, s₁))
      (read : System.consoleReadLine "Current master password: ".toList true s₁ = (.ok line, s₂))
      (verify : SecurityManager.verify line s₂ = (.error e, s₃))
  | replace {line : Str} {s₁ s₂ s₃ : System σ}
      (present : SecurityManager.hasPassword s = (.ok true, s₁))
      (read : System.consoleReadLine "Current master password: ".toList true s₁ = (.ok line, s₂))
      (verify : SecurityManager.verify line s₂ = (.ok (), s₃)) (prompt : PromptFails s₃)
  | create {s₁ : System σ} (absent : SecurityManager.hasPassword s = (.ok false, s₁))
      (prompt : PromptFails s₁)

namespace ReliableConsole

variable (hc : ReliableConsole σ)
include hc

omit [Argon2] in
theorem systemRead (prompt : Str) (secret : Bool) (s : System σ) :
    ∃ line s', System.consoleReadLine prompt secret s = (.ok line, s') := by
  obtain ⟨line, p', h⟩ := hc.readLine prompt secret s.vfs.platform
  refine ⟨line, s.withPlatform p', ?_⟩
  rw [System.consoleReadLine, System.run_onPlatform, h]

omit [Argon2] in
theorem systemWrite (text : Str) (s : System σ) :
    ∃ s', System.consoleWrite text s = (.ok (), s') := by
  obtain ⟨p', h⟩ := hc.write text s.vfs.platform
  refine ⟨s.withPlatform p', ?_⟩
  rw [System.consoleWrite, System.run_onPlatform, h]

omit [Argon2] in
theorem sessionWrite (text : Str) (t : AppSession σ) :
    ∃ t', AppSession.consoleWrite text t = (.ok (), t') := by
  obtain ⟨y, h⟩ := hc.systemWrite text t.system
  refine ⟨{ t with system := y }, ?_⟩
  have hrun : AppSession.consoleWrite text t = AppSession.onSystem (System.consoleWrite text) t := rfl
  rw [hrun, AppSession.onSystem, Op.run_zoom, h]

/-- The proof follows the code: the console answers, so at each prompt there is one entry and one state, and the
    code decides by what was entered. Of the listed ways all but one do not fit that entry. -/
theorem promptNewPassword_error_iff (s : System σ) :
    (∃ e, (System.promptNewPassword s).1 = .error e) ↔ PromptFails s := by
  obtain ⟨password, s₁, hfirst⟩ :=
    hc.systemRead "New master password (empty disables it): ".toList true s
  unfold System.promptNewPassword
  rw [Op.run_bind_ok hfirst]
  by_cases hnil : password = []
  · -- nothing is entered: the password is removed, and only `disable` is left
    subst hnil
    rw [if_pos rfl, Op.exists_error_iff]
    constructor
    · rintro ⟨e, s₂, hset⟩
      exact .disable hfirst hset
    · rintro (⟨first, nonempty, -, -⟩ | ⟨first, remove⟩ | ⟨first, nonempty, -, -⟩)
      · cases first.symm.trans hfirst
        exact absurd rfl nonempty
      · cases first.symm.trans hfirst
        exact ⟨_, _, remove⟩
      · cases first.symm.trans hfirst
        exact absurd rfl nonempty
  · obtain ⟨confirmation, s₂, hsecond⟩ :=
      hc.systemRead "Confirm master password: ".toList true s₁
    rw [if_neg hnil, Op.run_bind_ok hsecond]
    by_cases hsame : password = confirmation
    · -- entered twice: only `store` is left
      subst hsame
      rw [if_neg (not_not.mpr rfl), Op.exists_error_iff]
      constructor
      · rintro ⟨e, s₃, hset⟩
        exact .store hfirst hnil hsecond hset
      · rintro (⟨first, -, second, differ⟩ | ⟨first, remove⟩ | ⟨first, -, second, store⟩)
        · cases first.symm.trans hfirst
          cases second.symm.trans hsecond
          exact absurd rfl differ
        · cases first.symm.trans hfirst
          exact absurd rfl hnil
        · cases first.symm.trans hfirst
          cases second.symm.trans hsecond
          exact ⟨_, _, store⟩
    · rw [if_pos hsame]
      exact ⟨fun _ => .mismatch hfirst hnil hsecond hsame, fun _ => ⟨_, rfl⟩⟩

theorem changePassword_error_iff (s : System σ) :
    (∃ e, (System.changePassword s).1 = .error e) ↔ PasswordFails s := by
  unfold System.changePassword
  cases hlook : SecurityManager.hasPassword s with
  | mk r s₁ =>
    cases r with
    | error e =>
      rw [Op.run_bind_error hlook]
      exact ⟨fun _ => .lookup hlook, fun _ => ⟨e, rfl⟩⟩
    | ok present =>
      rw [Op.run_bind_ok hlook]
      cases present with
      | false =>
        -- without a password there is nothing to verify first
        simp only [Bool.false_eq_true, if_false]
        rw [hc.promptNewPassword_error_iff]
        constructor
        · exact fun hprompt => .create hlook hprompt
        · rintro (lookup | ⟨present, -, -⟩ | ⟨present, -, -, -⟩ | ⟨absent, prompt⟩)
          · cases lookup.symm.trans hlook
          · cases present.symm.trans hlook
          · cases present.symm.trans hlook
          · cases absent.symm.trans hlook
            exact prompt
      | true =>
        obtain ⟨line, s₂, hread⟩ := hc.systemRead "Current master password: ".toList true s₁
        simp only [if_true]
        rw [Op.run_bind_ok hread]
        cases hverify : SecurityManager.verify line s₂ with
        | mk r₃ s₃ =>
          cases r₃ with
          | error e =>
            rw [Op.run_bind_error hverify]
            exact ⟨fun _ => .refused hlook hread hverify, fun _ => ⟨e, rfl⟩⟩
          | ok u =>
            rw [Op.run_bind_ok hverify, hc.promptNewPassword_error_iff]
            constructor
            · exact fun hprompt => .replace hlook hread hverify hprompt
            · rintro (lookup | ⟨present, read, verify⟩ | ⟨present, read, verify, prompt⟩ |
                ⟨absent, -⟩)
              · cases lookup.symm.trans hlook
              · cases present.symm.trans hlook
                cases read.symm.trans hread
                cases verify.symm.trans hverify
              · cases present.symm.trans hlook
                cases read.symm.trans hread
                cases verify.symm.trans hverify
                exact prompt
              · cases absent.symm.trans hlook

end ReliableConsole

/-! ## Setup -/

/-- The text of the marker that setup leaves. -/
def setupMarker : Bytes := asBytes "AFOS-SETUP-1\n".toList

/-- First-run setup fails: storage does, or a password was wanted and not taken. Setup that has been done before
    stops after the lookup, so the last two ways need the marker to be absent. -/
inductive SetupFails (interactive : Bool) (s : System σ) : Prop
  | layout {s₁ : System σ} {e : Error} (layout : System.onVfs Vfs.initializeLayout s = (.error e, s₁))
  | lookup {s₁ s₂ : System σ} {e : Error} (layout : System.onVfs Vfs.initializeLayout s = (.ok (), s₁))
      (lookup : System.onVfs (Vfs.existsAt initializedPath) s₁ = (.error e, s₂))
  | password {answer : Str} {s₁ s₂ s₃ s₄ : System σ}
      (layout : System.onVfs Vfs.initializeLayout s = (.ok (), s₁))
      (absent : System.onVfs (Vfs.existsAt initializedPath) s₁ = (.ok false, s₂))
      (greet : System.consoleWrite "AFOS first-run setup\n".toList s₂ = (.ok (), s₃))
      (asked : interactive = true)
      (ask : System.consoleReadLine "Configure a master password? [y/N] ".toList false s₃ =
        (.ok answer, s₄))
      (yes : isYes answer = true) (prompt : PromptFails s₄)
  | record {s₁ s₂ s₃ s₄ s₅ : System σ} {e : Error}
      (layout : System.onVfs Vfs.initializeLayout s = (.ok (), s₁))
      (absent : System.onVfs (Vfs.existsAt initializedPath) s₁ = (.ok false, s₂))
      (greet : System.consoleWrite "AFOS first-run setup\n".toList s₂ = (.ok (), s₃))
      (offer : System.offerPassword interactive s₃ = (.ok (), s₄))
      (record : System.onVfs (Vfs.write initializedPath setupMarker) s₄ = (.error e, s₅))

namespace ReliableConsole

variable (hc : ReliableConsole σ)
include hc

/-- The question fails if it is asked, answered with yes, and no password is taken. -/
theorem offerPassword_error_iff (interactive : Bool) (s : System σ) :
    (∃ e, (System.offerPassword interactive s).1 = .error e) ↔
      interactive = true ∧ ∃ answer s₁,
        System.consoleReadLine "Configure a master password? [y/N] ".toList false s =
          (.ok answer, s₁) ∧ isYes answer = true ∧ PromptFails s₁ := by
  unfold System.offerPassword
  cases interactive with
  | false =>
    constructor
    · rintro ⟨e, he⟩
      cases he
    · rintro ⟨h, -⟩
      cases h
  | true =>
    obtain ⟨answer, s₁, hask⟩ :=
      hc.systemRead "Configure a master password? [y/N] ".toList false s
    rw [if_pos rfl, Op.run_bind_ok hask]
    cases hyes : isYes answer with
    | false =>
      constructor
      · rintro ⟨e, he⟩
        cases he
      · rintro ⟨-, answer', s₁', hask', hyes', -⟩
        cases hask'.symm.trans hask
        rw [hyes] at hyes'
        cases hyes'
    | true =>
      rw [if_pos rfl, hc.promptNewPassword_error_iff]
      constructor
      · exact fun hprompt => ⟨rfl, answer, s₁, hask, hyes, hprompt⟩
      · rintro ⟨-, answer', s₁', hask', -, hprompt⟩
        cases hask'.symm.trans hask
        exact hprompt

/-- Setup has four steps that can fail, one after the other, and each is split off in turn; what is on the list
    for a later step has the results of the earlier ones in it, so it cannot hold where one of those failed. -/
theorem initializeSystem_error_iff (interactive : Bool) (s : System σ) :
    (∃ e, (System.initializeSystem interactive s).1 = .error e) ↔ SetupFails interactive s := by
  unfold System.initializeSystem
  cases hlayout : System.onVfs Vfs.initializeLayout s with
  | mk r s₁ =>
  cases r with
  | error e =>
    rw [Op.run_bind_error hlayout]
    exact ⟨fun _ => .layout hlayout, fun _ => ⟨e, rfl⟩⟩
  | ok u =>
  rw [Op.run_bind_ok hlayout]
  cases hlook : System.onVfs (Vfs.existsAt initializedPath) s₁ with
  | mk r s₂ =>
  cases r with
  | error e =>
    rw [Op.run_bind_error hlook]
    exact ⟨fun _ => .lookup hlayout hlook, fun _ => ⟨e, rfl⟩⟩
  | ok done =>
  rw [Op.run_bind_ok hlook]
  cases done with
  | true =>
    -- the marker is there: setup returns without asking anything
    constructor
    · rintro ⟨e, he⟩
      cases he
    · rintro (layout | ⟨layout, lookup⟩ | ⟨layout, absent, -, -, -, -, -⟩ | ⟨layout, absent, -, -, -⟩)
      · cases layout.symm.trans hlayout
      · cases layout.symm.trans hlayout
        cases lookup.symm.trans hlook
      · cases layout.symm.trans hlayout
        cases absent.symm.trans hlook
      · cases layout.symm.trans hlayout
        cases absent.symm.trans hlook
  | false =>
  obtain ⟨s₃, hgreet⟩ := hc.systemWrite "AFOS first-run setup\n".toList s₂
  rw [if_neg Bool.false_ne_true, Op.run_bind_ok hgreet]
  have hoffer := hc.offerPassword_error_iff interactive s₃
  cases ho : System.offerPassword interactive s₃ with
  | mk r s₄ =>
  rw [ho] at hoffer
  cases r with
  | error e =>
    rw [Op.run_bind_error ho]
    obtain ⟨hi, answer, s₄', hask, hyes, hprompt⟩ := hoffer.mp ⟨e, rfl⟩
    exact ⟨fun _ => .password hlayout hlook hgreet hi hask hyes hprompt, fun _ => ⟨e, rfl⟩⟩
  | ok u =>
    rw [Op.run_bind_ok ho, Op.exists_error_iff]
    constructor
    · rintro ⟨e, s₅, hrecord⟩
      exact .record hlayout hlook hgreet ho hrecord
    · rintro (layout | ⟨layout, lookup⟩ | ⟨layout, absent, greet, asked, ask, yes, prompt⟩ |
        ⟨layout, absent, greet, offer, record⟩)
      · cases layout.symm.trans hlayout
      · cases layout.symm.trans hlayout
        cases lookup.symm.trans hlook
      · cases layout.symm.trans hlayout
        cases absent.symm.trans hlook
        cases greet.symm.trans hgreet
        obtain ⟨e, he⟩ := hoffer.mpr ⟨asked, _, _, ask, yes, prompt⟩
        cases he
      · cases layout.symm.trans hlayout
        cases absent.symm.trans hlook
        cases greet.symm.trans hgreet
        cases offer.symm.trans ho
        exact ⟨_, _, record⟩

end ReliableConsole

/-! ## Applications -/

namespace Shell

omit [Argon2] in
/-- An application cannot be loaded: it is not found, or cannot be read, or is too long, or has a header that is
    refused. The length is counted in bytes and tested before the header is looked at. -/
inductive LoadFails (command : Str) (s : Shell σ) : Prop
  | unresolved {s₁ : Shell σ} {e : Error} (resolve : resolveCommand command s = (.error e, s₁))
  | unreadable {path : Str} {s₁ s₂ : Shell σ} {e : Error}
      (resolve : resolveCommand command s = (.ok path, s₁))
      (read : onVfs (Vfs.readText path) s₁ = (.error e, s₂))
  | tooLong {path source : Str} {s₁ s₂ : Shell σ}
      (resolve : resolveCommand command s = (.ok path, s₁))
      (read : onVfs (Vfs.readText path) s₁ = (.ok source, s₂))
      (long : maxSourceLen < (asBytes source).length)
  | badHeader {path source : Str} {s₁ s₂ : Shell σ} {e : Error}
      (resolve : resolveCommand command s = (.ok path, s₁))
      (read : onVfs (Vfs.readText path) s₁ = (.ok source, s₂))
      (header : parseMetadata path source (isTrustedPath path) = .error e)

/-- The session an application is started in. -/
def sessionOf (launch : Launch) (s : Shell σ) : AppSession σ :=
  AppSession.new s.system launch.identity launch.args s.cwd

/-- An application fails: it cannot be loaded, or there is no runtime for it, or its script ends with an error. A
    script that comes to its end with a status other than 0 does not fail: the status is reported on the console,
    and the session goes on. -/
inductive AppFails (command : Str) (args : List Str) (s : Shell σ) : Prop
  | load (load : LoadFails command s)
  | script {launch : Launch} {s₁ : Shell σ} {t : AppSession σ} {e : Error}
      (load : loadApp command args s = (.ok launch, s₁))
      (script : s₁.runtimes.execute launch.path launch.source (sessionOf launch s₁) = (.error e, t))

omit [Argon2] in
theorem loadApp_error_iff (command : Str) (args : List Str) (s : Shell σ) :
    (∃ e, (loadApp command args s).1 = .error e) ↔ LoadFails command s := by
  unfold loadApp
  cases hresolve : resolveCommand command s with
  | mk r s₁ =>
  cases r with
  | error e =>
    rw [Op.run_bind_error hresolve]
    exact ⟨fun _ => .unresolved hresolve, fun _ => ⟨e, rfl⟩⟩
  | ok path =>
  rw [Op.run_bind_ok hresolve]
  cases hread : onVfs (Vfs.readText path) s₁ with
  | mk r s₂ =>
  cases r with
  | error e =>
    rw [Op.run_bind_error hread]
    exact ⟨fun _ => .unreadable hresolve hread, fun _ => ⟨e, rfl⟩⟩
  | ok source =>
  rw [Op.run_bind_ok hread]
  by_cases hlong : maxSourceLen < (asBytes source).length
  · rw [if_pos hlong]
    exact ⟨fun _ => .tooLong hresolve hread hlong, fun _ => ⟨_, rfl⟩⟩
  · rw [if_neg hlong]
    cases hheader : parseMetadata path source (isTrustedPath path) with
    | error e => exact ⟨fun _ => .badHeader hresolve hread hheader, fun _ => ⟨e, rfl⟩⟩
    | ok identity =>
      constructor
      · rintro ⟨e, he⟩
        cases he
      · rintro (resolve | ⟨resolve, read⟩ | ⟨resolve, read, long⟩ | ⟨resolve, read, header⟩)
        · cases resolve.symm.trans hresolve
        · cases resolve.symm.trans hresolve
          cases read.symm.trans hread
        · cases resolve.symm.trans hresolve
          cases read.symm.trans hread
          exact absurd long hlong
        · cases resolve.symm.trans hresolve
          cases read.symm.trans hread
          cases header.symm.trans hheader

/-- Reporting a failing status does not fail, so the script decides whether starting an application does. -/
theorem startApp_error_iff (hc : ReliableConsole σ) (launch : Launch) (s : Shell σ) :
    (∃ e, (startApp launch s).1 = .error e) ↔
      ∃ e t, s.runtimes.execute launch.path launch.source (sessionOf launch s) = (.error e, t) := by
  show (∃ e, (runSession s.runtimes launch (sessionOf launch s)).1 = .error e) ↔ _
  unfold runSession
  cases hexec : s.runtimes.execute launch.path launch.source (sessionOf launch s) with
  | mk r t =>
  cases r with
  | error e =>
    rw [Op.run_bind_error hexec]
    exact ⟨fun _ => ⟨e, t, rfl⟩, fun _ => ⟨e, rfl⟩⟩
  | ok code =>
    rw [Op.run_bind_ok hexec]
    refine ⟨?_, fun h => ?_⟩
    · rintro ⟨e, he⟩
      -- a status other than 0 is reported, and the console takes the report
      by_cases hcode : code ≠ 0
      · rw [if_pos hcode, Op.run_bind, Op.run_read] at he
        obtain ⟨t', hreport⟩ := hc.sessionWrite
          (t.app.id ++ " exited with status ".toList ++ intToStr code ++ "\n".toList) t
        simp only at he
        rw [Op.run_bind_ok hreport] at he
        cases he
      · rw [if_neg hcode] at he
        cases he
    · obtain ⟨e, t', h⟩ := h
      cases h

theorem executeApp_error_iff (hc : ReliableConsole σ) (command : Str) (args : List Str)
    (s : Shell σ) : (∃ e, (executeApp command args s).1 = .error e) ↔ AppFails command args s := by
  have hloadIff := loadApp_error_iff command args s
  unfold executeApp
  cases hload : loadApp command args s with
  | mk r s₁ =>
  rw [hload] at hloadIff
  cases r with
  | error e =>
    rw [Op.run_bind_error hload]
    exact ⟨fun _ => .load (hloadIff.mp ⟨e, rfl⟩), fun _ => ⟨e, rfl⟩⟩
  | ok launch =>
    rw [Op.run_bind_ok hload, startApp_error_iff hc]
    constructor
    · rintro ⟨e, t, hscript⟩
      exact .script hload hscript
    · rintro (load | ⟨load, script⟩)
      · obtain ⟨e, he⟩ := hloadIff.mpr load
        cases he
      · cases load.symm.trans hload
        exact ⟨_, _, script⟩

/-! ## Lines -/

/-- The ways each command can fail. The commands of the shell come first, in the order in which the source tries
    them, and anything else is the name of an application. `clear` cannot fail on a console that does not, and
    `exit` fails on a status that is not a number. -/
def CommandFails (command : Str) (args : List Str) (s : Shell σ) : Prop :=
  if command = "cd".toList then
    (∃ e, normalizePath s.cwd (args.headD "/user".toList) = .error e) ∨
      ∃ target e s₁, normalizePath s.cwd (args.headD "/user".toList) = .ok target ∧
        onVfs (Vfs.list target) s = (.error e, s₁)
  else if command = "exit".toList then
    ∃ value rest, args = value :: rest ∧ parseI32 value = none
  else if command = "clear".toList then False
  else if command = "passwd".toList ∨ command = "setup".toList then PasswordFails s.system
  else if command = "run".toList then
    args = [] ∨ ∃ path rest, args = path :: rest ∧ AppFails path rest s
  else AppFails command args s

/-- The ways a line can fail: it leaves a quote open, or its command fails. A line without a word in it is neither:
    the shell goes on to the next. -/
inductive Fails (line : Str) (s : Shell σ) : Prop
  | quote (opened : (line.foldl Splitter.step {}).quote.isSome = true)
  | command {command : Str} {args : List Str}
      (split : splitCommandLine line = .ok (command :: args))
      (fails : CommandFails command args s)

/-- A command that ends the session, with this status. `exit` with something that is not a number is not one: it
    fails, and so ends the session with an error instead. -/
def IsExit (line : Str) (code : Int) : Prop :=
  ∃ args, splitCommandLine line = .ok ("exit".toList :: args) ∧ exitStatus args = .ok code

omit [Argon2] in
theorem IsExit.head {line : Str} {code : Int} (h : IsExit line code) :
    (splitCommandLine line).toOption.bind List.head? = some "exit".toList := by
  obtain ⟨args, hsplit, -⟩ := h
  rw [hsplit]
  rfl

omit [Argon2] in
theorem exitStatus_error_iff (args : List Str) :
    (∃ e, exitStatus args = .error e) ↔ ∃ value rest, args = value :: rest ∧ parseI32 value = none := by
  cases args with
  | nil => simp [exitStatus]
  | cons value rest =>
    cases hv : parseI32 value with
    | none => simp [exitStatus, hv]
    | some code => simp [exitStatus, hv]

omit [Argon2] in
theorem splitCommandLine_error_iff (line : Str) :
    (∃ e, splitCommandLine line = .error e) ↔
      (line.foldl Splitter.step {}).quote.isSome = true := by
  unfold splitCommandLine Splitter.finish
  by_cases h : (line.foldl Splitter.step {}).quote.isSome = true
  · rw [if_pos h]
    exact ⟨fun _ => h, fun _ => ⟨_, rfl⟩⟩
  · rw [if_neg h]
    constructor
    · rintro ⟨e, he⟩
      cases he
    · exact fun hq => absurd hq h

omit [Platform σ] [Argon2] in
theorem run_onPlatform_ok {α : Type} {x : Op Error σ α} {s : Shell σ} {a : α} {p' : σ}
    (h : x s.system.vfs.platform = (.ok a, p')) :
    onPlatform x s = (.ok a, { s with system := s.system.withPlatform p' }) := by
  rw [onPlatform, onSystem, Op.run_zoom, System.run_onPlatform, h]

omit [Argon2] in
theorem changeDirectory_error_iff (args : List Str) (s : Shell σ) :
    (∃ e, (changeDirectory args s).1 = .error e) ↔
      (∃ e, normalizePath s.cwd (args.headD "/user".toList) = .error e) ∨
        ∃ target e s₁, normalizePath s.cwd (args.headD "/user".toList) = .ok target ∧
          onVfs (Vfs.list target) s = (.error e, s₁) := by
  unfold changeDirectory
  rw [Op.run_bind, Op.run_read]
  cases hn : normalizePath s.cwd (args.headD "/user".toList) with
  | error e =>
    simp only [hn, Op.run_bind, Op.run_ofExcept]
    exact ⟨fun _ => Or.inl ⟨e, rfl⟩, fun _ => ⟨e, rfl⟩⟩
  | ok target =>
    simp only [hn]
    rw [Op.run_bind, Op.run_ofExcept]
    simp only
    cases hlist : onVfs (Vfs.list target) s with
    | mk r s₁ =>
    cases r with
    | error e =>
      rw [Op.run_bind_error hlist]
      exact ⟨fun _ => Or.inr ⟨target, e, s₁, rfl, hlist⟩, fun _ => ⟨e, rfl⟩⟩
    | ok entries =>
      rw [Op.run_bind_ok hlist]
      constructor
      · rintro ⟨e, he⟩
        cases he
      · rintro (⟨e, he⟩ | ⟨target', e, s₁', htarget, hlist'⟩)
        · cases he
        · cases htarget
          cases hlist'.symm.trans hlist

/-- The list of failures is complete, and nothing on it can happen without the command failing. One case for each
    branch of the dispatch. -/
theorem dispatch_error_iff (hc : ReliableConsole σ) (command : Str) (args : List Str)
    (s : Shell σ) :
    (∃ e, (dispatch command args s).1 = .error e) ↔ CommandFails command args s := by
  unfold dispatch CommandFails
  by_cases hcd : command = "cd".toList
  · rw [if_pos hcd, if_pos hcd]
    exact changeDirectory_error_iff args s
  rw [if_neg hcd, if_neg hcd]
  by_cases hexit : command = "exit".toList
  · rw [if_pos hexit, if_pos hexit, Op.map_error_iff]
    exact exitStatus_error_iff args
  rw [if_neg hexit, if_neg hexit]
  by_cases hclear : command = "clear".toList
  · rw [if_pos hclear, if_pos hclear]
    obtain ⟨p', hclean⟩ := hc.clear s.system.vfs.platform
    -- the only branch that the assumption on the console closes altogether
    constructor
    · rintro ⟨e, he⟩
      rw [Op.run_bind_ok (run_onPlatform_ok hclean)] at he
      cases he
    · exact False.elim
  rw [if_neg hclear, if_neg hclear]
  by_cases hpass : command = "passwd".toList ∨ command = "setup".toList
  · rw [if_pos hpass, if_pos hpass]
    have hchange := hc.changePassword_error_iff s.system
    cases hrun : System.changePassword s.system with
    | mk r y =>
    rw [hrun] at hchange
    have hsystem : onSystem System.changePassword s = (r, { s with system := y }) := by
      rw [onSystem, Op.run_zoom, hrun]
    cases r with
    | error e =>
      rw [Op.run_bind_error hsystem]
      exact ⟨fun _ => hchange.mp ⟨e, rfl⟩, fun _ => ⟨e, rfl⟩⟩
    | ok u =>
      obtain ⟨p', hwrite⟩ := hc.write "Master password updated.\n".toList y.vfs.platform
      have hreport := run_onPlatform_ok (s := { s with system := y }) hwrite
      rw [Op.run_bind_ok hsystem, Op.run_bind_ok hreport, ← hchange]
      exact ⟨fun ⟨e, he⟩ => (by cases he), fun ⟨e, he⟩ => (by cases he)⟩
  rw [if_neg hpass, if_neg hpass]
  by_cases hrun : command = "run".toList
  · rw [if_pos hrun, if_pos hrun]
    cases args with
    | nil => exact ⟨fun _ => Or.inl rfl, fun _ => ⟨_, rfl⟩⟩
    | cons path rest =>
      show (∃ e, ((CommandOutcome.next <$> executeApp path rest) s).1 = .error e) ↔ _
      rw [Op.map_error_iff, executeApp_error_iff hc]
      constructor
      · exact fun h => Or.inr ⟨path, rest, rfl, h⟩
      · rintro (h | ⟨path', rest', h, hfails⟩)
        · cases h
        · cases h
          exact hfails
  · rw [if_neg hrun, if_neg hrun]
    rw [Op.map_error_iff, executeApp_error_iff hc]

/-- A line fails in one of these ways, and only in these: what `Fails` says of a line and a state is when running the
    line in that state returns an error. -/
theorem runCommand_error_iff (hc : ReliableConsole σ) (line : Str) (s : Shell σ) :
    (∃ e, (runCommand line s).1 = .error e) ↔ Fails line s := by
  have hsplitIff := splitCommandLine_error_iff line
  cases hsplit : splitCommandLine line with
  | error e =>
    have hopen := hsplitIff.mp ⟨e, hsplit⟩
    refine ⟨fun _ => .quote hopen, fun _ => ⟨e, ?_⟩⟩
    unfold runCommand
    rw [hsplit]
    rfl
  | ok tokens =>
    have hclosed : ¬ (line.foldl Splitter.step {}).quote.isSome = true := by
      intro hopen
      obtain ⟨e, he⟩ := hsplitIff.mpr hopen
      cases he.symm.trans hsplit
    cases tokens with
    | nil =>
      constructor
      · rintro ⟨e, he⟩
        unfold runCommand at he
        rw [hsplit] at he
        cases he
      · rintro (opened | ⟨split, -⟩)
        · exact absurd opened hclosed
        · cases split.symm.trans hsplit
    | cons command args =>
      rw [runCommand_of_split hsplit, dispatch_error_iff hc]
      constructor
      · exact fun h => .command hsplit h
      · rintro (opened | ⟨split, fails⟩)
        · exact absurd opened hclosed
        · cases split.symm.trans hsplit
          exact fails

/-- Only an `exit` ends a session, among the commands that succeed. An application has no way to end it: whatever its
    script returns becomes a status. -/
theorem dispatch_outcome {command : Str} {args : List Str} {s s' : Shell σ}
    {outcome : CommandOutcome} (h : dispatch command args s = (.ok outcome, s')) :
    (∃ code, outcome = .next code) ∨
      ∃ code, outcome = .exit code ∧ command = "exit".toList ∧ exitStatus args = .ok code := by
  -- applications, and `run`, give a status to go on with
  have hnext : ∀ {x : Op Error (Shell σ) Int} {t : Shell σ},
      (CommandOutcome.next <$> x) t = (.ok outcome, s') → ∃ code, outcome = .next code := by
    intro x t hx
    obtain ⟨code, t', -, heq⟩ := Op.map_ok (congrArg Prod.fst hx)
    exact ⟨code, heq⟩
  unfold dispatch at h
  split at h
  · obtain ⟨s₀, s₁, -, h⟩ := Op.bind_ok h
    obtain ⟨target, s₂, -, h⟩ := Op.bind_ok h
    obtain ⟨entries, s₃, -, h⟩ := Op.bind_ok h
    obtain ⟨_, s₄, -, h⟩ := Op.bind_ok h
    cases h
    exact Or.inl ⟨0, rfl⟩
  split at h
  case isTrue hexit =>
    obtain ⟨code, t', hstatus, heq⟩ := Op.map_ok (congrArg Prod.fst h)
    exact Or.inr ⟨code, heq, hexit, congrArg Prod.fst hstatus⟩
  split at h
  · obtain ⟨_, s₁, -, h⟩ := Op.bind_ok h
    cases h
    exact Or.inl ⟨0, rfl⟩
  split at h
  · obtain ⟨_, s₁, -, h⟩ := Op.bind_ok h
    obtain ⟨_, s₂, -, h⟩ := Op.bind_ok h
    cases h
    exact Or.inl ⟨0, rfl⟩
  split at h
  · cases args with
    | nil => cases h
    | cons path rest => exact Or.inl (hnext h)
  · exact Or.inl (hnext h)

theorem runCommand_outcome {line : Str} {s s' : Shell σ} {outcome : CommandOutcome}
    (h : runCommand line s = (.ok outcome, s')) :
    (∃ code, outcome = .next code) ∨ ∃ code, outcome = .exit code ∧ IsExit line code := by
  cases hsplit : splitCommandLine line with
  | error e =>
    unfold runCommand at h
    rw [hsplit] at h
    cases h
  | ok tokens =>
    cases tokens with
    | nil =>
      unfold runCommand at h
      rw [hsplit] at h
      cases h
      exact Or.inl ⟨0, rfl⟩
    | cons command args =>
      rw [runCommand_of_split hsplit] at h
      rcases dispatch_outcome h with hnext | ⟨code, heq, rfl, hstatus⟩
      · exact Or.inl hnext
      · exact Or.inr ⟨code, heq, args, hsplit, hstatus⟩

theorem runCommand_exit {line : Str} {code : Int} (h : IsExit line code) (s : Shell σ) :
    runCommand line s = (.ok (.exit code), s) := by
  obtain ⟨args, hsplit, hstatus⟩ := h
  rw [runCommand_of_split hsplit]
  unfold dispatch
  rw [if_neg (by decide), if_pos rfl, hstatus]
  rfl

theorem startup_error_iff (hc : ReliableConsole σ) (config : ShellConfig) (s : Shell σ) :
    (∃ e, (startup config s).1 = .error e) ↔ SetupFails config.interactiveSetup s.system := by
  have hsetup := hc.initializeSystem_error_iff config.interactiveSetup s.system
  unfold startup
  cases hrun : System.initializeSystem config.interactiveSetup s.system with
  | mk r y =>
  rw [hrun] at hsetup
  have hsystem : onSystem (System.initializeSystem config.interactiveSetup) s =
      (r, { s with system := y }) := by
    rw [onSystem, Op.run_zoom, hrun]
  cases r with
  | error e =>
    rw [Op.run_bind_error hsystem]
    exact ⟨fun _ => hsetup.mp ⟨e, rfl⟩, fun _ => ⟨e, rfl⟩⟩
  | ok u =>
    have hdone : ∀ e, ((if config.banner then onPlatform (Platform.consoleWrite banner)
        else pure () : Op Error (Shell σ) Unit) { s with system := y }).1 ≠ .error e := by
      intro e he
      split at he
      · obtain ⟨p', hwrite⟩ := hc.write banner y.vfs.platform
        rw [run_onPlatform_ok (s := { s with system := y }) hwrite] at he
        cases he
      · cases he
    rw [Op.run_bind_ok hsystem, ← hsetup]
    constructor
    · rintro ⟨e, he⟩
      exact absurd he (hdone e)
    · rintro ⟨e, he⟩
      cases he

/-! ## Sessions -/

/-- The state after a turn of the loop for each line, whatever the commands answered. Reading the line is part of the
    turn: it writes the prompt, and takes the line from what was typed. -/
def after (lines : List Str) (s : Shell σ) : Shell σ :=
  lines.foldl (fun s line => (runCommand line (readCommand s).2).2) s

/-- The console gives the shell these lines, one for each turn. -/
def Delivers : List Str → Shell σ → Prop
  | [], _ => True
  | line :: rest, s =>
      (readCommand s).1 = .ok line ∧ Delivers rest (runCommand line (readCommand s).2).2

instance decidableDelivers : ∀ (lines : List Str) (s : Shell σ), Decidable (Delivers lines s)
  | [], _ => .isTrue trivial
  | line :: rest, s =>
      have := decidableDelivers rest (runCommand line (readCommand s).2).2
      inferInstanceAs (Decidable (_ ∧ _))

/-- No line fails in the state it is run in: the one in which the lines before it, and reading the line itself, have
    left the shell. -/
def NoneFails : List Str → Shell σ → Prop
  | [], _ => True
  | line :: rest, s =>
      ¬ Fails line (readCommand s).2 ∧ NoneFails rest (runCommand line (readCommand s).2).2

/-- What the lines answer, each in the state the one before it left. -/
def answers : List Str → Shell σ → List (Except Error CommandOutcome)
  | [], _ => []
  | line :: rest, s =>
      (runCommand line (readCommand s).2).1 :: answers rest (runCommand line (readCommand s).2).2

/-- The lines can be run to see whether one of them fails. -/
theorem noneFails_iff (hc : ReliableConsole σ) {lines : List Str} {s : Shell σ} :
    NoneFails lines s ↔ ∀ e, .error e ∉ answers lines s := by
  induction lines generalizing s with
  | nil => simp [NoneFails, answers]
  | cons line rest ih =>
    rw [NoneFails, ih, ← runCommand_error_iff hc]
    simp only [answers, List.mem_cons, not_or, forall_and, eq_comm, not_exists]

/-- The loop gets to the last line exactly when none of the lines before it fails. The fuel bounds the number of
    turns; one more than the lines before the `exit` is enough, and any more than that are not used. -/
theorem loop_iff (hc : ReliableConsole σ) {lines : List Str} {last : Str} {code : Int}
    (hlast : IsExit last code) (hearlier : ∀ line ∈ lines, ∀ c, ¬ IsExit line c) {s : Shell σ}
    (hdelivers : Delivers (lines ++ [last]) s) {fuel : Nat} (hfuel : lines.length < fuel) :
    loop fuel s = (.ok (some code), after (lines ++ [last]) s) ↔ NoneFails lines s := by
  -- over the lines, for every state and every fuel that is enough for the rest
  induction lines generalizing s fuel with
  | nil =>
    obtain ⟨fuel, rfl⟩ := Nat.exists_eq_succ_of_ne_zero (Nat.ne_of_gt hfuel)
    have hread : readCommand s = (.ok last, (readCommand s).2) := Prod.ext hdelivers.1 rfl
    have hexit := runCommand_exit hlast (readCommand s).2
    refine ⟨fun _ => trivial, fun _ => ?_⟩
    show loop (fuel + 1) s = (.ok (some code), (runCommand last (readCommand s).2).2)
    rw [loop, Op.run_bind_ok hread, Op.run_bind_ok hexit, hexit]
    rfl
  | cons line lines ih =>
    obtain ⟨fuel, rfl⟩ := Nat.exists_eq_succ_of_ne_zero (Nat.ne_of_gt (Nat.zero_lt_of_lt hfuel))
    have hread : readCommand s = (.ok line, (readCommand s).2) := Prod.ext hdelivers.1 rfl
    have hfails := runCommand_error_iff hc line (readCommand s).2
    show loop (fuel + 1) s =
      (.ok (some code), after (lines ++ [last]) (runCommand line (readCommand s).2).2) ↔
        ¬ Fails line (readCommand s).2 ∧ NoneFails lines (runCommand line (readCommand s).2).2
    have hrest := ih (fun l hl => hearlier l (List.mem_cons_of_mem _ hl)) hdelivers.2
      (Nat.lt_of_succ_lt_succ hfuel)
    rw [loop, Op.run_bind_ok hread, ← hfails, ← hrest]
    cases hrun : runCommand line (readCommand s).2 with
    | mk r s₂ =>
    cases r with
    | error e =>
      rw [Op.run_bind_error hrun]
      constructor
      · intro h
        cases h
      · exact fun h => absurd ⟨e, rfl⟩ h.1
    | ok outcome =>
      rw [Op.run_bind_ok hrun]
      -- a command that succeeds and is no `exit` leads to the next turn
      rcases runCommand_outcome hrun with ⟨c, rfl⟩ | ⟨c, -, hexit⟩
      · refine ⟨fun h => ⟨?_, h⟩, fun h => h.2⟩
        rintro ⟨e, he⟩
        cases he
      · exact absurd hexit (hearlier line List.mem_cons_self c)

/-- A session whose last line is its first `exit` runs every line and answers its status, *provided* setup goes
    through and no line before it fails; otherwise it does not. The loop of the source hands on the error of a
    command with `?`, so a mistyped name is enough to end the session. -/
theorem session_survives_iff (hc : ReliableConsole σ) (config : ShellConfig) (s : Shell σ)
    (lines : List Str) (last : Str) (code : Int) (hlast : IsExit last code)
    (hearlier : ∀ line ∈ lines, ∀ c, ¬ IsExit line c)
    (hdelivers : Delivers (lines ++ [last]) (startup config s).2) (fuel : Nat)
    (hfuel : lines.length < fuel) :
    runInteractive config fuel s =
        (.ok (some code), after (lines ++ [last]) (startup config s).2) ↔
      ¬ SetupFails config.interactiveSetup s.system ∧ NoneFails lines (startup config s).2 := by
  have hstart := startup_error_iff hc config s
  rw [← loop_iff hc hlast hearlier hdelivers hfuel, ← hstart]
  unfold runInteractive
  cases hrun : startup config s with
  | mk r s₁ =>
  cases r with
  | error e =>
    rw [Op.run_bind_error hrun]
    constructor
    · intro h
      cases h
    · exact fun h => absurd ⟨e, rfl⟩ h.1
  | ok u =>
    rw [Op.run_bind_ok hrun]
    refine ⟨fun h => ⟨?_, h⟩, fun h => h.2⟩
    rintro ⟨e, he⟩
    cases he

end Shell

end Failures

namespace Shell

section Console

attribute [local instance] lengthArgon2

theorem reliable_keyboard : ReliableConsole (BareMetalPlatform NoDisk Keyboard) where
  write _ _ := ⟨_, rfl⟩
  readLine _ _ _ := ⟨_, _, rfl⟩
  clear _ := ⟨_, rfl⟩

/-- A shell on an empty machine without runtimes, and these lines to read. -/
def typedShell (lines : List Str) : Shell (BareMetalPlatform NoDisk Keyboard) where
  system := System.new (diskless FileTree.empty lines)
  runtimes := []
  cwd := "/user".toList

/-- No question, no banner. -/
def quiet : ShellConfig := ⟨false, false⟩

/-- An unknown command ends the session: `exit` is never read. -/
theorem unknown_command_ends_session :
    ReliableConsole (BareMetalPlatform NoDisk Keyboard) ∧
      Delivers ["nosuch".toList, "exit".toList]
        (startup quiet (typedShell ["nosuch".toList, "exit".toList])).2 ∧
      IsExit "exit".toList 0 ∧ (∀ c, ¬ IsExit "nosuch".toList c) ∧
      (runInteractive quiet 2 (typedShell ["nosuch".toList, "exit".toList])).1 =
        .error (.notFound "nosuch".toList) := by
  refine ⟨reliable_keyboard, ⟨?_, ?_, trivial⟩, ⟨[], by decide, rfl⟩, ?_, ?_⟩
  · decide +kernel
  · decide +kernel
  · rintro c ⟨args, hsplit, -⟩
    have htokens : splitCommandLine "nosuch".toList = .ok ["nosuch".toList] := by decide
    cases htokens.symm.trans hsplit
  · decide +kernel

/-- An application that makes the directories it is given, in the directory it is called in. -/
def makeFile : EmbeddedFile :=
  ⟨bundledPath "make".toList,
    asBytes (Bundled.source ["// afos:api=1", "// afos:id=make", "// afos:capabilities=fs.write:/"])⟩

/-- A shell with this application, on a machine with one file in `/user`, and these lines to read. -/
def makeShell (lines : List Str) : Shell (BareMetalPlatform NoDisk Keyboard) where
  system := System.withVfs ⟨diskless noteTree lines, [makeFile]⟩
  runtimes := [rhaiRuntime fun _ => Bundled.mkdir Error.display]
  cwd := "/user".toList

/-- Two of the lines run the application, with other arguments and in another directory. -/
def makeLines : List Str := ["make docs 'my docs'".toList, "cd docs".toList, "make old/2024".toList]

/-- What the session starts its first turn with. -/
def makeStarted : Shell (BareMetalPlatform NoDisk Keyboard) :=
  (startup quiet (makeShell (makeLines ++ ["exit 3".toList]))).2

/-- All four lines are run, and the directories are where the two runs of the application were asked to make them. -/
theorem session_survives_make :
    runInteractive quiet 4 (makeShell (makeLines ++ ["exit 3".toList])) =
        (.ok (some 3), after (makeLines ++ ["exit 3".toList]) makeStarted) ∧
      ["user/my docs".toList, "user/docs/old/2024".toList].all
        (after (makeLines ++ ["exit 3".toList]) makeStarted).system.vfs.platform.tree.directories.contains = true := by
  have hheads : ∀ line ∈ makeLines, (splitCommandLine line).toOption.bind List.head? ≠ some "exit".toList := by decide
  have hearlier : ∀ line ∈ makeLines, ∀ c, ¬ IsExit line c :=
    fun line hline _ hexit => hheads line hline (IsExit.head hexit)
  have hdelivers : Delivers (makeLines ++ ["exit 3".toList]) makeStarted := by decide +kernel
  -- the hypotheses are about running the lines, and running them is what settles them
  have hstartup : (startup quiet (makeShell (makeLines ++ ["exit 3".toList]))).1.toOption = some () := by decide +kernel
  have hanswers : (answers makeLines makeStarted).map Except.toOption =
      [some (.next 0), some (.next 0), some (.next 0)] := by decide +kernel
  have hsetup : ¬ SetupFails quiet.interactiveSetup (makeShell (makeLines ++ ["exit 3".toList])).system := by
    rw [← startup_error_iff reliable_keyboard]
    rintro ⟨e, he⟩
    cases hstartup.symm.trans (congrArg Except.toOption he)
  have hnone : NoneFails makeLines makeStarted := by
    rw [noneFails_iff reliable_keyboard]
    intro e he
    have herror : none ∈ (answers makeLines makeStarted).map Except.toOption := List.mem_map.mpr ⟨_, he, rfl⟩
    rw [hanswers] at herror
    revert herror
    decide
  exact ⟨(session_survives_iff reliable_keyboard quiet (makeShell (makeLines ++ ["exit 3".toList])) makeLines
    "exit 3".toList 3 ⟨["3".toList], by decide, by decide⟩ hearlier hdelivers 4 (by decide)).mpr ⟨hsetup, hnone⟩,
    by decide +kernel⟩

end Console

end Shell

end Afos
