import Afos.Proof.Cancellation
import Afos.Proof.Launch

/-!
# What the file commands do

`rm`, `mkdir`, `touch`, `cp` and `mv`, from the command line to the files. The command is found among the bundled
applications, its header makes it a trusted one with a capability for everything, and the script runs, by an engine
that may break it off anywhere. What is left on the files is what the first of its calls have done, in order and up
to the first that failed (`file_command_stops_anywhere`, `copy_is_whole_or_not_there`,
`move_is_one_rename_or_nothing`).

Each script is gone through once, by the number of calls it has made when it is broken off (`after_forEach`,
`after_cp`, `after_mv`). Finding, loading and starting the command are the same for all of them, and so is the step
from the script's own calls to those of the engine, which polls for a cancellation in between (`runCommand_alike`).
-/

set_option autoImplicit false

namespace Afos

open Lib

/-! ## Trusted sessions that may do everything -/

namespace AppSession

variable {σ α : Type}

/-- An operation on a path that a trusted application asks for: the path is resolved, and the verifier is refused.
    Nobody is asked. It is an operation of the file system alone, without a session around it, so that several of
    them can be put one after the other. -/
def guarded (cwd path : Str) (act : Str → Op Error (Vfs σ) α) : Op Error (Vfs σ) α := do
  let path ← Op.ofExcept (normalizePath cwd path)
  if isSecurityResource path then
    Op.throw (.permissionDenied "security configuration is not exposed to applications".toList)
  else act path

/-- A rename that a trusted application asks for, with both paths looked at before anything is moved. The source
    authorizes them one after the other, but for a trusted application neither has an effect. -/
def guardedRename [Platform σ] (cwd source target : Str) : Op Error (Vfs σ) Unit := do
  let source ← Op.ofExcept (normalizePath cwd source)
  let target ← Op.ofExcept (normalizePath cwd target)
  if isSecurityResource source ∨ isSecurityResource target then
    Op.throw (.permissionDenied "security configuration is not exposed to applications".toList)
  else Vfs.rename source target

theorem guarded_bind {β : Type} (cwd path : Str) (act : Str → Op Error (Vfs σ) α) (f : α → Op Error (Vfs σ) β)
    (v : Vfs σ) : guarded cwd path (fun path => act path >>= f) v = (guarded cwd path act >>= f) v := by
  simp only [guarded, Op.run_bind, Op.run_ofExcept]
  cases normalizePath cwd path with
  | error e => rfl
  | ok p =>
    cases hsecurity : isSecurityResource p with
    | true => simp [hsecurity, Op.throw]
    | false => simp only [hsecurity, Bool.false_eq_true, if_false, Op.run_bind]

theorem declares_root_fsWrite {app : AppIdentity} (h : .fsWrite "/".toList ∈ app.capabilities) (path : Str) :
    declares app (.fsWrite path) = true :=
  List.any_eq_true.mpr ⟨_, h, rfl⟩

theorem declares_root_fsRead {app : AppIdentity} (h : .fsRead "/".toList ∈ app.capabilities) (path : Str) :
    declares app (.fsRead path) = true :=
  List.any_eq_true.mpr ⟨_, h, rfl⟩

/-- A trusted application that may write everywhere. -/
structure MayWrite (s : AppSession σ) : Prop where
  trusted : s.app.trusted = true
  declared : .fsWrite "/".toList ∈ s.app.capabilities

variable [Platform σ] [Argon2]

/-- A trusted application that has declared what it asks for is refused the verifier only. -/
theorem authorize_trusted {capability : Capability} {s : AppSession σ} (htrusted : s.app.trusted = true)
    (hdeclares : declares s.app capability = true) (resource : Str) :
    authorize capability resource s =
      (if isSecurityResource resource then
        .error (.permissionDenied "security configuration is not exposed to applications".toList) else .ok (), s) := by
  simp only [authorize, onSystem, Op.run_bind, Op.run_read, Op.run_zoom, System.authorize, hdeclares, htrusted]
  cases isSecurityResource resource <;> rfl

theorem withPath_trusted {capability : Str → Capability} {s : AppSession σ} (htrusted : s.app.trusted = true)
    (hdeclares : ∀ path, declares s.app (capability path) = true) (path : Str) (act : Str → Op Error (Vfs σ) α) :
    withPath capability path act s = onVfs (guarded s.cwd path act) s := by
  have hresolve : resolve path s = (normalizePath s.cwd path, s) := rfl
  simp only [withPath, guarded, onVfs, onSystem, System.onVfs, Op.run_zoom, Op.run_bind, Op.run_ofExcept, hresolve]
  cases normalizePath s.cwd path with
  | error e => rfl
  | ok p =>
    simp only [authorize_trusted htrusted (hdeclares p)]
    cases isSecurityResource p <;> rfl

theorem rename_trusted {s : AppSession σ} (h : s.MayWrite) (source target : Str) :
    rename source target s = onVfs (guardedRename s.cwd source target) s := by
  have hresolve : ∀ path, resolve path s = (normalizePath s.cwd path, s) := fun _ => rfl
  have hauthorize := fun path => authorize_trusted h.trusted (declares_root_fsWrite h.declared path) path
  simp only [rename, guardedRename, onVfs, onSystem, System.onVfs, Op.run_zoom, Op.run_bind, Op.run_ofExcept, hresolve]
  cases normalizePath s.cwd source with
  | error e => rfl
  | ok p =>
    simp only [hresolve]
    cases normalizePath s.cwd target with
    | error e => rfl
    | ok q =>
      simp only [hauthorize]
      cases isSecurityResource p with
      | true => rfl
      | false =>
        simp only [Bool.false_eq_true, if_false, hauthorize]
        cases isSecurityResource q <;> rfl

end AppSession

/-- A registered function whose call comes to an operation on the file system, in the session it is made in. What is
    left of the session is the file system: a trusted application has nothing to answer, and nothing is shown. -/
theorem Hosted.reply_onVfs {σ α : Type} [Platform σ] [Argon2] {function : Registered} {request : ApiCall}
    {s : AppSession σ} {x : Op Error (AppSession σ) α} {act : Op Error (Vfs σ) α}
    {wrap : α → ApiValue} {shown : α → Dynamic} (hrequest : function.request = .ok request)
    (hcall : AppSession.call request = wrap <$> x) (hanswer : ∀ a, function.answer (wrap a) = .ok (shown a))
    (hx : x s = AppSession.onVfs act s) :
    reply (.registered function) s =
      ((act s.system.vfs).1.map shown, { s with system := { s.system with vfs := (act s.system.vfs).2 } }) := by
  rw [reply_registered, hrequest]
  show (AppSession.call request >>= fun value => Op.ofExcept (function.answer value)) s = _
  rw [hcall, Op.run_bind, Op.run_map, hx]
  simp only [AppSession.onVfs, AppSession.onSystem, System.onVfs, Op.run_zoom]
  rcases act s.system.vfs with ⟨e | a, v⟩
  · rfl
  · simp only [Op.run_ofExcept, hanswer, Except.map]

namespace Bundled

variable {σ : Type} [Platform σ] [Argon2] {uncaught : Error → Str} {b : Binding} {next : Dynamic → Evaluation}
  {s s' : AppSession σ}

open Hosted

@[simp] theorem after_done (n : Nat) (result : Except Str Dynamic) (s : AppSession σ) :
    (Dialogue.done result : Evaluation).after reply n s = (.done result, s) := by
  cases n <;> rfl

/-- A call that succeeds is one step, and the script goes on with its value. -/
theorem after_ask_ok {value : Dynamic} (h : reply b s = (.ok value, s')) (n : Nat) :
    (ask uncaught b next).after reply (n + 1) s = (next value).after reply n s' := by
  rw [ask, Dialogue.after, h]

/-- A call that fails is the last: the scripts catch nothing, so its error ends them. -/
theorem after_ask_error {e : Error} (h : reply b s = (.error e, s')) (n : Nat) :
    (ask uncaught b next).after reply (n + 1) s = (.done (.error (uncaught e)), s') := by
  rw [ask, Dialogue.after, h, after_done]

theorem reply_args {args : List Str} (h : s.args = args) : reply .args s = (.ok (.array (args.map .text)), s) := by
  rw [← h]
  rfl

end Bundled

/-! ## Commands that do something to each of their arguments -/

/-- Three of the bundled scripts are one and the same but for the function they call and the text of their usage. -/
inductive FileCommand where
  | rm
  | mkdir
  | touch
  deriving DecidableEq

namespace FileCommand

variable {σ : Type} [Platform σ]

def name : FileCommand → Str
  | rm => "rm".toList
  | mkdir => "mkdir".toList
  | touch => "touch".toList

def source : FileCommand → Str
  | rm => Bundled.rmSource
  | mkdir => Bundled.mkdirSource
  | touch => Bundled.touchSource

def evaluation (uncaught : Error → Str) : FileCommand → Evaluation
  | rm => Bundled.rm uncaught
  | mkdir => Bundled.mkdir uncaught
  | touch => Bundled.touch uncaught

def usage : FileCommand → Str
  | rm => "usage: rm <path>...".toList
  | mkdir => "usage: mkdir <directory>...".toList
  | touch => "usage: touch <file>...".toList

def function : FileCommand → Str → Registered
  | rm => .fsRemove
  | mkdir => .fsMkdir
  | touch => fun path => .fsWrite path []

/-- What is done to an argument. A file that is touched is emptied. -/
def act : FileCommand → Str → Op Error (Vfs σ) Unit
  | rm => Vfs.remove
  | mkdir => Vfs.createDirAll
  | touch => fun path => Vfs.write path []

/-- What the header of the source says. -/
def identity (command : FileCommand) : AppIdentity where
  id := "afos.".toList ++ command.name
  sourcePath := Shell.bundledPath command.name
  trusted := true
  apiVersion := 1
  capabilities := [.fsWrite "/".toList]

theorem evaluation_eq (uncaught : Error → Str) (command : FileCommand) :
    command.evaluation uncaught = Bundled.eachArgument uncaught command.usage command.function := by
  cases command <;> rfl

theorem parseMetadata_source (command : FileCommand) :
    parseMetadata (Shell.bundledPath command.name) command.source true = .ok command.identity := by
  cases command <;> decide +kernel

theorem all_evaluation (uncaught : Error → Str) (command : FileCommand) :
    (command.evaluation uncaught).All fun b => b.isPlain = true := by
  have hend : ∀ result : Except Str Dynamic, (Dialogue.done result : Evaluation).All fun b => b.isPlain = true :=
    fun _ => trivial
  have hplain : ∀ path, (Binding.registered (command.function path)).isPlain = true := by
    intro path
    cases command <;> rfl
  -- over the arguments: one call each, and none after one that fails
  have heach : ∀ paths, (Bundled.forEach uncaught command.function (Bundled.value 0) paths).All
      fun b => b.isPlain = true := by
    intro paths
    induction paths with
    | nil => exact hend _
    | cons path paths ih =>
      refine ⟨hplain path, fun answer => ?_⟩
      cases answer with
      | ok value => exact ih
      | error e => exact hend _
  rw [evaluation_eq]
  refine ⟨rfl, fun answer => ?_⟩
  cases answer with
  | error e => exact hend _
  | ok values =>
    dsimp only
    split
    · refine ⟨rfl, fun answer => ?_⟩
      cases answer <;> exact hend _
    · exact heach _

variable [Argon2]

open AppSession Hosted

theorem reply_function {s : AppSession σ} (h : s.MayWrite) (command : FileCommand) (path : Str) :
    reply (.registered (command.function path)) s =
      ((guarded s.cwd path command.act s.system.vfs).1.map fun _ => Dynamic.unit,
        { s with system := { s.system with vfs := (guarded s.cwd path command.act s.system.vfs).2 } }) := by
  have hpath := withPath_trusted h.trusted (declares_root_fsWrite h.declared) path (command.act (σ := σ))
  cases command <;> exact reply_onVfs rfl rfl (fun _ => rfl) hpath

/-- After any number of calls: what the first arguments have come to, up to the first failure. `k` counts the
    arguments that have been gone through, the one that failed among them; after it the script makes no call. -/
theorem after_forEach (uncaught : Error → Str) (command : FileCommand) (paths : List Str) (n : Nat)
    {s : AppSession σ} (h : s.MayWrite) :
    ∃ k ≤ paths.length,
      ((Bundled.forEach uncaught command.function (Bundled.value 0) paths).after reply n s).2.system.vfs =
        ((paths.take k).forM (fun path => guarded s.cwd path command.act) s.system.vfs).2 ∧
      ∀ result, ((Bundled.forEach uncaught command.function (Bundled.value 0) paths).after reply n s).1 =
          .done result →
        (result = .ok (.int 0) ∧ k = paths.length ∧
          (paths.forM (fun path => guarded s.cwd path command.act) s.system.vfs).1 = .ok ()) ∨
        ∃ message, result = .error message := by
  -- over the arguments; the number of calls and the session are those that are left for the rest
  induction paths generalizing n s with
  | nil =>
    refine ⟨0, Nat.le_refl _, by cases n <;> rfl, fun result hresult => Or.inl ⟨?_, rfl, rfl⟩⟩
    cases n <;> (cases hresult; rfl)
  | cons path paths ih =>
    cases n with
    | zero => exact ⟨0, Nat.zero_le _, rfl, fun result hresult => (by cases hresult)⟩
    | succ n =>
      have hreply := reply_function h command path
      have hcons : ∀ rest : List Str, (path :: rest).forM (fun path => guarded s.cwd path command.act) s.system.vfs =
          (guarded s.cwd path command.act >>= fun _ =>
            rest.forM fun path => guarded s.cwd path command.act) s.system.vfs := fun _ => rfl
      rw [Bundled.forEach, Bundled.call]
      rcases hact : guarded s.cwd path command.act s.system.vfs with ⟨e | u, v⟩
      · -- the call fails, and with it the script
        rw [hact] at hreply
        rw [Bundled.after_ask_error hreply]
        refine ⟨1, by simp, ?_, fun result hresult => Or.inr ?_⟩
        · rw [List.take_succ_cons, List.take_zero, hcons, Op.run_bind_error hact]
        · cases hresult
          exact ⟨_, rfl⟩
      · rw [hact] at hreply
        rw [Bundled.after_ask_ok hreply]
        obtain ⟨k, hk, hvfs, hresult⟩ :=
          ih n (s := { s with system := { s.system with vfs := v } }) ⟨h.trusted, h.declared⟩
        refine ⟨k + 1, by simpa using hk, ?_, fun result hdone => ?_⟩
        · rw [List.take_succ_cons, hcons, Op.run_bind_ok hact]
          exact hvfs
        · rcases hresult result hdone with ⟨hzero, hlength, hall⟩ | hmessage
          · refine Or.inl ⟨hzero, by simp [hlength], ?_⟩
            rw [hcons, Op.run_bind_ok hact]
            exact hall
          · exact Or.inr hmessage

/-- The same, for the whole script, which asks for its arguments first. The name of the application is among them,
    and is left out by the script. -/
theorem after_evaluation (uncaught : Error → Str) (command : FileCommand) (n : Nat) {s : AppSession σ}
    (h : s.MayWrite) {id path : Str} {paths : List Str} (hargs : s.args = id :: path :: paths) :
    ∃ k ≤ (path :: paths).length,
      ((command.evaluation uncaught).after reply n s).2.system.vfs =
        (((path :: paths).take k).forM (fun path => guarded s.cwd path command.act) s.system.vfs).2 ∧
      ∀ result, ((command.evaluation uncaught).after reply n s).1 = .done result →
        (result = .ok (.int 0) ∧ k = (path :: paths).length ∧
          ((path :: paths).forM (fun path => guarded s.cwd path command.act) s.system.vfs).1 = .ok ()) ∨
        ∃ message, result = .error message := by
  rw [evaluation_eq]
  cases n with
  | zero => exact ⟨0, Nat.zero_le _, rfl, fun result hresult => (by cases hresult)⟩
  | succ n =>
    have htexts : (Dynamic.array ((id :: path :: paths).map .text)).asTexts = id :: path :: paths := by
      simp [Dynamic.asTexts, Dynamic.asText, Function.comp_def]
    rw [Bundled.eachArgument, Bundled.after_ask_ok (Bundled.reply_args hargs), htexts]
    rw [if_neg (by simp)]
    exact after_forEach uncaught command (path :: paths) n h

end FileCommand

/-! ## From the command line -/

namespace Shell

variable {σ : Type} [Platform σ] [Argon2]

open Hosted

omit [Argon2] in
theorem rsplitOnce_bundledPath (command : Str) :
    rsplitOnce '.' (bundledPath command) = some ("/sys/apps/".toList ++ command, "rhai".toList) := by
  have hextension : ".rhai".toList = '.' :: "rhai".toList := by decide
  have hpath := congrArg (fun extension => "/sys/apps/".toList ++ (command ++ extension)) hextension
  exact rsplitOnce_eq_some_iff.mpr ⟨hpath.trans (List.append_assoc _ _ _).symm, by decide⟩

omit [Argon2] in
theorem supports_bundledPath {runtimes : RuntimeRegistry} {engine : Str → Evaluation}
    (h : runtimes = [rhaiRuntime engine]) (command : Str) :
    runtimes.supports (bundledPath command) = true := by
  obtain ⟨hpath, hdot⟩ := rsplitOnce_eq_some_iff.mp (rsplitOnce_bundledPath command)
  exact RuntimeRegistry.supports_iff.mpr ⟨_, _, hpath, hdot, rhaiRuntime engine, by simp [h], rfl⟩

theorem execute_bundledPath {runtimes : RuntimeRegistry} {engine : Str → Evaluation}
    (h : runtimes = [rhaiRuntime engine]) (command source : Str) (s : AppSession σ) :
    runtimes.execute (bundledPath command) source s =
      ((execute (engine source) ⟨false, s⟩).1, (execute (engine source) ⟨false, s⟩).2.session) := by
  rw [RuntimeRegistry.execute, rsplitOnce_bundledPath, h]
  show AppSession.runScript (Evaluation.script s.args s.cwd (engine source)) s = _
  rw [run_script, execute_eq_run]

/-- A bundled application that comes to the status zero or to an error, run by the engine. The conditions on the
    command are what makes `resolve_command` look for it in `/sys/apps` and nowhere else: lower case letters only,
    so that it has no slash and no dot, and not one of the shell's own. -/
theorem runCommand_bundled {command line source : Str} {args : List Str} {s : Shell σ} {app : AppIdentity}
    {engine : Str → Evaluation} (hcommand : ∀ c ∈ command, c.isLower = true) (hbuiltin : command ∉ builtins)
    (hrun : command ≠ "run".toList) (hline : splitCommandLine line = .ok (command :: args))
    (hfile : s.system.vfs.systemFile (bundledPath command) = some ⟨bundledPath command, asBytes source⟩)
    (hlength : (asBytes source).length ≤ maxSourceLen)
    (happ : parseMetadata (bundledPath command) source true = .ok app)
    (hruntimes : s.runtimes = [rhaiRuntime engine])
    (hcode : ∀ code, (execute (engine source) ⟨false, AppSession.new s.system app (app.id :: args) s.cwd⟩).1 =
      .ok code → code = 0) :
    runCommand line s =
      ((execute (engine source) ⟨false, AppSession.new s.system app (app.id :: args) s.cwd⟩).1.map .next,
        { s with system :=
          (execute (engine source)
            ⟨false, AppSession.new s.system app (app.id :: args) s.cwd⟩).2.session.system }) := by
  -- a slash, a dot, a NUL and a backslash are not in it
  have hnot : ∀ c : Char, c.isLower = false → c ∉ command := by
    intro c hc hmem
    rw [hcommand c hmem] at hc
    cases hc
  have hload : loadApp command args s =
      (.ok ⟨bundledPath command, source, app, app.id :: args⟩, s) :=
    loadApp_bundled args (hnot _ (by decide)) (hnot _ (by decide)) (hnot _ (by decide)) (hnot _ (by decide)) hfile
      (supports_bundledPath hruntimes command) (fromUtf8_asBytes source) hlength happ
  have hstarts : Starts line s ⟨bundledPath command, source, app, app.id :: args⟩ s := by
    refine ⟨command, args, ?_, hload⟩
    rw [appCommand, hline]
    show (if _ then _ else _ : Option (Str × List Str)) = _
    rw [if_neg (by simpa [List.contains_iff_mem] using hbuiltin), if_neg hrun]
  rw [hstarts.runCommand, Op.run_map, startApp]
  simp only [runSession, Op.run_bind]
  rw [execute_bundledPath hruntimes]
  generalize execute (engine source) ⟨false, AppSession.new s.system app (app.id :: args) s.cwd⟩ = out at hcode ⊢
  rcases out with ⟨e | code, h⟩
  · rfl
  · obtain rfl := hcode code rfl
    rfl

/-- The same where the application comes to the status zero, which is then what the command reports. -/
theorem runCommand_bundled_zero {command line source : Str} {args : List Str} {s : Shell σ} {app : AppIdentity}
    {engine : Str → Evaluation}
    (hcommand : command.all Char.isLower = true ∧ command ∉ builtins ∧ command ≠ "run".toList)
    (hline : splitCommandLine line = .ok (command :: args))
    (hfile : s.system.vfs.systemFile (bundledPath command) = some ⟨bundledPath command, asBytes source⟩)
    (hsource : (asBytes source).length ≤ maxSourceLen ∧ parseMetadata (bundledPath command) source true = .ok app)
    (hruntimes : s.runtimes = [rhaiRuntime engine])
    (hzero : (execute (engine source) ⟨false, AppSession.new s.system app (app.id :: args) s.cwd⟩).1 = .ok 0) :
    (runCommand line s).1 = .ok (.next 0) := by
  obtain ⟨hlower, hbuiltin, hrun⟩ := hcommand
  rw [runCommand_bundled (List.all_eq_true.mp hlower) hbuiltin hrun hline hfile hsource.1 hsource.2 hruntimes
    fun code hcode => Except.ok.inj (hcode.symm.trans hzero)]
  exact congrArg (Except.map CommandOutcome.next) hzero

/-- A bundled application whose script ends with the status zero or with an error, run by an engine that may break it
    off. As far as storage calls can tell, the files are left as after so many of the script's own calls; and the
    command reports success only if these were all, and otherwise an error. -/
theorem runCommand_alike {Same : σ → σ → Prop} (hunseen : Unseen Same) {script : Evaluation}
    {engine : Str → Evaluation} {command line source : Str} {args : List Str} {s : Shell σ} {app : AppIdentity}
    (hengine : Bundled.Runs script (engine source)) (hplain : script.All fun b => b.isPlain = true)
    (hcommand : command.all Char.isLower = true ∧ command ∉ builtins ∧ command ≠ "run".toList)
    (hline : splitCommandLine line = .ok (command :: args))
    (hfile : s.system.vfs.systemFile (bundledPath command) = some ⟨bundledPath command, asBytes source⟩)
    (hlength : (asBytes source).length ≤ maxSourceLen)
    (happ : parseMetadata (bundledPath command) source true = .ok app) (htrusted : app.trusted = true)
    (hruntimes : s.runtimes = [rhaiRuntime engine]) {session : AppSession σ}
    (hsession : session = AppSession.new s.system app (app.id :: args) s.cwd)
    (hresults : ∀ n result, (script.after reply n session).1 = .done result →
      result = .ok (.int 0) ∨ ∃ message, result = .error message) :
    ∃ n, Vfs.Alike Same (script.after reply n session).2.system.vfs (runCommand line s).2.system.vfs ∧
      ((runCommand line s).1 = .ok (.next 0) ∧ (script.after reply n session).1 = .done (.ok (.int 0)) ∨
        ∃ message, (runCommand line s).1 = .error (.runtime message)) := by
  have htrusted' : session.app.trusted = true := by rwa [hsession]
  obtain ⟨n, hsame, hend⟩ := run_alike hunseen hengine hplain htrusted'
  -- the status of the whole run, from the one that the calls so far have come to
  have hstatus : (Hosted.exitStatus ((engine source).run reply session).1 = .ok 0 ∧
        (script.after reply n session).1 = .done (.ok (.int 0))) ∨
      ∃ message, Hosted.exitStatus ((engine source).run reply session).1 = .error (.runtime message) := by
    rcases hend with hdone | ⟨message, hmessage⟩
    · rcases hresults n _ hdone with hzero | ⟨message, hmessage⟩
      · exact Or.inl ⟨by rw [hzero]; rfl, hzero ▸ hdone⟩
      · exact Or.inr ⟨message, by rw [hmessage]; rfl⟩
    · exact Or.inr ⟨message, by rw [hmessage]; rfl⟩
  have hrun := runCommand_bundled (List.all_eq_true.mp hcommand.1) hcommand.2.1 hcommand.2.2 hline hfile hlength happ
    hruntimes (by
      intro code hcode
      rw [← hsession, execute_eq_run] at hcode
      rcases hstatus with ⟨hzero, -⟩ | ⟨message, hmessage⟩
      · exact (Except.ok.inj (hzero.symm.trans hcode)).symm
      · cases hmessage.symm.trans hcode)
  rw [← hsession, execute_eq_run] at hrun
  rw [hrun]
  refine ⟨n, hsame.vfs, hstatus.imp ?_ ?_⟩
  · exact fun h => ⟨congrArg (Except.map CommandOutcome.next) h.1, h.2⟩
  · exact fun ⟨message, hmessage⟩ => ⟨message, congrArg (Except.map CommandOutcome.next) hmessage⟩

end Shell

namespace FileCommand

variable {σ : Type} [Platform σ] [Argon2] {Same : σ → σ → Prop}

open Hosted

/-- `rm`, `mkdir` or `touch` on some paths, by an engine that may break it off. As far as storage calls can tell, the
    files are left as if the first `k` of the paths had been gone through, in order and up to the first that fails:
    all of them, without a failure, if the command reports success, and otherwise it reports an error. -/
theorem file_command_stops_anywhere (command : FileCommand) (hunseen : Unseen Same) {uncaught : Error → Str}
    {engine : Str → Evaluation} (hengine : Bundled.Runs (command.evaluation uncaught) (engine command.source))
    {s : Shell σ} {line path : Str} {paths : List Str}
    (hline : splitCommandLine line = .ok (command.name :: path :: paths))
    (hfile : s.system.vfs.systemFile (Shell.bundledPath command.name) =
      some ⟨Shell.bundledPath command.name, asBytes command.source⟩)
    (hruntimes : s.runtimes = [rhaiRuntime engine]) :
    ∃ k ≤ (path :: paths).length,
      let reached := ((path :: paths).take k).forM (fun path => AppSession.guarded s.cwd path command.act)
        s.system.vfs
      Vfs.Alike Same reached.2 (Shell.runCommand line s).2.system.vfs ∧
        ((Shell.runCommand line s).1 = .ok (.next 0) ∧ k = (path :: paths).length ∧ reached.1 = .ok () ∨
          ∃ message, (Shell.runCommand line s).1 = .error (.runtime message)) := by
  have hname : command.name.all Char.isLower = true ∧ command.name ∉ Shell.builtins ∧ command.name ≠ "run".toList := by
    cases command <;> decide
  have hlength : (asBytes command.source).length ≤ maxSourceLen := by cases command <;> decide +kernel
  let session := AppSession.new s.system command.identity (command.identity.id :: path :: paths) s.cwd
  have hmay : session.MayWrite := ⟨rfl, List.mem_singleton.mpr rfl⟩
  have hafter := fun n => command.after_evaluation uncaught n hmay rfl
  obtain ⟨n, hsame, hstatus⟩ := Shell.runCommand_alike hunseen hengine (command.all_evaluation uncaught) hname hline
    hfile hlength command.parseMetadata_source rfl hruntimes rfl (by
      intro n result hdone
      obtain ⟨k, -, -, hresult⟩ := hafter n
      exact (hresult result hdone).imp_left And.left)
  obtain ⟨k, hk, hvfs, hresult⟩ := hafter n
  refine ⟨k, hk, hvfs ▸ hsame, ?_⟩
  rcases hstatus with ⟨hzero, hdone⟩ | hmessage
  · obtain ⟨-, rfl, hall⟩ := (hresult _ hdone).resolve_right (by rintro ⟨message, hmessage⟩; cases hmessage)
    refine Or.inl ⟨hzero, rfl, ?_⟩
    rwa [List.take_length]
  · exact Or.inr hmessage

end FileCommand

section Example

attribute [local instance] lengthArgon2

namespace FileCommand

/-- An engine that polls, and has the message of an error in its own. -/
def mkdirEngine : Str → Evaluation := fun _ => Bundled.polled (Bundled.mkdir Error.display)

/-- A shell with one bundled application, on a machine with one file in `/user`. -/
def mkdirShell : Shell (BareMetalPlatform NoDisk Keyboard) where
  system := System.withVfs ⟨diskless noteTree [], [⟨Shell.bundledPath mkdir.name, asBytes mkdir.source⟩]⟩
  runtimes := [rhaiRuntime mkdirEngine]
  cwd := "/user".toList

/-- The second directory would be below the file. -/
theorem file_command_stops_anywhere_mkdir :
    ∃ k ≤ 2, Vfs.Alike BareMetalPlatform.SameStorage
        ((["docs".toList, "a/b".toList].take k).forM
          (fun path => AppSession.guarded "/user".toList path Vfs.createDirAll) mkdirShell.system.vfs).2
        (Shell.runCommand "mkdir docs a/b".toList mkdirShell).2.system.vfs ∧
      ∃ message, (Shell.runCommand "mkdir docs a/b".toList mkdirShell).1 = .error (.runtime message) := by
  have hline : splitCommandLine "mkdir docs a/b".toList = .ok [mkdir.name, "docs".toList, "a/b".toList] := by decide
  have hengine : Bundled.Runs (mkdir.evaluation Error.display) (mkdirEngine mkdir.source) := Bundled.runs_polled _
  have hfile : mkdirShell.system.vfs.systemFile (Shell.bundledPath mkdir.name) =
      some ⟨Shell.bundledPath mkdir.name, asBytes mkdir.source⟩ := by decide +kernel
  obtain ⟨k, hk, hsame, ⟨-, rfl, hall⟩ | herror⟩ := file_command_stops_anywhere mkdir
    BareMetalPlatform.unseen_sameStorage hengine hline hfile rfl
  · have hfails : ((["docs".toList, "a/b".toList].forM fun path =>
        AppSession.guarded "/user".toList path Vfs.createDirAll) mkdirShell.system.vfs).1.toOption = none := by
      decide +kernel
    rw [List.take_length] at hall
    cases hfails.symm.trans (congrArg Except.toOption hall)
  · exact ⟨k, hk, hsame, herror⟩

end FileCommand

end Example

/-! ## Copying -/

namespace Bundled

variable {σ : Type} [Platform σ] [Argon2] {Same : σ → σ → Prop}

open AppSession Hosted

def cpName : Str := "cp".toList

/-- What the header of the source says. -/
def cpIdentity : AppIdentity where
  id := "afos.cp".toList
  sourcePath := Shell.bundledPath cpName
  trusted := true
  apiVersion := 1
  capabilities := [.fsRead "/".toList, .fsWrite "/".toList]

omit [Argon2] in
theorem parseMetadata_cpSource :
    (asBytes cpSource).length ≤ maxSourceLen ∧
      parseMetadata (Shell.bundledPath cpName) cpSource true = .ok cpIdentity := by decide +kernel

omit [Argon2] in
theorem cpName_command :
    cpName.all Char.isLower = true ∧ cpName ∉ Shell.builtins ∧ cpName ≠ "run".toList := by decide

omit [Argon2] in
theorem all_cp (uncaught : Error → Str) : (cp uncaught).All fun b => b.isPlain = true := by
  refine ⟨rfl, fun answer => ?_⟩
  cases answer with
  | error e => exact trivial
  | ok values =>
    dsimp only
    split
    · refine ⟨rfl, fun answer => ?_⟩
      cases answer with
      | error e => exact trivial
      | ok text =>
        refine ⟨rfl, fun answer => ?_⟩
        cases answer <;> exact trivial
    · refine ⟨rfl, fun answer => ?_⟩
      cases answer <;> exact trivial

/-- After any number of calls: nothing yet, the source read, or the destination written. The calls are the one for
    the arguments, one that reads the source as a whole, and one that writes the destination as a whole; the cases
    are how many of them there have been, and which of them failed. -/
theorem after_cp (uncaught : Error → Str) (n : Nat) {s : AppSession σ} (htrusted : s.app.trusted = true)
    (hread : .fsRead "/".toList ∈ s.app.capabilities) (hwrite : .fsWrite "/".toList ∈ s.app.capabilities)
    {id source destination : Str} (hargs : s.args = [id, source, destination]) :
    let reading := guarded s.cwd source Vfs.readText s.system.vfs
    let writing := fun text => guarded s.cwd destination (Vfs.write · (asBytes text)) reading.2
    let out := (cp uncaught).after reply n s
    ((out.2.system.vfs = s.system.vfs ∨ out.2.system.vfs = reading.2) ∧
        ∀ result, out.1 = .done result → ∃ message, result = .error message) ∨
      ∃ text, reading.1 = .ok text ∧ out.2.system.vfs = (writing text).2 ∧
        ∀ result, out.1 = .done result →
          (result = .ok (.int 0) ∧ (writing text).1 = .ok ()) ∨ ∃ message, result = .error message := by
  intro reading writing out
  rcases n with _ | n
  · exact Or.inl ⟨Or.inl rfl, fun result hresult => (by cases hresult)⟩
  have hout : out = (call uncaught (.fsRead source) fun text =>
      call uncaught (.fsWrite destination text.asText) fun _ => value 0).after reply n s :=
    after_ask_ok (reply_args hargs) n
  rcases n with _ | n
  · rw [hout]
    exact Or.inl ⟨Or.inl rfl, fun result hresult => (by cases hresult)⟩
  have hreading : reply (.registered (.fsRead source)) s =
      (reading.1.map .text, { s with system := { s.system with vfs := reading.2 } }) :=
    reply_onVfs rfl rfl (fun _ => rfl)
      (withPath_trusted htrusted (declares_root_fsRead hread) source Vfs.readText)
  rcases hresult : reading.1 with e | text
  · -- there is nothing to read, and the script ends there
    rw [hresult] at hreading
    rw [call, after_ask_error hreading] at hout
    rw [hout]
    refine Or.inl ⟨Or.inr rfl, fun result hdone => ?_⟩
    cases hdone
    exact ⟨_, rfl⟩
  rw [hresult] at hreading
  rw [call, after_ask_ok hreading] at hout
  rcases n with _ | n
  · rw [hout]
    exact Or.inl ⟨Or.inr rfl, fun result hdone => (by cases hdone)⟩
  have hwriting : reply (.registered (.fsWrite destination (Dynamic.text text).asText))
        { s with system := { s.system with vfs := reading.2 } } =
      ((writing text).1.map fun _ => Dynamic.unit, { s with system := { s.system with vfs := (writing text).2 } }) :=
    reply_onVfs rfl rfl (fun _ => rfl)
      (withPath_trusted (s := { s with system := { s.system with vfs := reading.2 } }) htrusted
        (declares_root_fsWrite hwrite) destination fun path => Vfs.write path (asBytes text))
  refine Or.inr ⟨text, rfl, ?_⟩
  rcases hwritten : (writing text).1 with e | u
  · rw [hwritten] at hwriting
    rw [call, after_ask_error hwriting] at hout
    rw [hout]
    refine ⟨rfl, fun result hdone => Or.inr ?_⟩
    cases hdone
    exact ⟨_, rfl⟩
  · rw [hwritten] at hwriting
    rw [call, after_ask_ok hwriting, value, after_done] at hout
    rw [hout]
    refine ⟨rfl, fun result hdone => Or.inl ?_⟩
    cases hdone
    exact ⟨rfl, rfl⟩

omit [Argon2] in
/-- A text that was read is the file byte for byte: what is not UTF-8 is refused, and the rest is not changed by being
    decoded and encoded again. -/
theorem guarded_readText_ok {cwd path text : Str} {v : Vfs σ}
    (h : (guarded cwd path Vfs.readText v).1 = .ok text) :
    guarded cwd path Vfs.read v = (.ok (asBytes text), (guarded cwd path Vfs.readText v).2) := by
  rcases hrun : guarded cwd path Vfs.readText v with ⟨r, v'⟩
  rw [hrun] at h
  obtain rfl : r = .ok text := h
  obtain ⟨data, v₁, hread, htext⟩ := Op.bind_ok ((guarded_bind cwd path Vfs.read _ v).symm.trans hrun)
  cases hdata : fromUtf8 data with
  | none =>
    rw [hdata] at htext
    cases htext
  | some text' =>
    rw [hdata] at htext
    cases htext
    rw [hread, asBytes_of_fromUtf8 hdata]

/-- `cp` of one path to another, by an engine that may break it off. Either it reports an error and, as far as
    storage calls can tell, the source has been read at most; or all the bytes of the source were there to be
    written to the destination, in one call, and if the command reports success that call has returned it. -/
theorem copy_is_whole_or_not_there (hunseen : Unseen Same) {uncaught : Error → Str} {engine : Str → Evaluation}
    (hengine : Runs (cp uncaught) (engine cpSource)) {s : Shell σ} {line source destination : Str}
    (hline : splitCommandLine line = .ok [cpName, source, destination])
    (hfile : s.system.vfs.systemFile (Shell.bundledPath cpName) =
      some ⟨Shell.bundledPath cpName, asBytes cpSource⟩)
    (hruntimes : s.runtimes = [rhaiRuntime engine]) :
    let out := Shell.runCommand line s
    ((∃ message, out.1 = .error (.runtime message)) ∧
        (Vfs.Alike Same s.system.vfs out.2.system.vfs ∨
          Vfs.Alike Same (guarded s.cwd source Vfs.readText s.system.vfs).2 out.2.system.vfs)) ∨
      ∃ data v, guarded s.cwd source Vfs.read s.system.vfs = (.ok data, v) ∧
        let writing := guarded s.cwd destination (Vfs.write · data) v
        Vfs.Alike Same writing.2 out.2.system.vfs ∧
          (out.1 = .ok (.next 0) ∧ writing.1 = .ok () ∨ ∃ message, out.1 = .error (.runtime message)) := by
  intro out
  obtain ⟨hlength, happ⟩ := parseMetadata_cpSource
  let session := AppSession.new s.system cpIdentity [cpIdentity.id, source, destination] s.cwd
  have hafter := fun n => after_cp uncaught n (show session.app.trusted = true from rfl) List.mem_cons_self
    (List.mem_cons_of_mem _ List.mem_cons_self) rfl
  obtain ⟨n, hsame, hstatus⟩ := Shell.runCommand_alike hunseen hengine (all_cp uncaught) cpName_command hline hfile
    hlength happ rfl hruntimes rfl (by
      intro n result hdone
      rcases hafter n with ⟨-, herror⟩ | ⟨text, -, -, hresult⟩
      · exact Or.inr (herror result hdone)
      · exact (hresult result hdone).imp_left And.left)
  rcases hafter n with ⟨hvfs, herror⟩ | ⟨text, hread, hvfs, hresult⟩
  · refine Or.inl ⟨hstatus.resolve_left ?_, ?_⟩
    · rintro ⟨-, hdone⟩
      obtain ⟨message, hmessage⟩ := herror _ hdone
      cases hmessage
    · rcases hvfs with hvfs | hvfs
      · exact Or.inl (hvfs ▸ hsame)
      · exact Or.inr (hvfs ▸ hsame)
  · refine Or.inr ⟨_, _, guarded_readText_ok hread, hvfs ▸ hsame, hstatus.imp_left ?_⟩
    rintro ⟨hzero, hdone⟩
    obtain ⟨-, hwritten⟩ := (hresult _ hdone).resolve_right (by rintro ⟨message, hmessage⟩; cases hmessage)
    exact ⟨hzero, hwritten⟩

end Bundled

section Example

attribute [local instance] lengthArgon2

namespace Bundled

open AppSession Hosted

def cpEngine : Str → Evaluation := fun _ => polled (cp Error.display)

/-- A shell with one bundled application, on a machine with one file in `/user`. -/
def cpShell : Shell (BareMetalPlatform NoDisk Keyboard) where
  system := System.withVfs ⟨diskless noteTree [], [⟨Shell.bundledPath cpName, asBytes cpSource⟩]⟩
  runtimes := [rhaiRuntime cpEngine]
  cwd := "/user".toList

/-- The file is there, and its bytes are written under the other name. -/
theorem copy_of_note_is_whole :
    ∃ v, guarded "/user".toList "a".toList Vfs.read cpShell.system.vfs = (.ok [104, 105], v) ∧
      Vfs.Alike BareMetalPlatform.SameStorage (guarded "/user".toList "b".toList (Vfs.write · [104, 105]) v).2
        (Shell.runCommand "cp a b".toList cpShell).2.system.vfs ∧
      (Shell.runCommand "cp a b".toList cpShell).1 = .ok (.next 0) ∧
      (guarded "/user".toList "b".toList (Vfs.write · [104, 105]) v).1 = .ok () := by
  have hline : splitCommandLine "cp a b".toList = .ok [cpName, "a".toList, "b".toList] := by decide
  have hengine : Runs (cp Error.display) (cpEngine cpSource) := runs_polled _
  have hbytes : (guarded cpShell.cwd "a".toList Vfs.read cpShell.system.vfs).1 = .ok [104, 105] := by decide +kernel
  have hfile : cpShell.system.vfs.systemFile (Shell.bundledPath cpName) =
      some ⟨Shell.bundledPath cpName, asBytes cpSource⟩ := by decide +kernel
  have hzero : (execute (cpEngine cpSource) ⟨false, AppSession.new cpShell.system cpIdentity
      [cpIdentity.id, "a".toList, "b".toList] cpShell.cwd⟩).1 = .ok 0 := by decide +kernel
  have hstatus : (Shell.runCommand "cp a b".toList cpShell).1 = .ok (.next 0) :=
    Shell.runCommand_bundled_zero cpName_command hline hfile parseMetadata_cpSource rfl hzero
  have hno : ¬ ∃ message, (Shell.runCommand "cp a b".toList cpShell).1 = .error (.runtime message) := by
    rintro ⟨message, hmessage⟩
    cases hstatus.symm.trans hmessage
  rcases copy_is_whole_or_not_there BareMetalPlatform.unseen_sameStorage hengine hline hfile rfl
    with ⟨herror, -⟩ | ⟨data, v, hread, hsame, hend⟩
  · exact absurd herror hno
  · obtain rfl : data = [104, 105] := Except.ok.inj ((congrArg Prod.fst hread).symm.trans hbytes)
    exact ⟨v, hread, hsame, hend.resolve_right hno⟩

end Bundled

end Example

/-! ## Moving -/

namespace Bundled

variable {σ : Type} [Platform σ] [Argon2] {Same : σ → σ → Prop}

open AppSession Hosted

def mvName : Str := "mv".toList

/-- What the header of the source says. -/
def mvIdentity : AppIdentity where
  id := "afos.mv".toList
  sourcePath := Shell.bundledPath mvName
  trusted := true
  apiVersion := 1
  capabilities := [.fsWrite "/".toList]

omit [Argon2] in
theorem parseMetadata_mvSource :
    (asBytes mvSource).length ≤ maxSourceLen ∧
      parseMetadata (Shell.bundledPath mvName) mvSource true = .ok mvIdentity := by decide +kernel

omit [Argon2] in
theorem mvName_command :
    mvName.all Char.isLower = true ∧ mvName ∉ Shell.builtins ∧ mvName ≠ "run".toList := by decide

omit [Argon2] in
theorem all_mv (uncaught : Error → Str) : (mv uncaught).All fun b => b.isPlain = true := by
  refine ⟨rfl, fun answer => ?_⟩
  cases answer with
  | error e => exact trivial
  | ok values =>
    dsimp only
    split
    · refine ⟨rfl, fun answer => ?_⟩
      cases answer <;> exact trivial
    · refine ⟨rfl, fun answer => ?_⟩
      cases answer <;> exact trivial

/-- After any number of calls: nothing yet, or the one rename. The script can be broken off before it or after it, and
    the file system does not know any moment in between. -/
theorem after_mv (uncaught : Error → Str) (n : Nat) {s : AppSession σ} (h : s.MayWrite)
    {id source destination : Str} (hargs : s.args = [id, source, destination]) :
    let moving := guardedRename s.cwd source destination s.system.vfs
    let out := (mv uncaught).after reply n s
    (out.2.system.vfs = s.system.vfs ∧ ∀ result, out.1 ≠ .done result) ∨
      out.2.system.vfs = moving.2 ∧ ∀ result, out.1 = .done result →
        (result = .ok (.int 0) ∧ moving.1 = .ok ()) ∨ ∃ message, result = .error message := by
  intro moving out
  rcases n with _ | n
  · exact Or.inl ⟨rfl, fun result hdone => by cases hdone⟩
  have hout : out = (call uncaught (.fsRename source destination) fun _ => value 0).after reply n s :=
    after_ask_ok (reply_args hargs) n
  rcases n with _ | n
  · rw [hout]
    exact Or.inl ⟨rfl, fun result hdone => by cases hdone⟩
  have hmoving : reply (.registered (.fsRename source destination)) s =
      (moving.1.map fun _ => Dynamic.unit, { s with system := { s.system with vfs := moving.2 } }) :=
    reply_onVfs rfl rfl (fun _ => rfl) (rename_trusted h source destination)
  rcases hmoved : moving.1 with e | u
  · rw [hmoved] at hmoving
    rw [call, after_ask_error hmoving] at hout
    rw [hout]
    refine Or.inr ⟨rfl, fun result hdone => Or.inr ?_⟩
    cases hdone
    exact ⟨_, rfl⟩
  · rw [hmoved] at hmoving
    rw [call, after_ask_ok hmoving, value, after_done] at hout
    rw [hout]
    refine Or.inr ⟨rfl, fun result hdone => Or.inl ?_⟩
    cases hdone
    exact ⟨rfl, rfl⟩

/-- `mv` of one path to another, by an engine that may break it off. Either it reports an error and, as far as storage
    calls can tell, nothing has been done; or one rename has been made, and the command reports success only if the
    rename has returned it. The command is not made of a copy and a removal, so breaking it off leaves no copy. -/
theorem move_is_one_rename_or_nothing (hunseen : Unseen Same) {uncaught : Error → Str} {engine : Str → Evaluation}
    (hengine : Runs (mv uncaught) (engine mvSource)) {s : Shell σ} {line source destination : Str}
    (hline : splitCommandLine line = .ok [mvName, source, destination])
    (hfile : s.system.vfs.systemFile (Shell.bundledPath mvName) =
      some ⟨Shell.bundledPath mvName, asBytes mvSource⟩)
    (hruntimes : s.runtimes = [rhaiRuntime engine]) :
    let out := Shell.runCommand line s
    let moving := guardedRename s.cwd source destination s.system.vfs
    ((∃ message, out.1 = .error (.runtime message)) ∧ Vfs.Alike Same s.system.vfs out.2.system.vfs) ∨
      Vfs.Alike Same moving.2 out.2.system.vfs ∧
        (out.1 = .ok (.next 0) ∧ moving.1 = .ok () ∨ ∃ message, out.1 = .error (.runtime message)) := by
  intro out moving
  obtain ⟨hlength, happ⟩ := parseMetadata_mvSource
  let session := AppSession.new s.system mvIdentity [mvIdentity.id, source, destination] s.cwd
  have hmay : session.MayWrite := ⟨rfl, List.mem_singleton.mpr rfl⟩
  have hafter := fun n => after_mv uncaught n hmay rfl
  obtain ⟨n, hsame, hstatus⟩ := Shell.runCommand_alike hunseen hengine (all_mv uncaught) mvName_command hline hfile
    hlength happ rfl hruntimes rfl (by
      intro n result hdone
      rcases hafter n with ⟨-, hrunning⟩ | ⟨-, hresult⟩
      · exact absurd hdone (hrunning result)
      · exact (hresult result hdone).imp_left And.left)
  rcases hafter n with ⟨hvfs, hrunning⟩ | ⟨hvfs, hresult⟩
  · exact Or.inl ⟨hstatus.resolve_left fun h => hrunning _ h.2, hvfs ▸ hsame⟩
  · refine Or.inr ⟨hvfs ▸ hsame, hstatus.imp_left ?_⟩
    rintro ⟨hzero, hdone⟩
    obtain ⟨-, hmoved⟩ := (hresult _ hdone).resolve_right (by rintro ⟨message, hmessage⟩; cases hmessage)
    exact ⟨hzero, hmoved⟩

end Bundled

section Example

attribute [local instance] lengthArgon2

namespace Bundled

open AppSession Hosted

def mvEngine : Str → Evaluation := fun _ => polled (mv Error.display)

/-- A shell with one bundled application, on a machine with one file in `/user`. -/
def mvShell : Shell (BareMetalPlatform NoDisk Keyboard) where
  system := System.withVfs ⟨diskless noteTree [], [⟨Shell.bundledPath mvName, asBytes mvSource⟩]⟩
  runtimes := [rhaiRuntime mvEngine]
  cwd := "/user".toList

/-- The file is there and the name is free: one rename, and the file is under the other name. -/
theorem move_of_note_is_one_rename :
    let moving := guardedRename "/user".toList "a".toList "b".toList mvShell.system.vfs
    (Shell.runCommand "mv a b".toList mvShell).1 = .ok (.next 0) ∧
      Vfs.Alike BareMetalPlatform.SameStorage moving.2 (Shell.runCommand "mv a b".toList mvShell).2.system.vfs ∧
      moving.1 = .ok () ∧ moving.2.platform.tree.files.keys = ["user/b".toList] := by
  intro moving
  have hline : splitCommandLine "mv a b".toList = .ok [mvName, "a".toList, "b".toList] := by decide
  have hengine : Runs (mv Error.display) (mvEngine mvSource) := runs_polled _
  have hfile : mvShell.system.vfs.systemFile (Shell.bundledPath mvName) =
      some ⟨Shell.bundledPath mvName, asBytes mvSource⟩ := by decide +kernel
  have hzero : (execute (mvEngine mvSource) ⟨false, AppSession.new mvShell.system mvIdentity
      [mvIdentity.id, "a".toList, "b".toList] mvShell.cwd⟩).1 = .ok 0 := by decide +kernel
  have hstatus : (Shell.runCommand "mv a b".toList mvShell).1 = .ok (.next 0) :=
    Shell.runCommand_bundled_zero mvName_command hline hfile parseMetadata_mvSource rfl hzero
  have hno : ¬ ∃ message, (Shell.runCommand "mv a b".toList mvShell).1 = .error (.runtime message) := by
    rintro ⟨message, hmessage⟩
    cases hstatus.symm.trans hmessage
  rcases move_is_one_rename_or_nothing BareMetalPlatform.unseen_sameStorage hengine hline hfile rfl
    with ⟨herror, -⟩ | ⟨hsame, hend⟩
  · exact absurd herror hno
  · exact ⟨hstatus, hsame, (hend.resolve_right hno).2, by decide +kernel⟩

end Bundled

end Example

end Afos
