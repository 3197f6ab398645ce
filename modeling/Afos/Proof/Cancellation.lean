import Afos.Bundled
import Afos.Lib.Sim
import Afos.Proof.Durability
import Afos.Proof.Runtime

/-!
# Breaking off a script

The engine looks for a cancellation between any two of its operations, and it may reach a limit anywhere. What is
left then is what the beginning of the script has done (`cancelled_script_is_beginning`): a look for a cancellation
reads the console, on a machine without an operating system it even takes a byte from it, but nothing that a trusted
script does to files depends on the console.
-/

set_option autoImplicit false

namespace Afos

open Lib

/-! ## Polls that nobody sees -/

/-- States of a backend that differ in nothing that storage calls can tell. Looking for a cancellation and writing to
    the console stay within it: this is what has to be shown of a platform. -/
structure Unseen {σ : Type} [Platform σ] (Same : σ → σ → Prop) : Prop where
  refl : ∀ p, Same p p
  poll : ∀ p q, Same p q → Same p (Platform.pollCancel q).2
  consoleWrite : ∀ text, Op.Sim Same (Platform.consoleWrite text) (Platform.consoleWrite text)
  storageRead : ∀ path, Op.Sim Same (Platform.storageRead path) (Platform.storageRead path)
  storageWrite : ∀ path data, Op.Sim Same (Platform.storageWrite path data) (Platform.storageWrite path data)
  storageList : ∀ path, Op.Sim Same (Platform.storageList path) (Platform.storageList path)
  storageCreateDirAll : ∀ path, Op.Sim Same (Platform.storageCreateDirAll path) (Platform.storageCreateDirAll path)
  storageRemove : ∀ path, Op.Sim Same (Platform.storageRemove path) (Platform.storageRemove path)
  storageRename : ∀ source target,
    Op.Sim Same (Platform.storageRename source target) (Platform.storageRename source target)

namespace BareMetalPlatform

variable {D η α : Type}

/-- The same files in memory, and the same store. What the console still has to read, and the clock, may differ. -/
def SameStorage (p q : BareMetalPlatform D η) : Prop := p.tree = q.tree ∧ p.persistence = q.persistence

theorem sameStorage_onTree (x : Op Error FileTree α) : Op.Sim (SameStorage (D := D) (η := η)) (onTree x) (onTree x) := by
  rintro ⟨tree, persistence, _, _, _⟩ ⟨_, _, _, _, _⟩ ⟨rfl, rfl⟩
  exact ⟨rfl, rfl, rfl⟩

theorem sameStorage_askHardware {f : η → α × η} (h : ∀ u v, (f u).1 = (f v).1) :
    Op.Sim (SameStorage (D := D)) (Op.ofState (askHardware f) : Op Error _ α) (Op.ofState (askHardware f)) :=
  fun _ _ hpq => ⟨congrArg Except.ok (h _ _), hpq⟩

variable [BlockDevice D]

theorem sameStorage_commit (previous : FileTree) :
    Op.Sim (SameStorage (D := D) (η := η)) (commit previous) (commit previous) := by
  rintro ⟨tree, persistence, _, _, _⟩ ⟨_, _, _, _, _⟩ ⟨rfl, rfl⟩
  cases persistence with
  | none => exact ⟨rfl, rfl, rfl⟩
  | some store =>
    simp only [commit, persist]
    rcases SnapshotStore.save tree store with ⟨e | u, store'⟩ <;> exact ⟨rfl, rfl, rfl⟩

theorem sameStorage_run (op : StorageOp) : Op.Sim (SameStorage (D := D) (η := η)) op.run op.run := by
  intro p q hpq
  cases hidle : op.isIdle with
  | true =>
    rw [StorageOp.run_idle hidle, StorageOp.run_idle hidle]
    exact ⟨rfl, hpq⟩
  | false =>
    rw [StorageOp.run_eq_plan hidle, StorageOp.run_eq_plan hidle, hpq.1]
    exact (sameStorage_onTree op.plan).bind (fun _ => sameStorage_commit q.tree) p q hpq

/-- On bare metal a poll takes a byte from the console, and that is not part of storage. -/
theorem unseen_sameStorage [Hardware η] : Unseen (SameStorage (D := D) (η := η)) where
  refl _ := ⟨rfl, rfl⟩
  poll _ _ hpq := hpq
  consoleWrite text := sameStorage_askHardware fun _ _ => rfl
  storageRead path := by
    intro p q hpq
    show (storageRead path p).1 = (storageRead path q).1 ∧ SameStorage (storageRead path p).2 (storageRead path q).2
    -- what is read is the tree in memory, and that is the same on both sides
    simp only [storageRead, hpq.1]
    split
    · exact ⟨rfl, hpq⟩
    · split <;> exact ⟨rfl, hpq⟩
  storageList path := by
    intro p q hpq
    show (storageList path p).1 = (storageList path q).1 ∧ SameStorage (storageList path p).2 (storageList path q).2
    simp only [storageList, hpq.1]
    split
    · split <;> exact ⟨rfl, hpq⟩
    · exact ⟨rfl, hpq⟩
  storageWrite path data := sameStorage_run (.write path data)
  storageCreateDirAll path := sameStorage_run (.createDirAll path)
  storageRemove path := sameStorage_run (.remove path)
  storageRename source target := sameStorage_run (.rename source target)

end BareMetalPlatform

namespace Vfs

variable {σ α : Type} {Same : σ → σ → Prop}

/-- The same table, over such backends. -/
def Alike (Same : σ → σ → Prop) (v w : Vfs σ) : Prop := v.systemFiles = w.systemFiles ∧ Same v.platform w.platform

theorem alike_onPlatform {x : Op Error σ α} (h : Op.Sim Same x x) : Op.Sim (Alike Same) (onPlatform x) (onPlatform x) :=
  h.zoom (fun _ _ hv => hv.2) fun _ _ _ _ hv hp => ⟨hv.1, hp⟩

theorem alike_ofExcept (r : Except Error α) :
    Op.Sim (Alike Same) (Op.ofExcept r : Op Error (Vfs σ) α) (Op.ofExcept r) := by
  cases r with
  | ok a => exact Op.Sim.pure a
  | error e => exact Op.Sim.throw e

theorem alike_read_table {f : Vfs σ → Op Error (Vfs σ) α}
    (h : ∀ v w, v.systemFiles = w.systemFiles → f v = f w) (hf : ∀ v, Op.Sim (Alike Same) (f v) (f v)) :
    Op.Sim (Alike Same) (Op.read >>= f) (Op.read >>= f) :=
  Op.Sim.read_bind fun v w hvw => h v w hvw.1 ▸ hf v

variable [Platform σ] (hunseen : Unseen Same)
include hunseen

theorem alike_readText (path : Str) : Op.Sim (Alike Same) (readText path) (readText path) := by
  refine Op.Sim.bind (Op.Sim.bind (alike_ofExcept _) fun p => ?_) fun data => ?_
  · split
    · refine alike_read_table (fun v w h => ?_) fun v => ?_
      · simp only [systemFile, h]
      · cases v.systemFile p with
        | none => exact Op.Sim.throw _
        | some file => exact Op.Sim.pure _
    · exact Op.Sim.bind (alike_ofExcept _) fun q => alike_onPlatform (hunseen.storageRead q)
  · cases fromUtf8 data with
    | none => exact Op.Sim.throw _
    | some text => exact Op.Sim.pure _

theorem alike_write (path : Str) (data : Bytes) : Op.Sim (Alike Same) (write path data) (write path data) := by
  refine Op.Sim.bind (alike_ofExcept _) fun p => ?_
  split
  · exact Op.Sim.throw _
  · exact Op.Sim.bind (alike_ofExcept _) fun q => alike_onPlatform (hunseen.storageWrite q data)

theorem alike_list (path : Str) : Op.Sim (Alike Same) (list path) (list path) := by
  refine Op.Sim.bind (alike_ofExcept _) fun p => ?_
  split
  · exact Op.Sim.pure _
  · split
    · refine alike_read_table (fun v w h => ?_) fun v => alike_ofExcept _
      rw [listSystem, listSystem, systemDirExists, systemDirExists, h]
    · exact Op.Sim.bind (alike_ofExcept _) fun q => alike_onPlatform (hunseen.storageList q)

theorem alike_createDirAll (path : Str) : Op.Sim (Alike Same) (createDirAll path) (createDirAll path) := by
  refine Op.Sim.bind (alike_ofExcept _) fun p => ?_
  split
  · exact Op.Sim.throw _
  · exact Op.Sim.bind (alike_ofExcept _) fun q => alike_onPlatform (hunseen.storageCreateDirAll q)

theorem alike_remove (path : Str) : Op.Sim (Alike Same) (remove path) (remove path) := by
  refine Op.Sim.bind (alike_ofExcept _) fun p => ?_
  split
  · exact Op.Sim.throw _
  · split
    · exact Op.Sim.throw _
    · exact Op.Sim.bind (alike_ofExcept _) fun q => alike_onPlatform (hunseen.storageRemove q)

theorem alike_rename (source target : Str) : Op.Sim (Alike Same) (rename source target) (rename source target) := by
  refine Op.Sim.bind (alike_ofExcept _) fun p => Op.Sim.bind (alike_ofExcept _) fun q => ?_
  split
  · exact Op.Sim.throw _
  · exact Op.Sim.bind (alike_ofExcept _) fun p' => Op.Sim.bind (alike_ofExcept _) fun q' =>
      alike_onPlatform (hunseen.storageRename p' q')

end Vfs

namespace AppSession

variable {σ α : Type} {Same : σ → σ → Prop}

/-- Two moments of a trusted session that storage calls cannot tell apart. That it is trusted matters, as another
    application's calls ask the user, and the answer comes from the console. -/
structure Alike (Same : σ → σ → Prop) (s t : AppSession σ) : Prop where
  trusted : s.app.trusted = true
  app : s.app = t.app
  args : s.args = t.args
  cwd : s.cwd = t.cwd
  appdataRoot : s.appdataRoot = t.appdataRoot
  sockets : s.sockets = t.sockets
  security : s.system.security = t.system.security
  vfs : Vfs.Alike Same s.system.vfs t.system.vfs

theorem alike_onVfs {x : Op Error (Vfs σ) α} (h : Op.Sim (Vfs.Alike Same) x x) :
    Op.Sim (Alike Same) (onVfs x) (onVfs x) := by
  intro s t hst
  obtain ⟨hresult, hvfs⟩ := h _ _ hst.vfs
  exact ⟨hresult, hst.trusted, hst.app, hst.args, hst.cwd, hst.appdataRoot, hst.sockets, hst.security, hvfs⟩

theorem alike_onPlatform {x : Op Error σ α} (h : Op.Sim Same x x) :
    Op.Sim (Alike Same) (onPlatform x) (onPlatform x) :=
  alike_onVfs (Vfs.alike_onPlatform h)

theorem alike_ofExcept (r : Except Error α) :
    Op.Sim (Alike Same) (Op.ofExcept r : Op Error (AppSession σ) α) (Op.ofExcept r) := by
  cases r with
  | ok a => exact Op.Sim.pure a
  | error e => exact Op.Sim.throw e

theorem alike_resolve (path : Str) : Op.Sim (Alike Same) (resolve path) (resolve path) := by
  refine Op.Sim.read_bind fun s t hst => ?_
  rw [hst.cwd]
  exact alike_ofExcept _

theorem alike_resolveAppdata (path : Str) : Op.Sim (Alike Same) (resolveAppdata path) (resolveAppdata path) := by
  refine Op.Sim.read_bind fun s t hst => ?_
  rw [hst.appdataRoot]
  refine Op.Sim.bind (alike_ofExcept _) fun p => ?_
  split
  · exact Op.Sim.throw _
  · exact Op.Sim.pure _

variable [Platform σ] [Argon2]

/-- A trusted application is not asked about, so that what the console has to say plays no part. -/
theorem alike_authorize (capability : Capability) (resource : Str) :
    Op.Sim (Alike Same) (authorize capability resource) (authorize capability resource) := by
  refine Op.Sim.read_bind fun s t hst => ?_
  have htrusted : t.app.trusted = true := hst.app ▸ hst.trusted
  rw [hst.app, System.authorize]
  split
  · intro u v huv
    exact ⟨rfl, huv⟩
  · split
    · intro u v huv
      exact ⟨rfl, huv⟩
    · intro u v huv
      exact ⟨rfl, huv⟩

theorem alike_withPath (capability : Str → Capability) (path : Str) {act : Str → Op Error (Vfs σ) α}
    (h : ∀ p, Op.Sim (Vfs.Alike Same) (act p) (act p)) :
    Op.Sim (Alike Same) (withPath capability path act) (withPath capability path act) :=
  Op.Sim.bind (alike_resolve path) fun p => Op.Sim.bind (alike_authorize _ _) fun _ => alike_onVfs (h p)

end AppSession

/-- The functions that have to do with nothing but the files and the output. Those that read a line, the clock or the
    network depend on what a poll may change. -/
def Registered.isPlain : Registered → Bool
  | .printRaw _ | .fsRead _ | .fsWrite _ _ | .fsList _ | .fsMkdir _ | .fsRemove _ | .fsRename _ _
  | .appdataRead _ | .appdataWrite _ _ => true
  | _ => false

def Binding.isPlain : Binding → Bool
  | .onProgress => false
  | .registered function => function.isPlain
  | _ => true

namespace Hosted

open AppSession

variable {σ : Type} [Platform σ] [Argon2] {Same : σ → σ → Prop}

/-- A call of a plain function does the same from two such moments, and leaves two such moments. -/
theorem alike_call (hunseen : Unseen Same) {function : Registered} (hplain : function.isPlain = true)
    {request : ApiCall} (hrequest : function.request = .ok request) :
    Op.Sim (AppSession.Alike Same) (call request) (call request) := by
  -- the nine functions, each by what its call does to the session
  cases function with
  | printRaw text =>
    cases hrequest
    exact (AppSession.alike_onPlatform (hunseen.consoleWrite text)).map _
  | fsRead path =>
    cases hrequest
    exact (alike_withPath _ _ fun p => Vfs.alike_readText hunseen p).map _
  | fsWrite path text =>
    cases hrequest
    exact (alike_withPath _ _ fun p => Vfs.alike_write hunseen p _).map _
  | fsList path =>
    cases hrequest
    exact (alike_withPath _ _ fun p => Vfs.alike_list hunseen p).map _
  | fsMkdir path =>
    cases hrequest
    exact (alike_withPath _ _ fun p => Vfs.alike_createDirAll hunseen p).map _
  | fsRemove path =>
    cases hrequest
    exact (alike_withPath _ _ fun p => Vfs.alike_remove hunseen p).map _
  | fsRename source target =>
    cases hrequest
    refine Op.Sim.map (Op.Sim.bind (alike_resolve source) fun p => Op.Sim.bind (alike_resolve target) fun q => ?_) _
    refine Op.Sim.bind (alike_authorize _ _) fun _ => Op.Sim.bind (alike_authorize _ _) fun _ => ?_
    exact alike_onVfs (Vfs.alike_rename hunseen p q)
  | appdataRead path =>
    cases hrequest
    exact (Op.Sim.bind (alike_resolveAppdata path) fun p => alike_onVfs (Vfs.alike_readText hunseen p)).map _
  | appdataWrite path text =>
    cases hrequest
    refine Op.Sim.map (Op.Sim.bind (alike_resolveAppdata path) fun p => Op.Sim.read_bind fun s t hst => ?_) _
    rw [hst.appdataRoot]
    exact Op.Sim.bind (alike_onVfs (Vfs.alike_createDirAll hunseen _)) fun _ =>
      alike_onVfs (Vfs.alike_write hunseen p _)
  | readLine | monotonicMillis | systemInfo | netStatus | netConnect | netSend | netRecv | netClose => cases hplain

theorem reply_registered (function : Registered) :
    (reply (.registered function) : Op Error (AppSession σ) Dynamic) =
      (Op.ofExcept function.request >>= fun request => call request >>= fun value =>
        Op.ofExcept (function.answer value)) := by
  funext s
  simp only [reply, callback, Op.run_bind, Op.run_ofExcept]
  cases function.request with
  | error e => rfl
  | ok request =>
    simp only [withApi, if_true]
    rcases call request s with ⟨e | value, s'⟩ <;> rfl

/-- What a callback of the plain kind answers does not depend on what nobody sees. -/
theorem alike_reply (hunseen : Unseen Same) {b : Binding} (hplain : b.isPlain = true) :
    Op.Sim (AppSession.Alike Same) (reply b) (reply b) := by
  have hwrite := fun text => AppSession.alike_onPlatform (hunseen.consoleWrite text)
  -- output is the platform's, arguments and directory are the session's, and the rest are calls
  cases b with
  | onPrint text =>
    intro s t hst
    exact ⟨rfl, ((hwrite text).bind (fun _ => hwrite "\n".toList) s t hst).2⟩
  | onDebug text source position =>
    intro s t hst
    exact ⟨rfl, (hwrite (debugLine text source position) s t hst).2⟩
  | onProgress => cases hplain
  | args =>
    intro s t hst
    refine ⟨?_, hst⟩
    show (Except.ok (Dynamic.array (s.args.map .text)) : Except Error Dynamic) = .ok (.array (t.args.map .text))
    rw [hst.args]
  | cwd =>
    intro s t hst
    refine ⟨?_, hst⟩
    show (Except.ok (Dynamic.text s.cwd) : Except Error Dynamic) = .ok (.text t.cwd)
    rw [hst.cwd]
  | registered function =>
    rw [reply_registered]
    cases hrequest : function.request with
    | error e => exact Op.Sim.throw e
    | ok request =>
      have hcall := alike_call hunseen hplain hrequest
      exact (hcall.bind fun value => AppSession.alike_ofExcept (function.answer value) :)

omit [Argon2] in
theorem alike_refl (hunseen : Unseen Same) {s : AppSession σ} (htrusted : s.app.trusted = true) :
    AppSession.Alike Same s s :=
  ⟨htrusted, rfl, rfl, rfl, rfl, rfl, rfl, rfl, hunseen.refl _⟩

/-- A look for a cancellation leaves the session at such a moment. -/
theorem alike_onProgress (hunseen : Unseen Same) {s t : AppSession σ} (hst : AppSession.Alike Same s t) :
    AppSession.Alike Same s (reply .onProgress t).2 := by
  have hreply : (reply .onProgress t).2 = (AppSession.cancelled t).2 := by
    simp only [reply, callback, withApi, if_true]
    rcases AppSession.cancelled t with ⟨e | _ | _, t'⟩ <;> rfl
  rw [hreply]
  exact ⟨hst.trusted, hst.app, hst.args, hst.cwd, hst.appdataRoot, hst.sockets, hst.security, hst.vfs.1,
    hunseen.poll _ _ hst.vfs.2⟩

/-- The evaluation that is run differs from the script by polls and by being broken off; the script's own calls are
    those of its beginning. -/
theorem run_alike (hunseen : Unseen Same) {evaluation evaluation' : Evaluation}
    (hruns : Bundled.Runs evaluation evaluation') (hplain : evaluation.All fun b => b.isPlain = true)
    {s : AppSession σ} (htrusted : s.app.trusted = true) :
    ∃ n, AppSession.Alike Same (evaluation.after reply n s).2 (evaluation'.run reply s).2 ∧
      ((evaluation.after reply n s).1 = .done (evaluation'.run reply s).1 ∨
        ∃ message, (evaluation'.run reply s).1 = .error message) :=
  hruns.run (fun _ _ => alike_onProgress hunseen) (fun _ hb => alike_reply hunseen hb) hplain
    (alike_refl hunseen htrusted)

/-- A trusted script that has to do with nothing but files and output, run by an engine that looks for a
    cancellation between any of its operations and may break it off anywhere. In all that storage calls can tell,
    the session is left as after some number of the script's own calls; and the exit status is that of the script,
    if these were all of them, or the run has ended in an error of the engine. -/
theorem cancelled_script_is_beginning (hunseen : Unseen Same) {evaluation evaluation' : Evaluation}
    (hruns : Bundled.Runs evaluation evaluation') (hplain : evaluation.All fun b => b.isPlain = true)
    {s : AppSession σ} (htrusted : s.app.trusted = true) :
    ∃ n, AppSession.Alike Same (evaluation.after reply n s).2 (execute evaluation' ⟨false, s⟩).2.session ∧
      ((∃ result, (evaluation.after reply n s).1 = .done result ∧
          (execute evaluation' ⟨false, s⟩).1 = exitStatus result) ∨
        ∃ message, (execute evaluation' ⟨false, s⟩).1 = .error (.runtime message)) := by
  obtain ⟨n, hsame, hresult⟩ := run_alike hunseen hruns hplain htrusted
  rw [execute_eq_run]
  refine ⟨n, hsame, ?_⟩
  -- the script came to its end, or the engine has ended it with a message of its own
  rcases hresult with hdone | ⟨message, hbroken⟩
  · exact Or.inl ⟨_, hdone, rfl⟩
  · refine Or.inr ⟨message, ?_⟩
    rw [hbroken]
    rfl

end Hosted

theorem Bundled.runs_polled (evaluation : Evaluation) : Runs evaluation (polled evaluation) := by
  induction evaluation with
  | done result => exact .done result
  | ask b next ih =>
    rw [Runs, polled]
    refine .poll (.ask b ih) fun answer hanswer => ⟨.error executionCancelled, ⟨_, rfl⟩, ?_⟩
    -- any answer but the one that lets the script go on ends it
    rcases answer with e | _ | _ | _ | _ | _ | _
    case ok.unit => exact absurd rfl hanswer
    all_goals rfl

section Example

attribute [local instance] lengthArgon2

/-- A script that makes a directory. The engine looks for a cancellation first. -/
def makeDirectory : Evaluation := .ask (.registered (.fsMkdir "/user/docs".toList)) fun _ => .done (.ok .unit)

def makeDirectoryPolled : Evaluation := .ask .onProgress fun
  | .ok .unit => makeDirectory
  | _ => .done (.error executionCancelled)

def mkdirSession : AppSession (BareMetalPlatform NoDisk Keyboard) :=
  AppSession.new (System.new (diskless FileTree.empty []))
    { id := "afos.mkdir".toList, sourcePath := "/sys/apps/mkdir.rhai".toList, trusted := true, apiVersion := 1,
      capabilities := [.fsWrite "/".toList] } [] "/user".toList

theorem cancelled_script_is_beginning_mkdir :
    ∃ n, AppSession.Alike BareMetalPlatform.SameStorage (makeDirectory.after Hosted.reply n mkdirSession).2
      (Hosted.execute makeDirectoryPolled ⟨false, mkdirSession⟩).2.session := by
  have hruns : Bundled.Runs makeDirectory makeDirectoryPolled := by
    refine .poll (Dialogue.Interrupted.refl makeDirectory) fun answer hanswer => ⟨_, ⟨executionCancelled, rfl⟩, ?_⟩
    rcases answer with e | _ | _ | _ | _ | _ | _
    case ok.unit => exact absurd rfl hanswer
    all_goals rfl
  obtain ⟨n, hsame, -⟩ := Hosted.cancelled_script_is_beginning BareMetalPlatform.unseen_sameStorage hruns
    ⟨rfl, fun _ => trivial⟩ (show mkdirSession.app.trusted = true from rfl)
  exact ⟨n, hsame⟩

end Example

end Afos
