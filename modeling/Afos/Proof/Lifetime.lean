import Afos.Proof.Connections
import Afos.Proof.Launch
import Afos.Proof.Mounts
import Afos.Lib.Run

/-!
# What applications leave open

Nothing closes the connections of an application when it ends, and nobody can close them
afterwards, since the list of handles is gone with the session. A close that the platform fails
takes the handle off the list all the same. So what is open in the platform after an application
is what was open before it and what the application itself has left open (`Accounted`), and the
two are apart, since a session can only close what it owns.
-/

set_option autoImplicit false

namespace Afos

open Lib

variable {σ : Type}

/-! ## What the platform has open -/

/-- Connections are opened by connecting and closed by closing, if these succeed. A close that fails leaves the
    connection open in the platform. -/
def Event.update (opened : Finset Nat) : Event → Finset Nat
  | .netConnect _ _ (.ok handle) => insert handle opened
  | .netClose handle (.ok _) => opened.erase handle
  | _ => opened

/-- The connections that are open in a platform after these calls to it, as its log has them. -/
def openConnections (events : List Event) : Finset Nat := events.foldl Event.update ∅

/-- The platform never gives out a handle that stands for an open connection. Both platforms count their handles up;
    here it is an assumption on the calls that were made. -/
def FreshHandles (events : List Event) : Prop :=
  ∀ before host port handle after, events = before ++ .netConnect host port (.ok handle) :: after →
    handle ∉ openConnections before

theorem FreshHandles.of_append {events more : List Event} (h : FreshHandles (events ++ more)) :
    FreshHandles events := by
  intro before host port handle after heq
  refine h before host port handle (after ++ more) ?_
  rw [heq, List.append_assoc]
  rfl

theorem openConnections_append_quiet {events ev : List Event} (h : ∀ e ∈ ev, e.Quiet) :
    openConnections (events ++ ev) = openConnections events := by
  -- a connect that fails opens nothing, and everything else that is quiet is not about connections
  have hquiet : ∀ {e : Event} (opened : Finset Nat), e.Quiet → e.update opened = opened := by
    intro e opened he
    cases e with
    | netConnect host port result =>
      cases result with
      | ok handle => exact he.elim
      | error e => rfl
    | netClose handle result => exact he.elim
    | _ => rfl
  rw [openConnections, List.foldl_append]
  have hall : ∀ opened : Finset Nat, ev.foldl Event.update opened = opened := by
    induction ev with
    | nil => exact fun _ => rfl
    | cons e ev ih =>
      intro opened
      rw [List.foldl_cons, hquiet opened (h e List.mem_cons_self)]
      exact ih (fun e' he' => h e' (List.mem_cons_of_mem _ he')) opened
  exact hall _

theorem openConnections_concat (events : List Event) (e : Event) :
    openConnections (events ++ [e]) = e.update (openConnections events) := by
  rw [openConnections, List.foldl_append]
  rfl

/-- `FreshHandles`, checked along the list with what is open before it, so that it can be evaluated on the log of a
    run. -/
def freshFrom (opened : Finset Nat) : List Event → Bool
  | [] => true
  | .netConnect host port (.ok handle) :: events =>
      handle ∉ opened && freshFrom (Event.update opened (.netConnect host port (.ok handle))) events
  | e :: events => freshFrom (e.update opened) events

theorem freshFrom_cons {opened : Finset Nat} {e : Event} {events : List Event} :
    freshFrom opened (e :: events) = true ↔
      (∀ host port handle, e = .netConnect host port (.ok handle) → handle ∉ opened) ∧
        freshFrom (e.update opened) events = true := by
  cases e with
  | netConnect host port result =>
    cases result with
    | error e => simp [freshFrom]
    | ok handle => simp [freshFrom]
  | _ => simp [freshFrom]

/-- The check along the list is the property of all its splits, by induction with the past on the other side. -/
theorem freshFrom_iff (past events : List Event) :
    freshFrom (openConnections past) events = true ↔
      ∀ before host port handle after,
        events = before ++ .netConnect host port (.ok handle) :: after →
          handle ∉ openConnections (past ++ before) := by
  -- by the events, with what came before them as the past; the new event moves over into it
  induction events generalizing past with
  | nil =>
    refine iff_of_true rfl fun before host port handle after heq => ?_
    exact absurd heq.symm (List.append_ne_nil_of_right_ne_nil _ (List.cons_ne_nil _ _))
  | cons e events ih =>
    rw [freshFrom_cons, ← openConnections_concat, ih]
    constructor
    · intro ⟨hfirst, hrest⟩ before host port handle after heq
      cases before with
      | nil =>
        rw [List.append_nil]
        exact hfirst host port handle (List.cons.inj heq).1
      | cons e' before =>
        obtain ⟨rfl, htail⟩ := List.cons.inj heq
        have := hrest before host port handle after htail
        rwa [List.append_assoc] at this
    · intro h
      refine ⟨fun host port handle he => ?_, fun before host port handle after htail => ?_⟩
      · have := h [] host port handle events (congrArg (· :: events) he)
        rwa [List.append_nil] at this
      · rw [List.append_assoc]
        exact h (e :: before) host port handle after (congrArg (e :: ·) htail)

instance (events : List Event) : Decidable (FreshHandles events) :=
  decidable_of_iff (freshFrom ∅ events = true) (freshFrom_iff [] events)

theorem Event.update_of_handle {e : Event} {handle : Nat} {opened : Finset Nat}
    (hon : e.handle? = some handle) (hopen : ∀ result, e ≠ .netClose handle result) :
    e.update opened = opened := by
  cases e with
  | netClose named result =>
    obtain rfl := Option.some.inj hon
    exact absurd rfl (hopen result)
  | netConnect host port result => cases hon
  | _ => rfl

/-- The same for the calls of an application: what it has opened, less what was closed for it. It is read off the
    application's own calls and answers. -/
def Exchange.update (left : Finset Nat) : Exchange → Finset Nat
  | (.netConnect _ _, .ok (.number handle)) => insert handle left
  | (.netClose handle, .ok _) => left.erase handle
  | _ => left

/-- The connections an application has left open, from its calls and their answers alone. The backend is not asked. -/
def leftOpen (past : List Exchange) : Finset Nat := past.foldl Exchange.update ∅

theorem leftOpen_concat (past : List Exchange) (x : Exchange) :
    leftOpen (past ++ [x]) = x.update (leftOpen past) := by
  rw [leftOpen, List.foldl_append]
  rfl

/-- What is open is what was open before the session, and what the session has left open. The list has nothing on it
    that was open before; it may lack what a failed close has left open. -/
structure Accounted (base : Finset Nat) (past : List Exchange) (s : AppSession (Recorded σ)) :
    Prop where
  opened : openConnections (log s) = base ∪ leftOpen past
  apart : Disjoint base (leftOpen past)
  listed : ∀ handle ∈ s.sockets, handle ∈ leftOpen past

/-- An exchange that neither connects nor closes leaves the account as it was, and so does one of the two that has
    failed. -/
theorem Exchange.update_of_ne {left : Finset Nat} {request : ApiCall} {r : Except Error ApiValue}
    (hconnect : ∀ host port handle, ¬ (request = .netConnect host port ∧ r = .ok (.number handle)))
    (hclose : ∀ handle value, ¬ (request = .netClose handle ∧ r = .ok value)) :
    Exchange.update left (request, r) = left := by
  cases request with
  | netConnect host port =>
    cases r with
    | error e => rfl
    | ok value =>
      cases value with
      | number handle => exact absurd ⟨rfl, rfl⟩ (hconnect host port handle)
      | _ => rfl
  | netClose handle =>
    cases r with
    | error e => rfl
    | ok value => exact absurd ⟨rfl, rfl⟩ (hclose handle value)
  | _ => rfl

/-- One call keeps the account, whatever it does to connections. Sixteen of the calls do nothing to them; the other
    two are opened up. -/
theorem Accounted.step {base : Finset Nat} {past : List Exchange} {request : ApiCall}
    {s s' : AppSession (Recorded σ)} {r : Except Error ApiValue} (h : Accounted base past s)
    (hstep : NetStep request s r s') (hfresh : FreshHandles (log s')) :
    Accounted base (past ++ [(request, r)]) s' := by
  -- one case for each of the five things a call can do
  cases hstep with
  | quiet ev hlog hev hsockets hnames hunconnected =>
    have hsame : leftOpen (past ++ [(request, r)]) = leftOpen past := by
      rw [leftOpen_concat]
      refine Exchange.update_of_ne hunconnected fun handle value hclose => ?_
      rw [hclose.1] at hnames
      cases hnames
    refine ⟨?_, hsame ▸ h.apart, fun handle hmem => ?_⟩
    · rw [hlog, openConnections_append_quiet hev, hsame, h.opened]
    · rw [hsame]
      exact h.listed handle (hsockets ▸ hmem)
  | connected host port new ev hcall hresult _ hlog hev hsockets =>
    -- the handle is new, so it is neither one from before nor one of the session's own
    have hnew : new ∉ base ∪ leftOpen past := by
      have hbefore := hfresh (log s ++ ev) host port new [] hlog
      rwa [openConnections_append_quiet hev, h.opened] at hbefore
    have hleft : leftOpen (past ++ [(request, r)]) = insert new (leftOpen past) := by
      rw [leftOpen_concat, hcall, hresult]
      rfl
    rw [Finset.notMem_union] at hnew
    refine ⟨?_, ?_, fun handle hmem => ?_⟩
    · rw [hlog, openConnections_concat, openConnections_append_quiet hev, h.opened, hleft,
        Finset.union_insert]
      rfl
    · rw [hleft, Finset.disjoint_insert_right]
      exact ⟨hnew.1, h.apart⟩
    · rw [hleft, Finset.mem_insert]
      rw [hsockets, List.mem_append, List.mem_singleton] at hmem
      exact hmem.symm.imp id (h.listed handle)
  | used named e hnames hkeeps _ hlog hon hopen hsockets =>
    have hsame : leftOpen (past ++ [(request, r)]) = leftOpen past := by
      rw [leftOpen_concat]
      refine Exchange.update_of_ne (fun host port handle hconnect => ?_)
        fun handle value hclose => ?_
      · rw [hconnect.1] at hnames
        cases hnames
      · rw [hclose.1] at hnames hkeeps
        exact hkeeps (congrArg _ (Option.some.inj hnames))
    refine ⟨?_, hsame ▸ h.apart, fun handle hmem => ?_⟩
    · rw [hlog, openConnections_concat, Event.update_of_handle hon hopen, hsame, h.opened]
    · rw [hsame]
      exact h.listed handle (hsockets ▸ hmem)
  | closed named result hcall howned hanswer hlog hsockets =>
    cases result with
    | error e =>
      -- the platform could not close it: it is open, and off the list
      have hsame : leftOpen (past ++ [(request, r)]) = leftOpen past := by
        rw [leftOpen_concat, hcall, hanswer]
        rfl
      refine ⟨?_, hsame ▸ h.apart, fun handle hmem => ?_⟩
      · rw [hlog, openConnections_concat, hsame, h.opened]
        rfl
      · rw [hsame]
        rw [hsockets] at hmem
        exact h.listed handle (List.mem_filter.mp hmem).1
    | ok =>
      have hleft : leftOpen (past ++ [(request, r)]) = (leftOpen past).erase named := by
        rw [leftOpen_concat, hcall, hanswer]
        rfl
      -- what was open before is not on the list, so it is not the one that is closed
      have hbase : named ∉ base := fun hmem =>
        Finset.disjoint_left.mp h.apart hmem (h.listed named howned)
      refine ⟨?_, ?_, fun handle hmem => ?_⟩
      · rw [hlog, openConnections_concat, hleft, h.opened]
        show (base ∪ leftOpen past).erase named = _
        rw [Finset.erase_union_distrib, Finset.erase_eq_of_notMem hbase]
      · rw [hleft]
        exact h.apart.mono_right (Finset.erase_subset _ _)
      · rw [hsockets, List.mem_filter] at hmem
        rw [hleft, Finset.mem_erase]
        exact ⟨by simpa using hmem.2, h.listed handle hmem.1⟩
  | foreign named hnames hunowned hresult hsame =>
    have hleft : leftOpen (past ++ [(request, r)]) = leftOpen past := by
      rw [leftOpen_concat]
      refine Exchange.update_of_ne (fun host port handle hconnect => ?_)
        fun handle value hclose => ?_
      · cases hresult.symm.trans hconnect.2
      · cases hresult.symm.trans hclose.2
    rw [hsame]
    exact ⟨hleft ▸ h.opened, hleft ▸ h.apart, hleft ▸ h.listed⟩

/-! ## A session from start to end -/

namespace AppSession

variable [Platform σ] [Argon2]

theorem log_prefix_call (request : ApiCall) (s : AppSession (Recorded σ)) :
    log s <+: log (call request s).2 := by
  cases call_netStep (Prod.eta (call request s)).symm with
  | quiet ev hlog => exact ⟨ev, hlog.symm⟩
  | connected host port new ev _ _ _ hlog =>
    exact ⟨ev ++ [_], ((List.append_assoc _ _ _).symm.trans hlog.symm)⟩
  | used named e _ _ _ hlog => exact ⟨[e], hlog.symm⟩
  | closed named result _ _ _ hlog => exact ⟨[_], hlog.symm⟩
  | foreign named _ _ _ hsame => exact ⟨[], by rw [hsame, List.append_nil]⟩

theorem log_prefix_runCalls (requests : List ApiCall) (s : AppSession (Recorded σ)) :
    log s <+: log (runCalls requests s) := by
  induction requests generalizing s with
  | nil => exact List.prefix_refl _
  | cons request requests ih => exact (log_prefix_call request s).trans (ih _)

/-- A sequence of calls keeps the account, by induction with one step for each call. -/
theorem accounted_runCalls {base : Finset Nat} {requests : List ApiCall} {past : List Exchange}
    {s : AppSession (Recorded σ)} (h : Accounted base past s)
    (hfresh : FreshHandles (log (runCalls requests s))) :
    Accounted base (past ++ history requests s) (runCalls requests s) := by
  induction requests generalizing past s with
  | nil =>
    rw [history, List.append_nil]
    exact h
  | cons request requests ih =>
    -- the platform's handles were fresh up to this call if they are so up to the end
    have hnow : FreshHandles (log (call request s).2) := by
      obtain ⟨ev, hev⟩ := log_prefix_runCalls requests (call request s).2
      exact FreshHandles.of_append (hev ▸ hfresh)
    have hrest := ih (h.step (call_netStep (Prod.eta (call request s)).symm) hnow) hfresh
    rw [List.append_assoc] at hrest
    exact hrest

omit [Platform σ] [Argon2] in
theorem accounted_new (y : System (Recorded σ)) (app : AppIdentity) (args : List Str) (cwd : Str) :
    Accounted (openConnections (log y)) [] (new y app args cwd) :=
  ⟨(Finset.union_empty _).symm, Finset.disjoint_empty_right _, fun _ hmem => (by cases hmem)⟩

end AppSession

/-- The calls a script makes in a session, with their answers. Each answer decides how the script goes on, so the list
    depends on the session. -/
def Script.exchanges [Platform σ] [Argon2] : Script → AppSession σ → List Exchange
  | .done _, _ => []
  | .call request next, s =>
      (request, (AppSession.call request s).1) ::
        exchanges (next (AppSession.call request s).1) (AppSession.call request s).2

theorem Script.exchanges_eq [Platform σ] [Argon2] (script : Script) (s : AppSession σ) :
    ∃ requests, (AppSession.runScript script s).2 = AppSession.runCalls requests s ∧
      script.exchanges s = AppSession.history requests s := by
  induction script generalizing s with
  | done status => exact ⟨[], rfl, rfl⟩
  | call request next ih =>
    obtain ⟨requests, hrun, hexchanges⟩ := ih (AppSession.call request s).1 (AppSession.call request s).2
    exact ⟨request :: requests, hrun, congrArg _ hexchanges⟩

/-! ## Applications -/

/-- What a runtime makes of a source in a session, or the error that there is none for it. -/
def RuntimeRegistry.script (runtimes : RuntimeRegistry) (path source : Str) (s : AppSession σ) : Script :=
  match rsplitOnce '.' path with
  | none => .done (.error (.unsupported "application has no extension".toList))
  | some (_, extension) => match runtimes.lookup extension with
    | none => .done (.error (.unsupported ("*.".toList ++ extension ++ " applications".toList)))
    | some runtime => runtime.execute source s.app s.args s.cwd

theorem RuntimeRegistry.execute_eq [Platform σ] [Argon2] (runtimes : RuntimeRegistry) (path source : Str)
    (s : AppSession σ) : runtimes.execute path source s = AppSession.runScript (runtimes.script path source s) s := by
  rw [execute, script]
  cases rsplitOnce '.' path with
  | none => rfl
  | some p =>
    simp only
    cases runtimes.lookup p.2 with
    | none => rfl
    | some runtime => rfl

namespace Shell

variable [Platform σ] [Argon2]

/-- The calls of the application that a command starts, with their answers. A command that starts none has none. -/
def exchanges (s : Shell σ) (command : Str × List Str) : List Exchange :=
  match loadApp command.1 command.2 s with
  | (.error _, _) => []
  | (.ok launch, s) =>
    let session := AppSession.new s.system launch.identity launch.args s.cwd
    (s.runtimes.script launch.path launch.source session).exchanges session

/-- The shell after an application, whatever became of it: not found, failed or ended with a status. -/
def afterApp (s : Shell σ) (command : Str × List Str) : Shell σ :=
  (executeApp command.1 command.2 s).2

/-! ### Starting an application opens nothing -/

instance : HasLog (Shell (Recorded σ)) Event := ⟨fun s => log s.system⟩

omit [Platform σ] [Argon2] in
theorem emits_quiet_onVfs {α : Type} {x : Op Error (Vfs (Recorded σ)) α} {E : Event → Prop}
    (hx : Op.Emits (Vfs.AtMostOne E) x) (hE : ∀ e, E e → e.Quiet) :
    Op.Emits (fun ev => ∀ e ∈ ev, e.Quiet) (onVfs x) :=
  (System.emits_onVfs (Vfs.emits_quiet hx hE)).zoom (fun _ => rfl) fun _ _ => rfl

omit [Argon2] in
/-- Asking whether a path is there has nothing to do with connections. -/
theorem emits_quiet_existsAt (path : Str) : Op.Emits (fun ev => ∀ e ∈ ev, e.Quiet)
    (onVfs (Vfs.existsAt path) : Op Error (Shell (Recorded σ)) Bool) := by
  refine emits_quiet_onVfs (Vfs.emits_existsAt path) fun e he => ?_
  obtain ⟨q, r, -, rfl⟩ := he
  trivial

omit [Argon2] in
theorem emits_quiet_resolveCommand (command : Str) : Op.Emits (fun ev => ∀ e ∈ ev, e.Quiet)
    (resolveCommand command : Op Error (Shell (Recorded σ)) Str) := by
  have hsilent : ∀ {x : Op Error (Shell (Recorded σ)) Str}, x.Silent →
      Op.Emits (fun ev => ∀ e ∈ ev, e.Quiet) x :=
    fun hx => hx.emits fun e he => (by cases he)
  refine Op.Emits.ite ?_ ?_
  · refine Op.Emits.read_bind fun s => Op.Emits.ofExcept_bind (fun e he => (by cases he)) ?_
    intro path _
    refine (emits_quiet_existsAt path).bind fun present => Op.Emits.read_bind fun s => ?_
    refine Op.Emits.ite (hsilent (Op.Silent.pure _)) (Op.Emits.ite ?_ (hsilent (Op.Silent.throw _)))
    refine (emits_quiet_existsAt _).bind fun present => Op.Emits.ite ?_ ?_
    · exact hsilent (Op.Silent.pure _)
    · exact hsilent (Op.Silent.throw _)
  · -- a command without a slash is looked for in one directory after the other
    generalize ["/sys/apps".toList, "/apps".toList] = roots
    induction roots with
    | nil => exact hsilent (Op.Silent.throw _)
    | cons root rest ih =>
      rw [searchRoots_cons]
      refine (emits_quiet_existsAt _).bind fun present => Op.Emits.read_bind fun s => ?_
      exact Op.Emits.ite (hsilent (Op.Silent.pure _)) ih

omit [Argon2] in
theorem emits_quiet_loadApp (command : Str) (args : List Str) :
    Op.Emits (fun ev => ∀ e ∈ ev, e.Quiet)
      (loadApp command args : Op Error (Shell (Recorded σ)) Launch) := by
  refine (emits_quiet_resolveCommand command).bind fun path => Op.Emits.bind ?_ fun source => ?_
  · refine emits_quiet_onVfs (Vfs.emits_readText path) fun e he => ?_
    obtain ⟨q, r, -, rfl⟩ := he
    trivial
  · refine Op.Silent.emits (fun s => ?_) fun e he => (by cases he)
    split
    · rfl
    · cases parseMetadata path source (isTrustedPath path) with
      | error e => rfl
      | ok identity => rfl

/-- After its calls the session's end writes to the console or does nothing. There is no closing of connections
    there. -/
theorem log_runSession (runtimes : RuntimeRegistry) (launch : Launch)
    (s : AppSession (Recorded σ)) :
    ∃ ev, log (runSession runtimes launch s).2 =
      log (AppSession.runScript (runtimes.script launch.path launch.source s) s).2 ++ ev ∧
        ∀ e ∈ ev, e.Quiet := by
  rw [← RuntimeRegistry.execute_eq]
  refine Op.Emits.after (fun code => Op.Emits.ite ?_ ?_) (fun e he => (by cases he)) _ s
  · refine Op.Emits.read_bind fun s => Op.Emits.bind ?_ fun _ => ?_
    · exact AppSession.emits_quiet_onPlatform fun w => ⟨_, rfl, trivial⟩
    · exact (Op.Silent.pure code).emits fun e he => (by cases he)
  · exact (Op.Silent.pure code).emits fun e he => (by cases he)

/-! ### After an application -/

theorem log_prefix_afterApp (s : Shell (Recorded σ)) (command : Str × List Str) :
    log s <+: log (s.afterApp command) := by
  obtain ⟨ev, hlog, -⟩ := emits_quiet_loadApp command.1 command.2 s
  have hload : log s <+: log (loadApp command.1 command.2 s).2 := ⟨ev, hlog.symm⟩
  rw [afterApp, executeApp, Op.run_bind]
  cases hrun : loadApp command.1 command.2 s with
  | mk r s₁ =>
  rw [hrun] at hload
  cases r with
  | error e => exact hload
  | ok launch =>
    -- the log grows when the application is loaded, by its calls, and when its session ends
    set session := AppSession.new s₁.system launch.identity launch.args s₁.cwd
    obtain ⟨ev', hlog', -⟩ := log_runSession s₁.runtimes launch session
    obtain ⟨requests, hcalls, -⟩ :=
      (s₁.runtimes.script launch.path launch.source session).exchanges_eq session
    rw [hcalls] at hlog'
    have hcalled : log s₁ <+: log (AppSession.runCalls requests session) :=
      AppSession.log_prefix_runCalls requests session
    exact hload.trans (hcalled.trans ⟨ev', hlog'.symm⟩)

/-- What is open after an application is what was open before it, and, apart from that, what the
    application has left open. -/
theorem openConnections_afterApp (s : Shell (Recorded σ)) (command : Str × List Str)
    (hfresh : FreshHandles (log (s.afterApp command))) :
    openConnections (log (s.afterApp command)) =
        openConnections (log s) ∪ leftOpen (s.exchanges command) ∧
      Disjoint (openConnections (log s)) (leftOpen (s.exchanges command)) := by
  obtain ⟨ev, hlog, hquiet⟩ := emits_quiet_loadApp command.1 command.2 s
  rw [afterApp, executeApp, Op.run_bind] at hfresh ⊢
  rw [exchanges]
  cases hrun : loadApp command.1 command.2 s with
  | mk r s₁ =>
  rw [hrun] at hlog hfresh
  have hsame : openConnections (log s₁) = openConnections (log s) := by
    rw [show log s₁ = _ from hlog, openConnections_append_quiet hquiet]
  cases r with
  | error e => exact ⟨hsame.trans (Finset.union_empty _).symm, Finset.disjoint_empty_right _⟩
  | ok launch =>
    -- the session begins with what is open once the application is loaded, and that is what was open before
    simp only at hfresh ⊢
    set session := AppSession.new s₁.system launch.identity launch.args s₁.cwd
    obtain ⟨ev', hlog', hquiet'⟩ := log_runSession s₁.runtimes launch session
    obtain ⟨requests, hcalls, hexchanges⟩ :=
      (s₁.runtimes.script launch.path launch.source session).exchanges_eq session
    rw [hcalls] at hlog'
    have hend : log (startApp launch s₁).2 = log (AppSession.runCalls requests session) ++ ev' :=
      hlog'
    rw [hend] at hfresh ⊢
    have haccount := AppSession.accounted_runCalls (AppSession.accounted_new s₁.system
      launch.identity launch.args s₁.cwd) hfresh.of_append
    rw [List.nil_append] at haccount
    rw [openConnections_append_quiet hquiet', hexchanges, ← hsame]
    exact ⟨haccount.opened, haccount.apart⟩

/-- The application leaves the set of open connections as it was. It may have opened some, as long as it has closed
    them. -/
def Restores (s : Shell (Recorded σ)) (command : Str × List Str) : Prop :=
  openConnections (log (s.afterApp command)) = openConnections (log s)

/-- Every connection the application's session opens, it closes again, and the platform answers that it is closed. It
    is decided by the calls and answers of the application alone. -/
def ClosesItsOwn (s : Shell σ) (command : Str × List Str) : Prop :=
  leftOpen (s.exchanges command) = ∅

instance (s : Shell σ) (command : Str × List Str) : Decidable (s.ClosesItsOwn command) :=
  inferInstanceAs (Decidable (_ = _))

/-- An application leaves the platform's connections as they were exactly if it closes its own. -/
theorem restores_iff_closesItsOwn (s : Shell (Recorded σ)) (command : Str × List Str)
    (hfresh : FreshHandles (log (s.afterApp command))) :
    s.Restores command ↔ s.ClosesItsOwn command := by
  obtain ⟨hopen, hapart⟩ := openConnections_afterApp s command hfresh
  rw [Restores, hopen, Finset.union_eq_left]
  constructor
  · intro hsub
    exact Finset.subset_empty.mp fun handle hmem =>
      absurd hmem (Finset.disjoint_left.mp hapart (hsub hmem))
  · intro hempty
    rw [show leftOpen _ = ∅ from hempty]
    exact Finset.empty_subset _

theorem log_prefix_run (s : Shell (Recorded σ)) (commands : List (Str × List Str)) :
    log s <+: log (runFrom afterApp s commands) := by
  induction commands generalizing s with
  | nil => exact List.prefix_refl _
  | cons command commands ih => exact (log_prefix_afterApp s command).trans (ih _)

/-- No application of a run leaves a connection behind exactly if each of them closes what it has
    opened. -/
theorem connections_restored_iff (s : Shell (Recorded σ)) (commands : List (Str × List Str))
    (hfresh : FreshHandles (log (runFrom afterApp s commands))) :
    Along afterApp Restores s commands ↔ Along afterApp ClosesItsOwn s commands := by
  induction commands generalizing s with
  | nil => exact Iff.rfl
  | cons command commands ih =>
    refine and_congr ?_ (ih _ hfresh)
    obtain ⟨rest, hrest⟩ := log_prefix_run (s.afterApp command) commands
    exact restores_iff_closesItsOwn s command (FreshHandles.of_append (hrest.symm ▸ hfresh))

end Shell

/-! ## Two applications -/

section Runs

attribute [local instance] lengthArgon2

/-- A bundled application that may connect to `a`. -/
def caller : EmbeddedFile :=
  ⟨"/sys/apps/call.rhai".toList, asBytes "// afos:capabilities=net:a".toList⟩

/-- A shell with this application, which runs as the script says. -/
def callerShell (script : Script) : Shell (Recorded Switchboard) where
  system := System.withVfs ⟨⟨⟨0⟩, []⟩, [caller]⟩
  runtimes := [⟨"rhai".toList, fun _ _ _ _ => script⟩]
  cwd := "/user".toList

def connectScript : Script := .call (.netConnect "a".toList 80) fun _ => .done (.ok 0)

def connectCloseScript : Script :=
  .call (.netConnect "a".toList 80) fun _ => .call (.netClose 0) fun _ => .done (.ok 0)

/-- The application connects and ends: the connection stays open, and there is no session left whose list has it. -/
theorem connection_outlives_application :
    FreshHandles (log ((callerShell connectScript).afterApp ("call".toList, []))) ∧
      (Shell.executeApp "call".toList [] (callerShell connectScript)).1 = .ok 0 ∧
      openConnections (log (callerShell connectScript)) = ∅ ∧
      openConnections (log ((callerShell connectScript).afterApp ("call".toList, []))) = {0} := by
  refine ⟨?_, ?_, rfl, ?_⟩
  · decide +kernel
  · decide +kernel
  · decide +kernel

theorem connections_restored_after_close :
    Along Shell.afterApp Shell.Restores (callerShell connectCloseScript) [("call".toList, [])] :=
  (Shell.connections_restored_iff _ _ (by decide +kernel)).mpr ⟨by decide +kernel, trivial⟩

end Runs

end Afos
