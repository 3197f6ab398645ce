import Afos.Proof.Appdata
import Afos.Proof.Sessions

/-!
# Connections

A session keeps a list of the handles it has opened, and passes a handle on to the platform only
if it is in the list. `NetStep` says once what a call can do to the list and which calls to the
platform's connections it can lead to; the rest is read off from it. The list is the handles that
a connect of this session returned and that this session has not asked to close since, so no
handle of another session, and no handle that was made up, is ever passed on.
-/

set_option autoImplicit false

namespace Afos

open Lib

variable {σ : Type}

/-! ## Events and calls -/

/-- The connection a platform call is made on. -/
def Event.handle? : Event → Option Nat
  | .netSend handle _ _ | .netRecv handle _ _ | .netClose handle _ => some handle
  | _ => none

/-- Not about a connection, nor one that opens one. A connect that fails is quiet: the platform has no handle to give
    out for it. -/
def Event.Quiet : Event → Prop
  | .netSend _ _ _ | .netRecv _ _ _ | .netClose _ _ | .netConnect _ _ (.ok _) => False
  | _ => True

theorem Event.Quiet.handle? {e : Event} (h : e.Quiet) : e.handle? = none := by
  cases e with
  | netSend handle data result => exact h.elim
  | netRecv handle max result => exact h.elim
  | netClose handle result => exact h.elim
  | _ => rfl

theorem Event.Authorizing.quiet {e : Event} (h : e.Authorizing) : e.Quiet := by
  cases e with
  | netSend handle data result => exact h
  | netRecv handle max result => exact h
  | netClose handle result => exact h
  | netConnect host port result => exact h.elim
  | _ => trivial

theorem EffectFor.quiet {request : ApiCall} {resources : List Str} {e : Event}
    (h : EffectFor request resources e) (hsockets : request.setsSockets = false) : e.Quiet := by
  cases h with
  | netConnect => cases hsockets
  | _ => trivial

/-- The handle a call names. -/
def ApiCall.handle? : ApiCall → Option Nat
  | .netSend handle _ | .netRecv handle _ | .netClose handle => some handle
  | _ => none

/-- The refusal of a handle that is not in the list. -/
def noConnection (handle : Nat) : Error :=
  .notFound ("network connection ".toList ++ natToStr handle)

/-- What a call does to the session's list of handles and to the platform's connections. A call that names a handle is
    `used` or `closed` if the handle is in the list and `foreign` if not, a connect that succeeds is `connected`, and
    everything else is `quiet`. Closing takes the handle out of the list whatever the platform answers. -/
inductive NetStep (request : ApiCall) (s : AppSession (Recorded σ)) (r : Except Error ApiValue)
    (s' : AppSession (Recorded σ)) : Prop
  | quiet (ev : List Event) (events : log s' = log s ++ ev) (quiet : ∀ e ∈ ev, e.Quiet)
      (sockets : s'.sockets = s.sockets) (names : request.handle? = none)
      (unconnected : ∀ host port handle,
        ¬ (request = .netConnect host port ∧ r = .ok (.number handle)))
  | connected (host : Str) (port : UInt16) (handle : Nat) (ev : List Event)
      (call : request = .netConnect host port) (result : r = .ok (.number handle))
      (declared : declares s.app (.network host) = true)
      (events : log s' = log s ++ ev ++ [.netConnect host port (.ok handle)])
      (quiet : ∀ e ∈ ev, e.Quiet) (sockets : s'.sockets = s.sockets ++ [handle])
  | used (handle : Nat) (e : Event) (names : request.handle? = some handle)
      (keeps : request ≠ .netClose handle) (owned : handle ∈ s.sockets)
      (events : log s' = log s ++ [e]) (on : e.handle? = some handle)
      (open_ : ∀ result, e ≠ .netClose handle result) (sockets : s'.sockets = s.sockets)
  | closed (handle : Nat) (result : Except Error Unit) (call : request = .netClose handle)
      (owned : handle ∈ s.sockets) (answer : r = result.map fun _ => .unit)
      (events : log s' = log s ++ [.netClose handle result])
      (sockets : s'.sockets = s.sockets.filter (fun x => x != handle))
  | foreign (handle : Nat) (names : request.handle? = some handle) (unowned : handle ∉ s.sockets)
      (result : r = .error (noConnection handle)) (same : s' = s)

/-! ## Calls that are not about connections -/

theorem Vfs.emits_quiet {α : Type} {x : Op Error (Vfs (Recorded σ)) α} {E : Event → Prop}
    (hx : Op.Emits (AtMostOne E) x) (hE : ∀ e, E e → e.Quiet) :
    Op.Emits (fun ev => ∀ e ∈ ev, e.Quiet) x := by
  refine hx.mono fun ev hev e he => ?_
  rcases hev with rfl | ⟨e', rfl, he'⟩
  · cases he
  · rw [List.mem_singleton.mp he]
    exact hE e' he'

namespace AppSession

/-- Only connecting and closing change the list, so for all other calls it is enough to look at the events. -/
theorem keeps_sockets_call [Platform σ] [Argon2] {request : ApiCall}
    (h : request.setsSockets = false) :
    Op.Keeps (Op.Same sockets) (call request : Op Error (AppSession σ) ApiValue) := by
  refine keeps_call (fun _ _ => rfl) fun hsets => ?_
  rw [h] at hsets
  cases hsets

theorem silent_resolveAppdata (path : Str) :
    Op.Silent (resolveAppdata path : Op Error (AppSession σ) Str) :=
  fun _ => (resolveAppdata_cases rfl).1

theorem emits_quiet_onVfs {α : Type} {x : Op Error (Vfs (Recorded σ)) α} {E : Event → Prop}
    (hx : Op.Emits (Vfs.AtMostOne E) x) (hE : ∀ e, E e → e.Quiet) :
    Op.Emits (fun ev => ∀ e ∈ ev, e.Quiet) (onVfs x) :=
  emits_onVfs (Vfs.emits_quiet hx hE)

theorem emits_quiet_onPlatform {α : Type} {x : Op Error (Recorded σ) α}
    (hx : ∀ w, ∃ e, (x w).2.log = w.log ++ [e] ∧ e.Quiet) :
    Op.Emits (fun ev => ∀ e ∈ ev, e.Quiet) (onPlatform x) := by
  intro s
  obtain ⟨e, hlog, he⟩ := hx s.system.vfs.platform
  exact ⟨[e], hlog, fun e' he' => (List.mem_singleton.mp he') ▸ he⟩

variable [Platform σ] [Argon2]

theorem quiet_of_mediated {request : ApiCall} {s s' : AppSession (Recorded σ)}
    {r : Except Error ApiValue} (hsockets : request.setsSockets = false)
    (h : Mediated request s r s') : ∃ ev, log s' = log s ++ ev ∧ ∀ e ∈ ev, e.Quiet := by
  cases h with
  | granted ds mid ev demands grants events effects =>
    obtain ⟨-, auth, hauth, hquiet⟩ := grants.declared
    refine ⟨auth ++ ev, ?_, fun e he => ?_⟩
    · rw [events, hauth, List.append_assoc]
      rfl
    · rcases List.mem_append.mp he with he | he
      · exact (hquiet e he).quiet
      · exact (effects e he).quiet hsockets
  | refused e ev result events authorizing trusted =>
    exact ⟨ev, events, fun e he => (authorizing e he).quiet⟩

/-- A call that names no handle and does not connect leaves connections alone. The protected calls are covered by what
    is known of their events in general; the others are gone through one by one. -/
theorem emits_quiet_call {request : ApiCall} (hhandle : request.handle? = none)
    (hsockets : request.setsSockets = false) :
    Op.Emits (fun ev => ∀ e ∈ ev, e.Quiet)
      (call request : Op Error (AppSession (Recorded σ)) ApiValue) := by
  by_cases hprotected : request.isProtected = true
  · intro s
    exact quiet_of_mediated hsockets (call_mediated hprotected rfl)
  cases request with
  | consoleWrite text =>
    refine Op.Emits.map ?_ _
    exact emits_quiet_onPlatform fun w => ⟨_, rfl, trivial⟩
  | consoleReadLine prompt =>
    refine Op.Emits.map ?_ _
    exact emits_quiet_onPlatform fun w => ⟨_, rfl, trivial⟩
  | appdataRead path =>
    refine Op.Emits.map ?_ _
    refine Op.Emits.bind ((silent_resolveAppdata path).emits fun e he => (by cases he)) fun p => ?_
    refine emits_quiet_onVfs (Vfs.emits_readText p) fun e he => ?_
    obtain ⟨q, r, -, rfl⟩ := he
    trivial
  | appdataWrite path text =>
    refine Op.Emits.map ?_ _
    refine Op.Emits.bind ((silent_resolveAppdata path).emits fun e he => (by cases he)) fun p => ?_
    refine Op.Emits.read_bind fun s => Op.Emits.bind ?_ fun _ => ?_
    · refine emits_quiet_onVfs (Vfs.emits_createDirAll _) fun e he => ?_
      obtain ⟨q, r, -, rfl⟩ := he
      trivial
    · refine emits_quiet_onVfs (Vfs.emits_write p _) fun e he => ?_
      obtain ⟨q, r, -, rfl⟩ := he
      trivial
  | netStatus =>
    refine Op.Emits.map (Op.Emits.read_bind fun s => Op.Emits.ite ?_ ?_) _
    · exact (Op.Silent.throw _).emits fun e he => (by cases he)
    · exact emits_quiet_onPlatform fun w => ⟨_, rfl, trivial⟩
  | cancelled =>
    refine Op.Emits.map ?_ _
    exact emits_quiet_onPlatform fun w => ⟨_, rfl, trivial⟩
  | netConnect host port => cases hsockets
  | netSend handle data => cases hhandle
  | netRecv handle max => cases hhandle
  | netClose handle => cases hhandle
  | _ => exact absurd rfl hprotected

/-! ## Calls about connections -/

omit [Platform σ] [Argon2] in
theorem ownedSocket_cases (handle : Nat) (s : AppSession σ) :
    (handle ∈ s.sockets ∧ ownedSocket handle s = (.ok (), s)) ∨
      (handle ∉ s.sockets ∧ ownedSocket handle s = (.error (noConnection handle), s)) := by
  by_cases h : handle ∈ s.sockets
  · refine Or.inl ⟨h, ?_⟩
    rw [ownedSocket, Op.run_bind_ok (Op.run_read s), if_pos (List.contains_iff_mem.mpr h)]
    rfl
  · refine Or.inr ⟨h, ?_⟩
    rw [ownedSocket, Op.run_bind_ok (Op.run_read s),
      if_neg fun hcontains => h (List.contains_iff_mem.mp hcontains)]
    rfl

theorem netStep_send {handle : Nat} {data : Bytes} {s s' : AppSession (Recorded σ)}
    {r : Except Error ApiValue} (h : call (.netSend handle data) s = (r, s')) :
    NetStep (.netSend handle data) s r s' := by
  rcases ownedSocket_cases handle s with ⟨howned, hrun⟩ | ⟨hunowned, hrun⟩
  · have hs' : s' = (onPlatform (Platform.netSend handle data) s).2 := by
      have hsnd := congrArg Prod.snd h
      rw [call, Op.snd_map, netSend, Op.run_bind_ok hrun] at hsnd
      exact hsnd.symm
    rw [hs']
    exact .used handle _ rfl (fun hcall => (by cases hcall)) howned rfl rfl
      (fun _ he => (by cases he)) rfl
  · rw [call, netSend, Op.run_map, Op.run_bind_error hrun] at h
    cases h
    exact .foreign handle rfl hunowned rfl rfl

theorem netStep_recv {handle max : Nat} {s s' : AppSession (Recorded σ)}
    {r : Except Error ApiValue} (h : call (.netRecv handle max) s = (r, s')) :
    NetStep (.netRecv handle max) s r s' := by
  rcases ownedSocket_cases handle s with ⟨howned, hrun⟩ | ⟨hunowned, hrun⟩
  · have hs' : s' = (onPlatform (Platform.netRecv handle max) s).2 := by
      have hsnd := congrArg Prod.snd h
      rw [call, Op.snd_map, netRecv, Op.run_bind_ok hrun,
        Op.snd_bind_silent fun _ => Op.Silent.pure _] at hsnd
      exact hsnd.symm
    rw [hs']
    exact .used handle _ rfl (fun hcall => (by cases hcall)) howned rfl rfl
      (fun _ he => (by cases he)) rfl
  · rw [call, netRecv, Op.run_map, Op.run_bind_error hrun] at h
    cases h
    exact .foreign handle rfl hunowned rfl rfl

theorem netStep_close {handle : Nat} {s s' : AppSession (Recorded σ)}
    {r : Except Error ApiValue} (h : call (.netClose handle) s = (r, s')) :
    NetStep (.netClose handle) s r s' := by
  rcases ownedSocket_cases handle s with ⟨howned, hrun⟩ | ⟨hunowned, hrun⟩
  · have hfst := congrArg Prod.fst h
    have hsnd := congrArg Prod.snd h
    rw [call, Op.fst_map, netClose, Op.run_bind_ok hrun, Op.run_bind_ok (Op.run_modify _ _)] at hfst
    rw [call, Op.snd_map, netClose, Op.run_bind_ok hrun, Op.run_bind_ok (Op.run_modify _ _)] at hsnd
    obtain rfl : _ = s' := hsnd
    exact .closed handle _ rfl howned hfst.symm rfl rfl
  · rw [call, netClose, Op.run_map, Op.run_bind_error hrun] at h
    cases h
    exact .foreign handle rfl hunowned rfl rfl

omit [Platform σ] [Argon2] in
theorem of_onPlatform_call {α : Type} {x : Op Error σ α} {event : Except Error α → Event}
    {s s' : AppSession (Recorded σ)} {r : Except Error α}
    (h : onPlatform (Recorded.call x event) s = (r, s')) :
    log s' = log s ++ [event r] ∧ s'.sockets = s.sockets := by
  cases h
  exact ⟨rfl, rfl⟩

omit [Platform σ] [Argon2] in
/-- A connect that fails, wherever it does: at the empty host, at the authorization or at the platform. -/
theorem netStep_unconnected {host : Str} {port : UInt16} {s s' : AppSession (Recorded σ)}
    {r : Except Error ApiValue} {e : Error} {ev : List Event} (hr : r = .error e)
    (hlog : log s' = log s ++ ev) (hquiet : ∀ e ∈ ev, e.Quiet) (hsockets : s'.sockets = s.sockets) :
    NetStep (.netConnect host port) s r s' := by
  refine .quiet ev hlog hquiet hsockets rfl fun host' port' handle hboth => ?_
  rw [hr] at hboth
  cases hboth.2

/-- Connecting asks for the capability for the host and puts the handle into the list only once the platform has given
    one out. -/
theorem netStep_connect {host : Str} {port : UInt16} {s s' : AppSession (Recorded σ)}
    {r : Except Error ApiValue} (h : call (.netConnect host port) s = (r, s')) :
    NetStep (.netConnect host port) s r s' := by
  rw [call, Op.run_map, netConnect] at h
  by_cases hhost : host = []
  · rw [if_pos hhost] at h
    cases h
    exact netStep_unconnected rfl (List.append_nil _).symm (fun e he => (by cases he)) rfl
  rw [if_neg hhost, Op.run_bind] at h
  cases hauth : authorize (.network host) (netResource host port) s with
  | mk granted s₁ =>
    rw [hauth] at h
    obtain ⟨y, hy, rfl⟩ := authorize_eq hauth
    rcases authorize_cases hy with ⟨rfl, hgranted⟩ | ⟨e, ev, rfl, hlog, hauthorizing, -⟩
    · obtain ⟨ev, ⟨hlog, -⟩, hauthorizing⟩ := log_of_granted hgranted
      simp only [Op.run_bind] at h
      cases hconnect : onPlatform (Platform.netConnect host port) { s with system := y } with
      | mk connected s₂ =>
        obtain ⟨hlog₂, hsockets⟩ := of_onPlatform_call hconnect
        rw [hconnect] at h
        cases connected with
        | error e =>
          cases h
          have hlog' : log s' = log s ++ (ev ++ [.netConnect host port (.error e)]) := by
            rw [← List.append_assoc]
            exact hlog₂.trans (congrArg (· ++ [_]) hlog)
          refine netStep_unconnected rfl hlog' ?_ hsockets
          · intro e' he'
            rcases List.mem_append.mp he' with he' | he'
            · exact (hauthorizing e' he').quiet
            · rw [List.mem_singleton.mp he']
              trivial
        | ok handle =>
          cases h
          refine .connected host port handle ev rfl rfl hgranted.declared ?_
            (fun e he => (hauthorizing e he).quiet) (congrArg (· ++ [handle]) hsockets)
          exact hlog₂.trans (congrArg (· ++ [_]) hlog)
    · cases h
      exact netStep_unconnected rfl hlog (fun e he => (hauthorizing e he).quiet) rfl

/-- The five things a call can do, for every call and every answer of the platform. -/
theorem call_netStep {request : ApiCall} {s s' : AppSession (Recorded σ)}
    {r : Except Error ApiValue} (h : call request s = (r, s')) : NetStep request s r s' := by
  by_cases hhandle : request.handle? = none
  · by_cases hsockets : request.setsSockets = true
    · cases request with
      | netConnect host port => exact netStep_connect h
      | netClose handle => cases hhandle
      | _ => cases hsockets
    · rw [Bool.not_eq_true] at hsockets
      obtain ⟨ev, hlog, hquiet⟩ := (emits_quiet_call hhandle hsockets).of_run h
      refine .quiet ev hlog hquiet ((keeps_sockets_call hsockets).eq h) hhandle ?_
      intro host port handle hboth
      rw [hboth.1] at hsockets
      cases hsockets
  · cases request with
    | netSend handle data => exact netStep_send h
    | netRecv handle max => exact netStep_recv h
    | netClose handle => exact netStep_close h
    | _ => exact absurd rfl hhandle

end AppSession

/-! ## Handles belong to sessions -/

/-- A call and its answer. -/
abbrev Exchange := ApiCall × Except Error ApiValue

/-- A connect to a declared host has returned the handle, and the session has not asked to close it since. It is said
    of the exchanges of the session alone, without the list that the session keeps: what the application can see. -/
def Owned (app : AppIdentity) (past : List Exchange) (handle : Nat) : Prop :=
  ∃ before host port after,
    past = before ++ (.netConnect host port, .ok (.number handle)) :: after ∧
      declares app (.network host) = true ∧ ∀ x ∈ after, x.1 ≠ .netClose handle

/-- Ownership after one more exchange. -/
theorem owned_append_iff {app : AppIdentity} {past : List Exchange} {x : Exchange} {handle : Nat} :
    Owned app (past ++ [x]) handle ↔
      (∃ host port, x = (.netConnect host port, .ok (.number handle)) ∧
        declares app (.network host) = true) ∨
      Owned app past handle ∧ x.1 ≠ .netClose handle := by
  constructor
  · -- the connect is the last exchange, or it was there before and the last is not the close
    intro ⟨before, host, port, after, hpast, hdeclared, hafter⟩
    rcases List.eq_nil_or_concat after with rfl | ⟨rest, y, rfl⟩
    · obtain ⟨-, heq⟩ := List.append_inj' hpast rfl
      exact Or.inl ⟨host, port, (List.cons.inj heq).1, hdeclared⟩
    · rw [List.concat_eq_append, ← List.cons_append, ← List.append_assoc] at hpast
      obtain ⟨hinit, hx⟩ := List.append_inj' hpast rfl
      obtain rfl := (List.cons.inj hx).1
      rw [List.concat_eq_append] at hafter
      exact Or.inr ⟨⟨before, host, port, rest, hinit, hdeclared,
        fun y hy => hafter y (List.mem_append_left _ hy)⟩,
        hafter x (List.mem_append_right _ List.mem_cons_self)⟩
  · rintro (⟨host, port, rfl, hdeclared⟩ | ⟨⟨before, host, port, after, rfl, hdeclared, hafter⟩, hx⟩)
    · exact ⟨past, host, port, [], rfl, hdeclared, fun y hy => (by cases hy)⟩
    · refine ⟨before, host, port, after ++ [x], ?_, hdeclared, fun y hy => ?_⟩
      · rw [List.append_assoc]
        rfl
      · rcases List.mem_append.mp hy with hy | hy
        · exact hafter y hy
        · rw [List.mem_singleton.mp hy]
          exact hx

/-- The session's list is the handles it owns. This is the invariant: the list is what the source keeps, ownership is
    what it is for. -/
structure Listed (app : AppIdentity) (past : List Exchange) (s : AppSession (Recorded σ)) : Prop where
  identity : s.app = app
  sockets : ∀ handle, handle ∈ s.sockets ↔ Owned app past handle

/-- The list changes with connecting and closing, and ownership does by the same exchanges. -/
theorem Listed.step {app : AppIdentity} {past : List Exchange} {request : ApiCall}
    {s s' : AppSession (Recorded σ)} {r : Except Error ApiValue} (h : Listed app past s)
    (hidentity : s'.app = s.app) (hstep : NetStep request s r s') :
    Listed app (past ++ [(request, r)]) s' := by
  refine ⟨hidentity.trans h.identity, fun handle => ?_⟩
  rw [owned_append_iff, ← h.sockets handle]
  have hunclosed : ∀ {named}, request.handle? = some named → request ≠ .netClose named →
      request ≠ .netClose handle := by
    intro named hnames hkeeps hclose
    rw [hclose] at hnames hkeeps
    exact hkeeps (congrArg _ (Option.some.inj hnames))
  cases hstep with
  | quiet ev _ _ hsockets hnames hunconnected =>
    rw [hsockets]
    constructor
    · intro hmem
      refine Or.inr ⟨hmem, fun hclose : request = .netClose handle => ?_⟩
      rw [hclose] at hnames
      cases hnames
    · rintro (⟨host, port, hx, -⟩ | ⟨hmem, -⟩)
      · exact absurd (Prod.mk.inj hx) (hunconnected host port handle)
      · exact hmem
  | connected host port new ev hcall hresult hdeclared _ _ hsockets =>
    rw [hsockets, List.mem_append, List.mem_singleton, hcall, hresult]
    constructor
    · rintro (hmem | rfl)
      · exact Or.inr ⟨hmem, fun hclose => (by cases hclose)⟩
      · exact Or.inl ⟨host, port, rfl, h.identity ▸ hdeclared⟩
    · rintro (⟨host', port', hx, -⟩ | ⟨hmem, -⟩)
      · cases hx
        exact Or.inr rfl
      · exact Or.inl hmem
  | used named e hnames hkeeps _ _ _ _ hsockets =>
    rw [hsockets]
    constructor
    · intro hmem
      exact Or.inr ⟨hmem, hunclosed hnames hkeeps⟩
    · rintro (⟨host, port, hx, -⟩ | ⟨hmem, -⟩)
      · rw [(Prod.mk.inj hx).1] at hnames
        cases hnames
      · exact hmem
  | closed named result hcall _ _ _ hsockets =>
    rw [hsockets, List.mem_filter, hcall]
    constructor
    · intro ⟨hmem, hne⟩
      refine Or.inr ⟨hmem, fun hclose => ?_⟩
      cases hclose
      simp at hne
    · rintro (⟨host, port, hx, -⟩ | ⟨hmem, hne⟩)
      · cases (Prod.mk.inj hx).1
      · refine ⟨hmem, ?_⟩
        simp only [bne_iff_ne, ne_eq]
        rintro rfl
        exact hne rfl
  | foreign named hnames hunowned hresult hsame =>
    rw [hsame]
    constructor
    · intro hmem
      refine Or.inr ⟨hmem, fun hclose : request = .netClose handle => ?_⟩
      rw [hclose] at hnames
      rw [Option.some.inj hnames] at hmem
      exact hunowned hmem
    · rintro (⟨host, port, hx, -⟩ | ⟨hmem, -⟩)
      · rw [(Prod.mk.inj hx).1] at hnames
        cases hnames
      · exact hmem

namespace AppSession

variable [Platform σ] [Argon2]

/-- The calls of a session with their answers. -/
def history : List ApiCall → AppSession σ → List Exchange
  | [], _ => []
  | request :: rest, s => (request, (call request s).1) :: history rest (call request s).2

theorem listed_runCalls {app : AppIdentity} {requests : List ApiCall} {past : List Exchange}
    {s : AppSession (Recorded σ)} (h : Listed app past s) :
    Listed app (past ++ history requests s) (runCalls requests s) := by
  induction requests generalizing past s with
  | nil =>
    rw [history, List.append_nil]
    exact h
  | cons request requests ih =>
    have hnext := h.step (call_sameSession request s).app
      (call_netStep (Prod.eta (call request s)).symm)
    have hrest := ih hnext
    rw [List.append_assoc] at hrest
    exact hrest

omit [Platform σ] [Argon2] in
theorem listed_new (y : System (Recorded σ)) (app : AppIdentity) (args : List Str) (cwd : Str) :
    Listed app [] (new y app args cwd) := by
  refine ⟨rfl, fun handle => ⟨fun hmem => (by cases hmem), ?_⟩⟩
  rintro ⟨before, host, port, after, hpast, -⟩
  cases List.append_eq_nil_iff.mp hpast.symm |>.2

/-- A session from start to end. -/
structure Visit where
  app : AppIdentity
  args : List Str
  cwd : Str
  requests : List ApiCall

/-- The system after a session. -/
def visit (y : System σ) (v : Visit) : System σ :=
  (runCalls v.requests (new y v.app v.args v.cwd)).system

/-- Whatever sessions there were before, and whatever this one has done so far, its next call reaches a connection of
    the platform only if the session owns its handle; and if it does not own it, the call is refused and nothing
    happens. A session that ends does not close its connections here, so handles of earlier sessions may still be
    open on the platform; the new session cannot use them, as its list begins empty. -/
theorem handles_owned (y : System (Recorded σ)) (earlier : List Visit) (app : AppIdentity)
    (args : List Str) (cwd : Str) (before : List ApiCall) (request : ApiCall) :
    let start := new (earlier.foldl visit y) app args cwd
    let s := runCalls before start
    ∃ events, log (call request s).2 = log s ++ events ∧
      (∀ e ∈ events, ∀ handle, e.handle? = some handle →
        request.handle? = some handle ∧ Owned app (history before start) handle) ∧
      ∀ handle, request.handle? = some handle → ¬ Owned app (history before start) handle →
        (call request s).1 = .error (noConnection handle) ∧ (call request s).2 = s := by
  intro start s
  have hlisted : Listed app (history before start) s :=
    listed_runCalls (listed_new (earlier.foldl visit y) app args cwd)
  have hquiet : ∀ {ev : List Event}, (∀ e ∈ ev, e.Quiet) → ∀ e ∈ ev, ∀ handle,
      e.handle? = some handle →
        request.handle? = some handle ∧ Owned app (history before start) handle := by
    intro ev hev e he handle hhandle
    rw [(hev e he).handle?] at hhandle
    cases hhandle
  have hrefused : ∀ {named}, request.handle? = some named → named ∈ s.sockets → ∀ handle,
      request.handle? = some handle → ¬ Owned app (history before start) handle →
        (call request s).1 = .error (noConnection handle) ∧ (call request s).2 = s := by
    intro named hnames hmem handle hhandle hunowned
    rw [Option.some.inj (hnames.symm.trans hhandle)] at hmem
    exact absurd ((hlisted.sockets handle).mp hmem) hunowned
  -- only `used` and `closed` have an event with a handle in it, and in both the handle is in the list
  cases call_netStep (Prod.eta (call request s)).symm with
  | quiet ev hlog hev hsockets hnames _ =>
    refine ⟨ev, hlog, hquiet hev, fun handle hhandle => ?_⟩
    rw [hnames] at hhandle
    cases hhandle
  | connected host port new ev hcall _ _ hlog hev _ =>
    refine ⟨ev ++ [.netConnect host port (.ok new)], hlog.trans (List.append_assoc _ _ _), ?_, ?_⟩
    · intro e he handle hhandle
      rcases List.mem_append.mp he with he | he
      · exact hquiet hev e he handle hhandle
      · rw [List.mem_singleton.mp he] at hhandle
        cases hhandle
    · intro handle hhandle
      rw [hcall] at hhandle
      cases hhandle
  | used named e hnames _ howned hlog hon _ _ =>
    refine ⟨[e], hlog, fun e' he' handle hhandle => ?_, hrefused hnames howned⟩
    rw [List.mem_singleton.mp he', hon] at hhandle
    obtain rfl := Option.some.inj hhandle
    exact ⟨hnames, (hlisted.sockets named).mp howned⟩
  | closed named result hcall howned _ hlog _ =>
    have hnames : request.handle? = some named := by rw [hcall]; rfl
    refine ⟨[.netClose named result], hlog, fun e' he' handle hhandle => ?_, hrefused hnames howned⟩
    rw [List.mem_singleton.mp he'] at hhandle
    obtain rfl := Option.some.inj hhandle
    exact ⟨hnames, (hlisted.sockets named).mp howned⟩
  | foreign named hnames _ hresult hsame =>
    refine ⟨[], ?_, fun e he => (by cases he), fun handle hhandle _ => ?_⟩
    · rw [hsame, List.append_nil]
    · rw [← Option.some.inj (hnames.symm.trans hhandle)]
      exact ⟨hresult, hsame⟩

end AppSession

end Afos
