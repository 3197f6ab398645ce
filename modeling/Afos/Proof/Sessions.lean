import Afos.Machine
import Afos.Proof.Mediation

/-!
# Sessions over a whole run

A session makes one call after another. What identifies it (the application, its arguments,
the current directory, the private directory) never changes, so what is said of one call by
the identity of the session is said of the whole run by the identity it started with.
-/

set_option autoImplicit false

namespace Afos

open Lib

/-- The calls that change the session's list of handles. Sending and receiving only read it. -/
def ApiCall.setsSockets : ApiCall → Bool
  | .netConnect _ _ | .netClose _ => true
  | _ => false

namespace AppSession

variable {σ α : Type}

/-- The same application, started the same way. What may differ is the system below and the list of handles. -/
structure SameSession (s s' : AppSession σ) : Prop where
  app : s'.app = s.app
  args : s'.args = s.args
  cwd : s'.cwd = s.cwd
  appdataRoot : s'.appdataRoot = s.appdataRoot

instance : IsPreorder (AppSession σ) SameSession where
  refl _ := ⟨rfl, rfl, rfl, rfl⟩
  trans _ _ _ h h' := ⟨h'.app.trans h.app, h'.args.trans h.args, h'.cwd.trans h.cwd,
    h'.appdataRoot.trans h.appdataRoot⟩

/-! ### What every call keeps -/

section Keeps

variable {R : AppSession σ → AppSession σ → Prop} [IsPreorder (AppSession σ) R]

theorem keeps_resolve (path : Str) :
    Op.Keeps R (resolve path : Op Error (AppSession σ) Str) := by
  refine Op.Keeps.bind Op.Keeps.read ?_
  intro s
  exact Op.Keeps.ofExcept _

theorem keeps_ownedSocket (handle : Nat) :
    Op.Keeps R (ownedSocket handle : Op Error (AppSession σ) Unit) := by
  refine Op.Keeps.bind Op.Keeps.read ?_
  intro s
  exact Op.Keeps.ite (Op.Keeps.pure _) (Op.Keeps.throw _)

theorem keeps_resolveAppdata (path : Str) :
    Op.Keeps R (resolveAppdata path : Op Error (AppSession σ) Str) := by
  refine Op.Keeps.bind Op.Keeps.read ?_
  intro s
  refine Op.Keeps.bind (Op.Keeps.ofExcept _) ?_
  intro resolved
  exact Op.Keeps.ite (Op.Keeps.throw _) (Op.Keeps.pure _)

variable [Platform σ] [Argon2]
  (hsystem : ∀ {β : Type} (x : Op Error (System σ) β), Op.Keeps R (onSystem x))
include hsystem

theorem keeps_authorize (capability : Capability) (resource : Str) :
    Op.Keeps R (authorize capability resource : Op Error (AppSession σ) Unit) := by
  refine Op.Keeps.bind Op.Keeps.read ?_
  intro s
  exact hsystem _

theorem keeps_withPath (capability : Str → Capability) (path : Str)
    (act : Str → Op Error (Vfs σ) α) : Op.Keeps R (withPath capability path act) := by
  refine Op.Keeps.bind (keeps_resolve path) ?_
  intro p
  refine Op.Keeps.bind (keeps_authorize hsystem _ _) ?_
  intro _
  exact hsystem _

/-- What every operation of the system keeps is kept by every call, provided that a change of the list of handles
    keeps it if the call makes one. This goes through the steps of all the calls once, for any preorder. -/
theorem keeps_call {request : ApiCall}
    (hsockets : request.setsSockets = true → ∀ f : AppSession σ → List Nat,
      Op.Keeps R (Op.modify fun s => { s with sockets := f s } : Op Error (AppSession σ) Unit)) :
    Op.Keeps R (call request : Op Error (AppSession σ) ApiValue) := by
  -- call by call, along the steps of its definition
  cases request with
  | consoleWrite text => exact (hsystem _).map _
  | consoleReadLine prompt => exact (hsystem _).map _
  | readText path => exact (keeps_withPath hsystem _ _ _).map _
  | writeText path text => exact (keeps_withPath hsystem _ _ _).map _
  | list path => exact (keeps_withPath hsystem _ _ _).map _
  | createDirAll path => exact (keeps_withPath hsystem _ _ _).map _
  | remove path => exact (keeps_withPath hsystem _ _ _).map _
  | rename source target =>
    refine Op.Keeps.map _ ?_
    refine Op.Keeps.bind (keeps_resolve source) ?_
    intro p
    refine Op.Keeps.bind (keeps_resolve target) ?_
    intro p'
    refine Op.Keeps.bind (keeps_authorize hsystem _ _) ?_
    intro _
    refine Op.Keeps.bind (keeps_authorize hsystem _ _) ?_
    intro _
    exact hsystem _
  | appdataRead path =>
    refine Op.Keeps.map _ ?_
    refine Op.Keeps.bind (keeps_resolveAppdata path) ?_
    intro p
    exact hsystem _
  | appdataWrite path text =>
    refine Op.Keeps.map _ ?_
    refine Op.Keeps.bind (keeps_resolveAppdata path) ?_
    intro p
    refine Op.Keeps.bind Op.Keeps.read ?_
    intro s
    refine Op.Keeps.bind (hsystem _) ?_
    intro _
    exact hsystem _
  | monotonicMillis =>
    refine Op.Keeps.map _ ?_
    refine Op.Keeps.bind (keeps_authorize hsystem _ _) ?_
    intro _
    exact hsystem _
  | systemInfo =>
    refine Op.Keeps.map _ ?_
    refine Op.Keeps.bind (keeps_authorize hsystem _ _) ?_
    intro _
    exact hsystem _
  | netStatus =>
    refine Op.Keeps.map _ ?_
    refine Op.Keeps.bind Op.Keeps.read ?_
    intro s
    exact Op.Keeps.ite (Op.Keeps.throw _) (hsystem _)
  | netConnect host port =>
    refine Op.Keeps.map _ ?_
    refine Op.Keeps.ite (Op.Keeps.throw _) ?_
    refine Op.Keeps.bind (keeps_authorize hsystem _ _) ?_
    intro _
    refine Op.Keeps.bind (hsystem _) ?_
    intro handle
    refine Op.Keeps.bind (hsockets rfl _) ?_
    intro _
    exact Op.Keeps.pure _
  | netSend handle data =>
    refine Op.Keeps.map _ ?_
    refine Op.Keeps.bind (keeps_ownedSocket handle) ?_
    intro _
    exact hsystem _
  | netRecv handle max =>
    refine Op.Keeps.map _ ?_
    refine Op.Keeps.bind (keeps_ownedSocket handle) ?_
    intro _
    refine Op.Keeps.bind (hsystem _) ?_
    intro received
    exact Op.Keeps.pure _
  | netClose handle =>
    refine Op.Keeps.map _ ?_
    refine Op.Keeps.bind (keeps_ownedSocket handle) ?_
    intro _
    refine Op.Keeps.bind (hsockets rfl _) ?_
    intro _
    exact hsystem _
  | cancelled => exact (hsystem _).map _

end Keeps

theorem keeps_onSystem (x : Op Error (System σ) α) :
    Op.Keeps SameSession (onSystem x) := by
  intro s
  exact ⟨rfl, rfl, rfl, rfl⟩

theorem keeps_setSockets (f : AppSession σ → List Nat) :
    Op.Keeps SameSession (Op.modify fun s => { s with sockets := f s } :
      Op Error (AppSession σ) Unit) := by
  intro s
  exact ⟨rfl, rfl, rfl, rfl⟩

variable [Platform σ] [Argon2]

/-- No call changes what identifies the session. -/
theorem call_sameSession (request : ApiCall) :
    Op.Keeps SameSession (call request : Op Error (AppSession σ) ApiValue) :=
  keeps_call keeps_onSystem fun _ => keeps_setSockets

/-- The session after a sequence of calls, whatever each of them answered. An application may go on after an error. -/
def runCalls (requests : List ApiCall) (s : AppSession σ) : AppSession σ :=
  requests.foldl (fun s request => (call request s).2) s

/-- Nor does any sequence of calls. -/
theorem runCalls_sameSession (requests : List ApiCall) (s : AppSession σ) :
    SameSession s (runCalls requests s) := by
  induction requests generalizing s with
  | nil => exact ⟨rfl, rfl, rfl, rfl⟩
  | cons request requests ih =>
    exact IsTrans.trans _ _ _ (call_sameSession request s) (ih (call request s).2)

end AppSession

/-! ## The resources of file calls -/

/-- The kind of capability a file call needs. -/
def ApiCall.fileCapability : ApiCall → Option (Str → Capability)
  | .readText _ | .list _ => some .fsRead
  | .writeText _ _ | .createDirAll _ | .remove _ | .rename _ _ => some .fsWrite
  | _ => none

namespace ApiCall

theorem mem_pathDemand {capability : Str → Capability} {cwd path : Str} (hcwd : Rooted cwd)
    {ds : List (Capability × Str)} (h : pathDemand capability cwd path = .ok ds) :
    ∀ d ∈ ds, Rooted d.2 ∧ d.1 = capability d.2 := by
  unfold pathDemand at h
  cases hn : normalizePath cwd path with
  | error e =>
    rw [hn] at h
    cases h
  | ok p =>
    rw [hn] at h
    cases h
    intro d hd
    rw [List.mem_singleton.mp hd]
    exact ⟨hcwd.normalizePath hn, rfl⟩

/-- A file call from a normal directory is about normal paths, under the capability it needs. Both paths of a rename
    need the capability to write. -/
theorem mem_demands {cwd : Str} (hcwd : Rooted cwd) {request : ApiCall}
    {capability : Str → Capability} (hf : request.fileCapability = some capability)
    {ds : List (Capability × Str)} (h : request.demands cwd = .ok ds) :
    ∀ d ∈ ds, Rooted d.2 ∧ d.1 = capability d.2 := by
  cases request with
  | readText path | writeText path text | list path | createDirAll path | remove path =>
    cases hf
    exact mem_pathDemand hcwd h
  | rename source target =>
    cases hf
    simp only [demands] at h
    -- both paths are resolved before anything is demanded
    cases hn : normalizePath cwd source with
    | error e =>
      rw [hn] at h
      cases h
    | ok p =>
      cases hn' : normalizePath cwd target with
      | error e =>
        rw [hn, hn'] at h
        cases h
      | ok p' =>
        rw [hn, hn'] at h
        cases h
        intro d hd
        simp only [List.mem_cons, List.not_mem_nil, or_false] at hd
        rcases hd with rfl | rfl
        · exact ⟨hcwd.normalizePath hn, rfl⟩
        · exact ⟨hcwd.normalizePath hn', rfl⟩
  | _ => cases hf

end ApiCall

/-- From normal paths, the storage paths of an effect are the resources themselves. -/
theorem EffectFor.mem_of_storagePaths {request : ApiCall} {resources : List Str} {e : Event}
    (h : EffectFor request resources e)
    (hr : ∀ capability, request.fileCapability = some capability → ∀ p ∈ resources, Rooted p)
    {q : Str} (hq : q ∈ e.storagePaths) :
    '/' :: q ∈ resources ∧ ∃ capability, request.fileCapability = some capability := by
  cases h with
  | readText names | writeText names | list names | createDirAll names | remove names =>
    rw [Event.storagePaths, List.mem_singleton] at hq
    subst hq
    rw [names_of_rooted (hr _ rfl _ List.mem_cons_self) names]
    exact ⟨List.mem_cons_self, _, rfl⟩
  | rename names names' =>
    simp only [Event.storagePaths, List.mem_cons, List.not_mem_nil, or_false] at hq
    have h₁ := names_of_rooted (hr _ rfl _ List.mem_cons_self) names
    have h₂ := names_of_rooted (hr _ rfl _ (List.mem_cons_of_mem _ List.mem_cons_self)) names'
    rcases hq with rfl | rfl
    · rw [h₁]
      exact ⟨List.mem_cons_self, _, rfl⟩
    · rw [h₂]
      exact ⟨List.mem_cons_of_mem _ List.mem_cons_self, _, rfl⟩
  | monotonicMillis | systemInfo | netConnect => cases hq

namespace AppSession

variable {σ : Type} [Platform σ] [Argon2]

/-! ## Complete mediation -/

/-- In any run of any session, every protected call is mediated: each of its effects stands
    after a grant, in that same call, of every resource it needs, and a call that is not
    granted is an error with no effect. From a normal directory the storage paths it touches
    are those very resources. -/
theorem protected_calls_mediated (s₀ : AppSession (Recorded σ)) (before : List ApiCall)
    (request : ApiCall) (hp : request.isProtected = true) :
    SameSession s₀ (runCalls before s₀) ∧
      Mediated request (runCalls before s₀) (call request (runCalls before s₀)).1
        (call request (runCalls before s₀)).2 ∧
      (Rooted s₀.cwd → ∀ ds e, request.demands s₀.cwd = .ok ds →
        EffectFor request (ds.map Prod.snd) e →
          ∀ q ∈ e.storagePaths, '/' :: q ∈ ds.map Prod.snd) := by
  refine ⟨runCalls_sameSession before s₀, call_mediated hp rfl, ?_⟩
  intro hcwd ds e hds he q hq
  refine (he.mem_of_storagePaths ?_ hq).1
  intro capability hf p hmem
  obtain ⟨d, hd, rfl⟩ := List.mem_map.mp hmem
  exact (ApiCall.mem_demands hcwd hf hds d hd).1

end AppSession

section Example

attribute [local instance] lengthArgon2

/-- A session of an installed application that declares the clock; its user will say yes. -/
def clockSession : AppSession (Recorded (BareMetalPlatform NoDisk Keyboard)) :=
  AppSession.new (System.new ⟨diskless FileTree.empty ["y".toList], []⟩)
    { id := "timer".toList, sourcePath := "/apps/timer.rhai".toList, trusted := false,
      apiVersion := 1, capabilities := [.clock] } [] "/user".toList

theorem protected_calls_mediated_clock :
    ApiCall.isProtected .monotonicMillis = true ∧
      Mediated .monotonicMillis clockSession (AppSession.call .monotonicMillis clockSession).1
        (AppSession.call .monotonicMillis clockSession).2 :=
  ⟨rfl, (AppSession.protected_calls_mediated clockSession [] .monotonicMillis rfl).2.1⟩

end Example

/-! ## Declared subtrees -/

/-- A path lies in a subtree that the application declares under this kind of capability: the
    names of the declared path, normalized, stand in front of its own. -/
def Inside (app : AppIdentity) (kind : Str → Capability) (path : Str) : Prop :=
  ∃ declared n, kind declared ∈ app.capabilities ∧
    normalizePath "/".toList declared = .ok n ∧ names n <+: names path

theorem names_slash_join {cs : List Str} (h : ∀ c ∈ cs, Plain c) : names ('/' :: join cs) = cs := by
  rw [names_slash, names_join (isName_of_plain h)]

theorem pathPrefix_iff_names {n p : Str} (hn : Rooted n) (hp : Rooted p) :
    pathPrefix n p = true ↔ names n <+: names p := by
  obtain ⟨a, ha, rfl⟩ := hn
  obtain ⟨b, hb, rfl⟩ := hp
  rw [pathPrefix_iff (isName_of_plain ha) (isName_of_plain hb), names_slash_join ha,
    names_slash_join hb]

/-- The textual test for a declared file capability is the one on names. A declared path that does not normalize
    covers nothing. -/
theorem declares_iff_inside {app : AppIdentity} {kind : Str → Capability}
    (hk : kind = .fsRead ∨ kind = .fsWrite) {p : Str} (hp : Rooted p) :
    declares app (kind p) = true ↔ Inside app kind p := by
  -- one declared capability: of the kind that is asked for, and with a path that is a prefix
  have hcovers : ∀ d, covers d (kind p) = true ↔
      ∃ declared n, d = kind declared ∧ normalizePath "/".toList declared = .ok n ∧
        names n <+: names p := by
    intro d
    constructor
    · intro h
      rcases hk with rfl | rfl
      all_goals
        cases d <;> simp only [covers, Bool.false_eq_true] at h
        rename_i declared
        cases hn : normalizePath "/".toList declared with
        | error e =>
          rw [hn] at h
          cases h
        | ok n =>
          rw [hn] at h
          exact ⟨declared, n, rfl, hn,
            (pathPrefix_iff_names (rooted_root.normalizePath hn) hp).mp h⟩
    · rintro ⟨declared, n, rfl, hn, hpre⟩
      have h := (pathPrefix_iff_names (rooted_root.normalizePath hn) hp).mpr hpre
      rcases hk with rfl | rfl
      all_goals
        simp only [covers, hn]
        exact h
  unfold declares
  rw [List.any_eq_true]
  constructor
  · rintro ⟨d, hd, h⟩
    obtain ⟨declared, n, rfl, hn, hpre⟩ := (hcovers d).mp h
    exact ⟨declared, n, hd, hn, hpre⟩
  · rintro ⟨declared, n, hd, hn, hpre⟩
    exact ⟨kind declared, hd, (hcovers _).mpr ⟨declared, n, rfl, hn, hpre⟩⟩

/-- The names of the verifier's path. No file call gets at this path or below it, whatever is declared. -/
def securityNames : List Str := ["user".toList, "config".toList, "security".toList]

theorem isSecurityResource_iff {p : Str} (hp : Rooted p) :
    isSecurityResource p = true ↔ securityNames <+: names p := by
  obtain ⟨cs, hcs, rfl⟩ := hp
  rw [names_slash_join hcs]
  exact isPathPrefix_slash_iff (a := securityNames) (by decide) (isName_of_plain hcs)
    (by simp [securityNames])

theorem fileCapability_kind {request : ApiCall} {kind : Str → Capability}
    (hf : request.fileCapability = some kind) : kind = .fsRead ∨ kind = .fsWrite := by
  cases request <;> cases hf
  all_goals first | exact Or.inl rfl | exact Or.inr rfl

theorem isProtected_of_fileCapability {request : ApiCall} {kind : Str → Capability}
    (hf : request.fileCapability = some kind) : request.isProtected = true := by
  cases request <;> first | rfl | cases hf

section

variable {σ : Type} [Platform σ] [Argon2]

/-- Each of several grants is a declared one, outside the verifier's subtree. -/
theorem Grants.declared {app : AppIdentity} {ds : List (Capability × Str)}
    {s s' : System (Recorded σ)} (h : Grants app ds s s') :
    (∀ d ∈ ds, declares app d.1 = true ∧ isSecurityResource d.2 = false) ∧
      ∃ ev, log s' = log s ++ ev ∧ ∀ e ∈ ev, e.Authorizing := by
  -- grant after grant; each adds what it looked up and asked, and nothing else
  induction h with
  | nil s => exact ⟨by simp, [], by rw [List.append_nil], by simp⟩
  | cons first rest ih =>
    obtain ⟨hds, ev', hlog', hev'⟩ := ih
    obtain ⟨ev, hlog, hev⟩ := log_of_granted first
    refine ⟨?_, ev ++ ev', by rw [hlog', hlog.1, List.append_assoc], ?_⟩
    · intro d hd
      rcases List.mem_cons.mp hd with rfl | hd
      · exact ⟨first.declared, first.open_⟩
      · exact hds d hd
    · intro e he
      rcases List.mem_append.mp he with he | he
      · exact hev e he
      · exact hev' e he

namespace AppSession

/-- Besides what authorization looks up, a file call touches storage only inside the subtrees
    declared for its kind, and outside the verifier's. For a trusted application the converse
    holds: a demand inside a declared subtree and outside the verifier's is never refused. -/
theorem file_calls_confined (s₀ : AppSession (Recorded σ)) (hcwd : Rooted s₀.cwd)
    (before : List ApiCall) (request : ApiCall) (kind : Str → Capability)
    (hf : request.fileCapability = some kind) :
    (∃ auth effects, log (call request (runCalls before s₀)).2 =
        log (runCalls before s₀) ++ auth ++ effects ∧ (∀ e ∈ auth, e.Authorizing) ∧
        ∀ e ∈ effects, ∀ q ∈ e.storagePaths,
          Inside s₀.app kind q ∧ ¬ securityNames <+: names q) ∧
      (s₀.app.trusted = true → ∀ ds, request.demands s₀.cwd = .ok ds → ∀ d ∈ ds,
        Inside s₀.app kind d.2 → ¬ securityNames <+: names d.2 →
          ∀ (τ : Type) [Platform τ] (y : System τ),
            System.authorize s₀.app d.1 d.2 y = (.ok (), y)) ∧
      covers (kind "/user/save".toList) (kind "/user/saves".toList) = false := by
  have hk := fileCapability_kind hf
  have hsame := runCalls_sameSession before s₀
  refine ⟨?_, ?_, ?_⟩
  · have hmediated : Mediated request (runCalls before s₀) (call request (runCalls before s₀)).1
        (call request (runCalls before s₀)).2 :=
      call_mediated (isProtected_of_fileCapability hf) rfl
    -- a refused call has no effects; those of a granted one are on the resources that were granted
    cases hmediated with
    | refused e ev result events authorizing trusted =>
      exact ⟨ev, [], by rw [events, List.append_nil], authorizing, by simp⟩
    | granted ds mid ev demands grants events effects =>
      rw [hsame.cwd] at demands
      rw [hsame.app] at grants
      obtain ⟨hds, auth, hlog, hauth⟩ := grants.declared
      refine ⟨auth, ev, by rw [events, hlog]; rfl, hauth, ?_⟩
      intro e he q hq
      have hmem := ((effects e he).mem_of_storagePaths (fun capability hcap p hp => by
        obtain ⟨d, hd, rfl⟩ := List.mem_map.mp hp
        exact (ApiCall.mem_demands hcwd hcap demands d hd).1) hq).1
      obtain ⟨d, hd, hdq⟩ := List.mem_map.mp hmem
      obtain ⟨hrooted, hcap⟩ := ApiCall.mem_demands hcwd hf demands d hd
      have hinside := (declares_iff_inside hk hrooted).mp (hcap ▸ (hds d hd).1)
      have hsec : ¬ securityNames <+: names d.2 := by
        rw [← isSecurityResource_iff hrooted, (hds d hd).2]
        simp
      unfold Inside at hinside ⊢
      rw [hdq, names_slash] at hinside hsec
      exact ⟨hinside, hsec⟩
  · intro htrusted ds hds d hd hinside hsec τ _ y
    obtain ⟨hrooted, hcap⟩ := ApiCall.mem_demands hcwd hf hds d hd
    have hdeclared : declares s₀.app d.1 = true := by
      rw [hcap]
      exact (declares_iff_inside hk hrooted).mpr hinside
    have hopen : isSecurityResource d.2 = false := by
      rw [← Bool.not_eq_true, isSecurityResource_iff hrooted]
      exact hsec
    simp only [System.authorize, hopen, hdeclared, htrusted, Bool.false_eq_true, Bool.not_true,
      if_false, if_true]
    rfl
  · rcases hk with rfl | rfl <;> decide

end AppSession

end

section Example

attribute [local instance] lengthArgon2

/-- A bundled application that may write below the saves directory. -/
def savesApp : AppIdentity where
  id := "notes".toList
  sourcePath := "/sys/apps/notes.rhai".toList
  trusted := true
  apiVersion := 1
  capabilities := [.fsWrite "/user/saves".toList]

def savesSession : AppSession (Recorded (BareMetalPlatform NoDisk Keyboard)) :=
  AppSession.new (System.new ⟨diskless FileTree.empty [], []⟩) savesApp [] "/user".toList

theorem file_calls_confined_saves :
    Rooted savesSession.cwd ∧
      ∃ auth effects, log (AppSession.call (.writeText "saves/a".toList [])
          (AppSession.runCalls [] savesSession)).2 =
        log (AppSession.runCalls [] savesSession) ++ auth ++ effects ∧
        (∀ e ∈ auth, e.Authorizing) ∧
        ∀ e ∈ effects, ∀ q ∈ e.storagePaths,
          Inside savesSession.app .fsWrite q ∧ ¬ securityNames <+: names q :=
  have hcwd : Rooted savesSession.cwd := ⟨["user".toList], by decide, rfl⟩
  ⟨hcwd, (AppSession.file_calls_confined savesSession hcwd []
    (.writeText "saves/a".toList []) .fsWrite rfl).1⟩

end Example

end Afos
