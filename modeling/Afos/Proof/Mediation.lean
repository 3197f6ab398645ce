import Afos.Proof.Effects

/-!
# Every protected effect has its own approval

The nine protected calls, over a recording platform, from any state. What a call adds to the
record comes in one of two shapes (`Mediated`). Either every resource the call needs was granted
first, one after the other, and what the call then did is its own effect on those resources; or
the call answers an error and the record holds nothing but the questions and lookups of the
authorization itself.

A grant to an installed application is an `Approval`: the request as it was shown, a yes, and,
when there is a verifier, a secret line that `verify` accepted. It is a fact about the record
*between* two states of one call, so an approval given in an earlier call is no part of it.
-/

set_option autoImplicit false

namespace Afos

open Lib

variable {σ α : Type}

/-! ## Calls, their demands and their effects -/

namespace ApiCall

/-- The calls that need authorization. The others are the console, the application's own data, and what is done with
    connections that are open. -/
def isProtected : ApiCall → Bool
  | .readText _ | .writeText _ _ | .list _ | .createDirAll _ | .remove _ | .rename _ _
  | .monotonicMillis | .systemInfo | .netConnect _ _ => true
  | _ => false

/-- The demand of a call on one path: the capability for the path, once it is resolved, and the path as the resource
    that is shown. -/
def pathDemand (capability : Str → Capability) (cwd path : Str) :
    Except Error (List (Capability × Str)) :=
  (normalizePath cwd path).map fun p => [(capability p, p)]

/-- The capabilities a call needs, each with the resource it is for, in order. A rename needs two, and asks for the
    source first. -/
def demands (cwd : Str) : ApiCall → Except Error (List (Capability × Str))
  | .readText path | .list path => pathDemand .fsRead cwd path
  | .writeText path _ | .createDirAll path | .remove path => pathDemand .fsWrite cwd path
  | .rename source target => do
      let p ← normalizePath cwd source
      let p' ← normalizePath cwd target
      .ok [(.fsWrite p, p), (.fsWrite p', p')]
  | .monotonicMillis => .ok [(.clock, "monotonic clock".toList)]
  | .systemInfo => .ok [(.systemInfo, "system information".toList)]
  | .netConnect host port =>
      if host = [] then .error (.invalidInput "empty network host".toList)
      else .ok [(.network host, AppSession.netResource host port)]
  | _ => .ok []

end ApiCall

/-- What a call does for the application, on the resources it was granted. It is the one event of the platform that
    the call is for, with the storage path that the granted one names. -/
inductive EffectFor : ApiCall → List Str → Event → Prop
  | readText {path p q : Str} {r : Except Error Bytes} (names : Names p q) :
      EffectFor (.readText path) [p] (.storageRead q r)
  | writeText {path text p q : Str} {r : Except Error Unit} (names : Names p q) :
      EffectFor (.writeText path text) [p] (.storageWrite q (asBytes text) r)
  | list {path p q : Str} {r : Except Error (List StorageEntry)} (names : Names p q) :
      EffectFor (.list path) [p] (.storageList q r)
  | createDirAll {path p q : Str} {r : Except Error Unit} (names : Names p q) :
      EffectFor (.createDirAll path) [p] (.storageCreateDirAll q r)
  | remove {path p q : Str} {r : Except Error Unit} (names : Names p q) :
      EffectFor (.remove path) [p] (.storageRemove q r)
  | rename {source target p p' q q' : Str} {r : Except Error Unit} (names : Names p q)
      (names' : Names p' q') :
      EffectFor (.rename source target) [p, p'] (.storageRename q q' r)
  | monotonicMillis {p : Str} {v : Nat} : EffectFor .monotonicMillis [p] (.monotonicMillis v)
  | systemInfo {p : Str} {v : SystemInfo} : EffectFor .systemInfo [p] (.systemInfo v)
  | netConnect {host p : Str} {port : UInt16} {r : Except Error Nat} :
      EffectFor (.netConnect host port) [p] (.netConnect host port r)

/-- What authorization itself asks of the platform: it writes and reads on the console, looks at the clock, and looks
    for and reads the verifier. -/
def Event.Authorizing : Event → Prop
  | .consoleWrite _ _ | .consoleReadLine _ _ _ | .monotonicMillis _ => True
  | .storageExists path _ | .storageRead path _ => path = securityFile
  | _ => False

/-! ## Approvals -/

def allowPrompt : Str := "Allow this operation once? [y/N] ".toList

def passwordPrompt : Str := "Master password: ".toList

/-- The start of every approval: the request, the yes, and whether there is a verifier. -/
def approvalEvents (app : AppIdentity) (capability : Capability) (resource answer : Str)
    (present : Bool) : List Event :=
  [.consoleWrite (permissionRequest app capability resource) (.ok ()),
    .consoleReadLine allowPrompt false (.ok answer), .storageExists securityFile (.ok present)]

/-- Between `s` and `s'` the user has approved one use of one capability on one resource. All the events of the
    approval are there, in order and with nothing in between. -/
inductive Approval [Platform σ] [Argon2] (app : AppIdentity) (capability : Capability)
    (resource : Str) (s s' : System (Recorded σ)) : Prop
  | unguarded (answer : Str) (yes : isYes answer = true)
      (events : log s' = log s ++ approvalEvents app capability resource answer false)
  | guarded (answer password : Str) (now : Nat) (data : Bytes) (mid : System (Recorded σ))
      (yes : isYes answer = true)
      (asked : log mid = log s ++ approvalEvents app capability resource answer true ++
        [.consoleReadLine passwordPrompt true (.ok password)])
      (verified : SecurityManager.verify password mid = (.ok (), s'))
      (events : log s' = log mid ++ [.monotonicMillis now, .storageRead securityFile (.ok data)])
      (accepts : Accepts data password)

/-- One demand met: declared, and approved unless the application is trusted. For a trusted application nothing
    happens at all. -/
structure Granted [Platform σ] [Argon2] (app : AppIdentity) (demand : Capability × Str)
    (s s' : System (Recorded σ)) : Prop where
  open_ : isSecurityResource demand.2 = false
  declared : declares app demand.1 = true
  approved : app.trusted = false → Approval app demand.1 demand.2 s s'
  trusted : app.trusted = true → s' = s

/-- All demands met, each after the one before it, so that no approval is used for two of them. -/
inductive Grants [Platform σ] [Argon2] (app : AppIdentity) :
    List (Capability × Str) → System (Recorded σ) → System (Recorded σ) → Prop
  | nil (s : System (Recorded σ)) : Grants app [] s s
  | cons {d : Capability × Str} {ds : List (Capability × Str)} {s s₁ s' : System (Recorded σ)}
      (first : Granted app d s s₁) (rest : Grants app ds s₁ s') : Grants app (d :: ds) s s'

/-- The two shapes of what a protected call does. In the first the record is that of the grants and then of the
    effects; in the second the answer is an error, and the record that of authorization. -/
inductive Mediated [Platform σ] [Argon2] (request : ApiCall) (s : AppSession (Recorded σ))
    (r : Except Error ApiValue) (s' : AppSession (Recorded σ)) : Prop
  | granted (ds : List (Capability × Str)) (mid : System (Recorded σ)) (ev : List Event)
      (demands : request.demands s.cwd = .ok ds) (grants : Grants s.app ds s.system mid)
      (events : log s' = log mid ++ ev)
      (effects : ∀ e ∈ ev, EffectFor request (ds.map Prod.snd) e)
  | refused (e : Error) (ev : List Event) (result : r = .error e) (events : log s' = log s ++ ev)
      (authorizing : ∀ e ∈ ev, e.Authorizing) (trusted : s.app.trusted = true → ev = [])

/-! ## Authorization -/

theorem log_eq_of_vfs_eq {s s' : System (Recorded σ)} (h : s.vfs = s'.vfs) : log s = log s' :=
  congrArg (fun v : Vfs (Recorded σ) => v.platform.log) h

theorem emits_one {x : Op Error (System (Recorded σ)) α} {event : Except Error α → Event}
    (hx : ∀ {s s' r}, x s = (r, s') → log s' = log s ++ [event r])
    (hauth : ∀ r, (event r).Authorizing) : Op.Emits (fun ev => ∀ e ∈ ev, e.Authorizing) x := by
  intro s
  refine ⟨[event (x s).1], hx rfl, ?_⟩
  intro e he
  rw [List.mem_singleton.mp he]
  exact hauth _

section Authorize

variable [Platform σ]

theorem log_consoleWrite {text : Str} {s s' : System (Recorded σ)} {r : Except Error Unit}
    (h : System.consoleWrite text s = (r, s')) : log s' = log s ++ [.consoleWrite text r] := by
  obtain ⟨hr, hs⟩ := Prod.mk.inj h
  rw [← hr, ← hs]
  rfl

theorem log_consoleReadLine {prompt : Str} {secret : Bool} {s s' : System (Recorded σ)}
    {r : Except Error Str} (h : System.consoleReadLine prompt secret s = (r, s')) :
    log s' = log s ++ [.consoleReadLine prompt secret r] := by
  obtain ⟨hr, hs⟩ := Prod.mk.inj h
  rw [← hr, ← hs]
  rfl

theorem log_hasPassword {s s' : System (Recorded σ)} {r : Except Error Bool}
    (h : SecurityManager.hasPassword s = (r, s')) :
    log s' = log s ++ [.storageExists securityFile r] := by
  rw [SecurityManager.run_hasPassword] at h
  obtain ⟨hr, hs⟩ := Prod.mk.inj h
  rw [← hr, ← hs]
  rfl

/-- The two calls of `verify` when it gets as far as the verifier. -/
theorem log_clock_read {s s' : System (Recorded σ)} {res : Except Error Bytes} {p : Recorded σ}
    (hp : Platform.storageRead securityFile (Platform.monotonicMillis s.vfs.platform).2 = (res, p))
    (hs : s'.vfs = (s.withPlatform p).vfs) :
    log s' = log s ++ [.monotonicMillis (Platform.monotonicMillis s.vfs.platform).1,
      .storageRead securityFile res] := by
  obtain ⟨hres, hp⟩ := Prod.mk.inj hp
  rw [log_eq_of_vfs_eq hs, ← hres, ← hp]
  show (s.vfs.platform.log ++ [_]) ++ [_] = _
  rw [List.append_assoc]
  rfl

variable [Argon2]

/-- `verify` does nothing but look at the clock and at the verifier. -/
theorem emits_verify (password : Str) :
    Op.Emits (fun ev => ∀ e ∈ ev, e.Authorizing)
      (SecurityManager.verify password : Op Error (System (Recorded σ)) Unit) := by
  intro s
  rw [SecurityManager.run_verify]
  -- too early, and then only the clock is read, or the clock and the file
  split
  · refine ⟨[_], rfl, ?_⟩
    intro e he
    rw [List.mem_singleton.mp he]
    trivial
  · have hauth : ∀ {v : Nat} {res : Except Error Bytes},
        ∀ e ∈ ([.monotonicMillis v, .storageRead securityFile res] : List Event), e.Authorizing := by
      intro v res e he
      simp only [List.mem_cons, List.not_mem_nil, or_false] at he
      rcases he with rfl | rfl
      · trivial
      · rfl
    split
    case h_1 data p hp =>
      exact ⟨_, log_clock_read hp (SecurityManager.judge_cases _ _ _ _).1, hauth⟩
    case h_2 e p hp => exact ⟨_, log_clock_read hp rfl, hauth⟩

/-- Whatever it answers, asking the user does nothing but ask and look up. -/
theorem emits_requestPermission (app : AppIdentity) (capability : Capability) (resource : Str) :
    Op.Emits (fun ev => ∀ e ∈ ev, e.Authorizing)
      (System.requestPermission app capability resource :
        Op Error (System (Recorded σ)) Unit) := by
  have hnone : ∀ e ∈ ([] : List Event), e.Authorizing := by simp
  apply Op.Emits.bind (emits_one log_consoleWrite fun _ => trivial)
  intro _
  apply Op.Emits.bind (emits_one log_consoleReadLine fun _ => trivial)
  intro answer
  apply Op.Emits.ite
  · exact (Op.Silent.throw _).emits hnone
  apply Op.Emits.bind (emits_one log_hasPassword fun _ => rfl)
  intro present
  apply Op.Emits.ite
  · apply Op.Emits.bind (emits_one log_consoleReadLine fun _ => trivial)
    intro password
    exact emits_verify password
  · exact (Op.Silent.pure _).emits hnone

/-- When asking succeeds, the user has approved: this reads the events off the steps of `requestPermission`. -/
theorem approval_of_requestPermission {app : AppIdentity} {capability : Capability}
    {resource : Str} {s s' : System (Recorded σ)}
    (h : System.requestPermission app capability resource s = (.ok (), s')) :
    Approval app capability resource s s' := by
  unfold System.requestPermission at h
  obtain ⟨⟨⟩, s₁, hwrite, h⟩ := Op.bind_ok h
  obtain ⟨answer, s₂, hanswer, h⟩ := Op.bind_ok h
  -- a line that is not a yes ends it before the verifier is looked for
  cases hyes : isYes answer with
  | false => simp [hyes] at h
  | true =>
    simp only [hyes, Bool.not_true, Bool.false_eq_true, if_false] at h
    obtain ⟨present, s₃, hpresent, h⟩ := Op.bind_ok h
    have hlog₃ : log s₃ = log s ++ approvalEvents app capability resource answer present := by
      rw [log_hasPassword hpresent, log_consoleReadLine hanswer, log_consoleWrite hwrite,
        List.append_assoc, List.append_assoc]
      rfl
    cases present with
    | false =>
      simp only [Bool.false_eq_true, if_false, Op.run_pure, Prod.mk.injEq, true_and] at h
      exact .unguarded answer hyes (h ▸ hlog₃)
    | true =>
      simp only [if_true] at h
      obtain ⟨password, s₄, hpassword, hverify⟩ := Op.bind_ok h
      obtain ⟨data, p, hread, haccepts, hs'⟩ := SecurityManager.verify_ok hverify
      refine .guarded answer password _ data s₄ hyes ?_ hverify (log_clock_read hread hs') haccepts
      rw [log_consoleReadLine hpassword, hlog₃]
      rfl

/-- The outcomes of `authorize`, with the record. The checks for the security file and for the declaration come before
    the question, so a refusal by them leaves no trace. -/
theorem authorize_cases {app : AppIdentity} {capability : Capability} {resource : Str}
    {s s' : System (Recorded σ)} {r : Except Error Unit}
    (h : System.authorize app capability resource s = (r, s')) :
    (r = .ok () ∧ Granted app (capability, resource) s s') ∨
      ∃ e ev, r = .error e ∧ log s' = log s ++ ev ∧ (∀ e ∈ ev, e.Authorizing) ∧
        (app.trusted = true → ev = []) := by
  -- what `authorize` refuses by itself, it refuses without asking anybody
  have hsame : ∀ {e : Error}, (.error e, s) = (r, s') →
      ∃ e ev, r = .error e ∧ log s' = log s ++ ev ∧ (∀ e ∈ ev, e.Authorizing) ∧
        (app.trusted = true → ev = []) := by
    intro e he
    obtain ⟨rfl, rfl⟩ := Prod.mk.inj he
    exact ⟨e, [], rfl, by rw [List.append_nil], by simp, fun _ => rfl⟩
  unfold System.authorize at h
  split at h
  · exact Or.inr (hsame h)
  case isFalse hopen =>
    split at h
    · exact Or.inr (hsame h)
    case isFalse hdeclared =>
      have hopen' : isSecurityResource resource = false := by simpa using hopen
      have hdeclared' : declares app capability = true := by simpa using hdeclared
      split at h
      case isTrue htrusted =>
        obtain ⟨rfl, rfl⟩ := Prod.mk.inj h
        exact Or.inl ⟨rfl, hopen', hdeclared',
          fun ht => absurd (htrusted.symm.trans ht) (by simp), fun _ => rfl⟩
      case isFalse htrusted =>
        cases r with
        | ok u =>
          exact Or.inl ⟨rfl, hopen', hdeclared', fun _ => approval_of_requestPermission h,
            fun ht => absurd ht htrusted⟩
        | error e =>
          obtain ⟨ev, hlog, hev⟩ := (emits_requestPermission app capability resource).of_run h
          exact Or.inr ⟨e, ev, rfl, hlog, hev, fun ht => absurd ht htrusted⟩

end Authorize

/-- A grant adds to the record what authorization asks, and nothing for a trusted application. -/
theorem log_of_granted [Platform σ] [Argon2] {app : AppIdentity} {demand : Capability × Str}
    {s s' : System (Recorded σ)} (h : Granted app demand s s') :
    ∃ ev, (log s' = log s ++ ev ∧ (app.trusted = true → ev = [])) ∧ ∀ e ∈ ev, e.Authorizing := by
  -- nothing for a trusted application; the question, the answer and the lookups for another
  cases htrusted : app.trusted with
  | true =>
    rw [h.trusted htrusted]
    exact ⟨[], ⟨by rw [List.append_nil], fun _ => rfl⟩, by simp⟩
  | false =>
    cases h.approved htrusted with
    | unguarded answer yes events =>
      refine ⟨_, ⟨events, fun ht => by cases ht⟩, ?_⟩
      simp [approvalEvents, Event.Authorizing]
    | guarded answer password now data mid yes asked verified events accepts =>
      rw [asked, List.append_assoc, List.append_assoc] at events
      refine ⟨_, ⟨events, fun ht => by cases ht⟩, ?_⟩
      simp [approvalEvents, Event.Authorizing]

/-! ## Calls -/

namespace AppSession

/-- `authorize` changes the system under the session and nothing else of it. -/
theorem authorize_eq [Platform σ] [Argon2] {capability : Capability} {resource : Str}
    {s s' : AppSession σ} {r : Except Error Unit}
    (h : authorize capability resource s = (r, s')) :
    ∃ y, System.authorize s.app capability resource s.system = (r, y) ∧
      s' = { s with system := y } := by
  unfold authorize at h
  rw [Op.run_bind, Op.run_read] at h
  exact Op.zoom_eq h

theorem resolve_eq {path : Str} (s : AppSession σ) :
    resolve path s = (normalizePath s.cwd path, s) := rfl

/-- A filesystem call on one path: the path does not resolve, or its use is refused, or the
    filesystem's operation runs on it. -/
theorem withPath_cases [Platform σ] [Argon2] {capability : Str → Capability} {path : Str}
    {act : Str → Op Error (Vfs σ) α} {s s' : AppSession σ} {r : Except Error α}
    (h : withPath capability path act s = (r, s')) :
    (∃ e, r = .error e ∧ s' = s ∧ normalizePath s.cwd path = .error e) ∨
      ∃ p y, normalizePath s.cwd path = .ok p ∧
        ((∃ e, System.authorize s.app (capability p) p s.system = (.error e, y) ∧
            r = .error e ∧ s' = { s with system := y }) ∨
          (System.authorize s.app (capability p) p s.system = (.ok (), y) ∧
            onVfs (act p) { s with system := y } = (r, s'))) := by
  unfold withPath at h
  rw [Op.run_bind, resolve_eq] at h
  -- the path is resolved first, and only then is its use put to the user
  cases hn : normalizePath s.cwd path with
  | error e =>
    rw [hn] at h
    obtain ⟨rfl, rfl⟩ := Prod.mk.inj h
    exact Or.inl ⟨e, rfl, rfl, rfl⟩
  | ok p =>
    rw [hn] at h
    rcases Op.bind_cases h with ⟨e, hauth, rfl⟩ | ⟨⟨⟩, s₁, hauth, hact⟩
    · obtain ⟨y, hy, rfl⟩ := authorize_eq hauth
      exact Or.inr ⟨p, y, rfl, Or.inl ⟨e, hy, rfl, rfl⟩⟩
    · obtain ⟨y, hy, rfl⟩ := authorize_eq hauth
      exact Or.inr ⟨p, y, rfl, Or.inr ⟨hy, hact⟩⟩

/-- A rename: a path does not resolve, or one of the two uses is refused, or the filesystem's
    operation runs. -/
theorem rename_cases [Platform σ] [Argon2] {source target : Str} {s s' : AppSession σ}
    {r : Except Error Unit} (h : rename source target s = (r, s')) :
    (∃ e, r = .error e ∧ s' = s) ∨
      ∃ p p' y, normalizePath s.cwd source = .ok p ∧ normalizePath s.cwd target = .ok p' ∧
        ((∃ e, System.authorize s.app (.fsWrite p) p s.system = (.error e, y) ∧
            r = .error e ∧ s' = { s with system := y }) ∨
          ∃ z, System.authorize s.app (.fsWrite p) p s.system = (.ok (), y) ∧
            ((∃ e, System.authorize s.app (.fsWrite p') p' y = (.error e, z) ∧
                r = .error e ∧ s' = { s with system := z }) ∨
              (System.authorize s.app (.fsWrite p') p' y = (.ok (), z) ∧
                onVfs (Vfs.rename p p') { s with system := z } = (r, s')))) := by
  unfold rename at h
  rw [Op.run_bind, resolve_eq] at h
  cases hn : normalizePath s.cwd source with
  | error e =>
    rw [hn] at h
    obtain ⟨rfl, rfl⟩ := Prod.mk.inj h
    exact Or.inl ⟨e, rfl, rfl⟩
  | ok p =>
    simp only [hn] at h
    rw [Op.run_bind, resolve_eq] at h
    cases hn' : normalizePath s.cwd target with
    | error e =>
      rw [hn'] at h
      obtain ⟨rfl, rfl⟩ := Prod.mk.inj h
      exact Or.inl ⟨e, rfl, rfl⟩
    | ok p' =>
      simp only [hn'] at h
      rcases Op.bind_cases h with ⟨e, hauth, rfl⟩ | ⟨⟨⟩, s₁, hauth, h⟩
      · obtain ⟨y, hy, rfl⟩ := authorize_eq hauth
        exact Or.inr ⟨p, p', y, rfl, rfl, Or.inl ⟨e, hy, rfl, rfl⟩⟩
      obtain ⟨y, hy, rfl⟩ := authorize_eq hauth
      rcases Op.bind_cases h with ⟨e, hauth', rfl⟩ | ⟨⟨⟩, s₂, hauth', h⟩
      · obtain ⟨z, hz, rfl⟩ := authorize_eq hauth'
        exact Or.inr ⟨p, p', y, rfl, rfl, Or.inr ⟨z, hy, Or.inl ⟨e, hz, rfl, rfl⟩⟩⟩
      · obtain ⟨z, hz, rfl⟩ := authorize_eq hauth'
        exact Or.inr ⟨p, p', y, rfl, rfl, Or.inr ⟨z, hy, Or.inr ⟨hz, h⟩⟩⟩

/-- At most one call, and that one an effect. -/
theorem effects_of_atMostOne {request : ApiCall} {resources : List Str} {E : Event → Prop}
    {x : Op Error (Vfs (Recorded σ)) α} (hx : Op.Emits (Vfs.AtMostOne E) x)
    (hE : ∀ e, E e → EffectFor request resources e) :
    Op.Emits (fun ev => ∀ e ∈ ev, EffectFor request resources e) x := by
  apply hx.mono
  rintro ev (rfl | ⟨e, rfl, he⟩)
  · simp
  · intro e' he'
    rw [List.mem_singleton.mp he']
    exact hE e he

variable [Platform σ] [Argon2]

/-- A call whose one demand has been put to `authorize`, and the rest of it. It is the shape of the calls that have no
    path. -/
theorem mediated_of_authorize {request : ApiCall} {capability : Capability} {resource : Str}
    {x : Op Error (AppSession (Recorded σ)) ApiValue} {s s' : AppSession (Recorded σ)}
    {r : Except Error ApiValue}
    (hd : request.demands s.cwd = .ok [(capability, resource)])
    (hx : Op.Emits (fun ev => ∀ e ∈ ev, EffectFor request [resource] e) x)
    (h : (do authorize capability resource; x) s = (r, s')) : Mediated request s r s' := by
  -- refused, or granted and then the rest of the call
  rcases Op.bind_cases h with ⟨e, hauth, rfl⟩ | ⟨⟨⟩, s₁, hauth, hrest⟩
  · obtain ⟨y, hy, rfl⟩ := authorize_eq hauth
    rcases authorize_cases hy with ⟨hok, -⟩ | ⟨e', ev, -, hlog, hev, htr⟩
    · cases hok
    · exact .refused e ev rfl hlog hev htr
  · obtain ⟨y, hy, rfl⟩ := authorize_eq hauth
    rcases authorize_cases hy with ⟨-, hgranted⟩ | ⟨e', ev, herr, -⟩
    · obtain ⟨ev, hlog, hev⟩ := hx.of_run hrest
      exact .granted [(capability, resource)] y ev hd (.cons hgranted (.nil y)) hlog hev
    · cases herr

/-- A filesystem call on one path, which is resolved before it is put to `authorize`. -/
theorem mediated_withPath {request : ApiCall} {capability : Str → Capability} {path : Str}
    {act : Str → Op Error (Vfs (Recorded σ)) α} {f : α → ApiValue}
    {s s' : AppSession (Recorded σ)} {r : Except Error ApiValue}
    (hd : request.demands s.cwd = ApiCall.pathDemand capability s.cwd path)
    (hact : ∀ p, Op.Emits (fun ev => ∀ e ∈ ev, EffectFor request [p] e) (act p))
    (h : (f <$> withPath capability path act) s = (r, s')) : Mediated request s r s' := by
  -- an error before anything was asked
  have herror : ∀ {e : Error}, r = .error e → s' = s → Mediated request s r s' := by
    intro e hr hs
    subst hs
    exact .refused e [] hr (by rw [List.append_nil]) (by simp) fun _ => rfl
  -- whatever the answer is turned into, an error stays an error
  have hmain : ∀ {q : Except Error α}, withPath capability path act s = (q, s') →
      (∀ e, q = .error e → r = .error e) → Mediated request s r s' := by
    intro q hq hr
    rcases withPath_cases hq with ⟨e, rfl, hs, -⟩ | ⟨p, y, hn, ⟨e, hauth, rfl, rfl⟩ | ⟨hauth, hrun⟩⟩
    · exact herror (hr e rfl) hs
    · rcases authorize_cases hauth with ⟨hok, -⟩ | ⟨e', ev, -, hlog, hev, htr⟩
      · cases hok
      · exact .refused e ev (hr e rfl) hlog hev htr
    · rcases authorize_cases hauth with ⟨-, hgranted⟩ | ⟨e', ev, herr, -⟩
      · obtain ⟨ev, hlog, hev⟩ := (emits_onVfs (hact p)).of_run hrun
        refine .granted [(capability p, p)] y ev ?_ (.cons hgranted (.nil y)) hlog hev
        rw [hd, ApiCall.pathDemand, hn]
        rfl
      · cases herr
  rcases Op.map_cases h with ⟨e, hq, rfl⟩ | ⟨a, hq, rfl⟩
  · exact hmain hq fun e' he => by cases he; rfl
  · exact hmain hq fun e' he => by cases he

/-- The call with two demands. Both are put to the user before anything is moved. -/
theorem mediated_rename {source target : Str} {s s' : AppSession (Recorded σ)}
    {r : Except Error ApiValue} (h : call (.rename source target) s = (r, s')) :
    Mediated (.rename source target) s r s' := by
  have hmain : ∀ {t : Except Error Unit}, rename source target s = (t, s') →
      (∀ e, t = .error e → r = .error e) → Mediated (.rename source target) s r s' := by
    intro t ht hr
    rcases rename_cases ht with ⟨e, rfl, rfl⟩ | ⟨p, p', y, hn, hn', hrest⟩
    · exact .refused e [] (hr e rfl) (by rw [List.append_nil]) (by simp) fun _ => rfl
    rcases hrest with ⟨e, hy, rfl, rfl⟩ | ⟨y', hy, hrest⟩
    · rcases authorize_cases hy with ⟨hok, -⟩ | ⟨e', ev, -, hlog, hev, htr⟩
      · cases hok
      · exact .refused e ev (hr e rfl) hlog hev htr
    rcases authorize_cases hy with ⟨-, hfirst⟩ | ⟨e', ev, herr, -⟩
    swap
    · cases herr
    rcases hrest with ⟨e, hy', rfl, rfl⟩ | ⟨hy', hrun⟩
    · -- the first path was granted and the second refused: nothing but questions so far
      rcases authorize_cases hy' with ⟨hok, -⟩ | ⟨e', ev', -, hlog', hev', htr'⟩
      · cases hok
      obtain ⟨ev, hlog, hev⟩ := log_of_granted hfirst
      refine .refused e (ev ++ ev') (hr e rfl) ?_ ?_ ?_
      · show log y' = log s.system ++ (ev ++ ev')
        rw [hlog', hlog.1, List.append_assoc]
      · intro e' he'
        rcases List.mem_append.mp he' with he' | he'
        · exact hev e' he'
        · exact hev' e' he'
      · intro ht
        rw [hlog.2 ht, htr' ht]
        rfl
    · rcases authorize_cases hy' with ⟨-, hsecond⟩ | ⟨e', ev', herr, -⟩
      · have hact : Op.Emits (fun ev => ∀ e ∈ ev, EffectFor (.rename source target) [p, p'] e)
            (Vfs.rename (σ := Recorded σ) p p') := by
          apply effects_of_atMostOne (Vfs.emits_rename p p')
          rintro e ⟨q, q', res, hq, hq', rfl⟩
          exact .rename hq hq'
        obtain ⟨ev, hlog, hev⟩ := (emits_onVfs hact).of_run hrun
        refine .granted [(.fsWrite p, p), (.fsWrite p', p')] y' ev ?_
          (.cons hfirst (.cons hsecond (.nil y'))) hlog hev
        simp only [ApiCall.demands, hn, hn']
        rfl
      · cases herr
  rcases Op.map_cases h with ⟨e, ht, rfl⟩ | ⟨a, ht, rfl⟩
  · exact hmain ht fun e' he => by cases he; rfl
  · exact hmain ht fun e' he => by cases he

/-- Every protected call has one of the two shapes, whatever the platform and the user answer. -/
theorem call_mediated {request : ApiCall} (hp : request.isProtected = true)
    {s s' : AppSession (Recorded σ)} {r : Except Error ApiValue}
    (h : call request s = (r, s')) : Mediated request s r s' := by
  -- six calls on storage, two on the machine, and the one that connects
  cases request with
  | readText path =>
    refine mediated_withPath rfl (fun p => ?_) h
    apply effects_of_atMostOne (Vfs.emits_readText p)
    rintro e ⟨q, res, hq, rfl⟩
    exact .readText hq
  | writeText path text =>
    refine mediated_withPath rfl (fun p => ?_) h
    apply effects_of_atMostOne (Vfs.emits_write p _)
    rintro e ⟨q, res, hq, rfl⟩
    exact .writeText hq
  | list path =>
    refine mediated_withPath rfl (fun p => ?_) h
    apply effects_of_atMostOne (Vfs.emits_list p)
    rintro e ⟨q, res, hq, rfl⟩
    exact .list hq
  | createDirAll path =>
    refine mediated_withPath rfl (fun p => ?_) h
    apply effects_of_atMostOne (Vfs.emits_createDirAll p)
    rintro e ⟨q, res, hq, rfl⟩
    exact .createDirAll hq
  | remove path =>
    refine mediated_withPath rfl (fun p => ?_) h
    apply effects_of_atMostOne (Vfs.emits_remove p)
    rintro e ⟨q, res, hq, rfl⟩
    exact .remove hq
  | rename source target => exact mediated_rename h
  | monotonicMillis =>
    unfold call monotonicMillis at h
    rw [Op.map_bind] at h
    refine mediated_of_authorize rfl ?_ h
    intro t
    refine ⟨[_], rfl, ?_⟩
    intro e he
    rw [List.mem_singleton.mp he]
    exact .monotonicMillis
  | systemInfo =>
    unfold call systemInfo at h
    rw [Op.map_bind] at h
    refine mediated_of_authorize rfl ?_ h
    intro t
    refine ⟨[_], rfl, ?_⟩
    intro e he
    rw [List.mem_singleton.mp he]
    exact .systemInfo
  | netConnect host port =>
    simp only [call, netConnect] at h
    by_cases hhost : host = []
    · simp only [if_pos hhost] at h
      obtain ⟨rfl, rfl⟩ := Prod.mk.inj h
      exact .refused _ [] rfl (by rw [List.append_nil]) (by simp) fun _ => rfl
    · simp only [if_neg hhost, Op.map_bind] at h
      refine mediated_of_authorize (by simp only [ApiCall.demands, if_neg hhost]) ?_ h
      apply Op.Emits.bind
      · intro t
        refine ⟨[_], rfl, ?_⟩
        intro e he
        rw [List.mem_singleton.mp he]
        exact .netConnect
      · intro handle t
        exact ⟨[], (List.append_nil _).symm, by simp⟩
  | _ => cases hp

end AppSession

end Afos
