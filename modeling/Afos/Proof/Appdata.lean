import Afos.App
import Afos.Machine
import Afos.Proof.Effects

/-!
# Private application data

Each application has a directory of its own, and the calls that reach it are authorized by
nothing but the shape of the path. The argument has three steps: the id is one name; what a
path resolves to has the directory's names in front; and the filesystem, normalizing once more,
reads that path as it stands.

The last step is where a dot id breaks it. `normalizePath` copies the names of the directory it
is given, so for the id `..` the resolved path still has the dots in it. It passes the prefix
test as text, and the second normalization then takes them for what they mean. The ids `.` and
`..` are the only ones of that kind, and both are accepted.
-/

set_option autoImplicit false

namespace Afos

open Lib

/-! ## The id of an accepted application -/

/-- The stem of a source path is a name: it is not empty and has no slash. It may still be a dot or two, which no test
    of the source catches. -/
theorem isName_fileStem {sourcePath stem : Str} (h : fileStem sourcePath = some stem) :
    IsName stem := by
  have hlast : '/' ∉ lastName sourcePath :=
    slash_notMem_of_mem_splitOn (List.getLast_mem (List.splitOn_ne_nil _ _))
  unfold fileStem at h
  -- without a dot the whole name is the stem, with one it is what is before the last
  cases hdot : rsplitOnce '.' (lastName sourcePath) with
  | none =>
    simp only [hdot] at h
    split at h
    · cases h
    case isFalse hne =>
      cases h
      exact ⟨hne, hlast⟩
  | some ab =>
    simp only [hdot] at h
    split at h
    · cases h
    case isFalse hne =>
      cases h
      refine ⟨hne, fun hmem => hlast ?_⟩
      rw [(rsplitOnce_eq_some_iff.mp hdot).1]
      exact List.mem_append_left _ hmem

namespace Header

/-- An id that a directive sets is a name, because its characters are checked. -/
theorem setId_isName {header header' : Header} {value : Str}
    (h : header.setId value = .ok header') : IsName header'.id := by
  unfold setId at h
  split at h
  · cases h
  case isFalse hok =>
    cases h
    rw [not_or] at hok
    refine ⟨hok.1, fun hmem => hok.2 ?_⟩
    -- a slash is no character of an id
    have hall : (trim value).all isIdChar = false := by
      rw [List.all_eq_false]
      exact ⟨'/', hmem, by decide⟩
    rw [hall]
    rfl

theorem addCapabilities_id {header header' : Header} {value : Str}
    (h : header.addCapabilities value = .ok header') : header'.id = header.id := by
  unfold addCapabilities at h
  generalize ((value.splitOn ',').map trim).filter (· ≠ []) = items at h
  -- by the capabilities, none of which touches the id
  induction items generalizing header with
  | nil =>
    cases h
    rfl
  | cons item items ih =>
    rw [List.foldlM_cons] at h
    cases hc : parseCapability item with
    | error e =>
      rw [hc] at h
      cases h
    | ok capability =>
      rw [hc] at h
      have hrest := @ih { header with capabilities := header.capabilities ++ [capability] } h
      exact hrest

theorem directive_isName {header header' : Header} {key value : Str} (h : IsName header.id)
    (hd : header.directive key value = .ok header') : IsName header'.id := by
  unfold directive at hd
  -- api, id and capabilities: only one sets the id, and that one checks it
  split at hd
  · unfold setApi at hd
    split at hd
    · cases hd
    · split at hd
      · cases hd
      · cases hd
        exact h
  split at hd
  · exact setId_isName hd
  split at hd
  · rw [addCapabilities_id hd]
    exact h
  · cases hd

/-- Whatever the header says, the id stays a name: the default is one, and what a directive sets has passed its
    test. -/
theorem parseLines_isName {ls : List Str} {header header' : Header} (h : IsName header.id)
    (hp : parseLines ls header = .ok header') : IsName header'.id := by
  -- by the lines, up to the first that is neither a comment nor empty
  induction ls generalizing header with
  | nil =>
    cases hp
    exact h
  | cons line ls ih =>
    simp only [parseLines] at hp
    split at hp
    · exact ih h hp
    split at hp
    · split at hp
      · exact ih h hp
      · cases hp
        exact h
    · split at hp
      · cases hp
      case h_2 key value _ =>
        cases hd : header.directive (trim key) value with
        | error e =>
          rw [hd] at hp
          cases hp
        | ok next =>
          rw [hd] at hp
          exact ih (directive_isName h hd) hp

end Header

/-- The id of an accepted application is one name. That it is not a dot name is not checked anywhere. -/
theorem isName_id {sourcePath source : Str} {trusted : Bool} {app : AppIdentity}
    (h : parseMetadata sourcePath source trusted = .ok app) : IsName app.id := by
  unfold parseMetadata at h
  cases hs : fileStem sourcePath with
  | none =>
    rw [hs] at h
    cases h
  | some stem =>
    rw [hs] at h
    simp only at h
    cases hp : Header.parseLines (lines source) ⟨stem, 1, []⟩ with
    | error e =>
      rw [hp] at h
      cases h
    | ok header =>
      rw [hp] at h
      cases h
      exact Header.parseLines_isName (isName_fileStem hs) hp

/-! ## Resolving a path of the private directory -/

/-- The names of the private directory. For a dot id these are not the names of a directory that is there. -/
def appdataNames (id : Str) : List Str := ["user".toList, "appdata".toList, id]

theorem appdataRootOf_eq (app : AppIdentity) :
    appdataRootOf app = '/' :: join (appdataNames app.id) := by
  rw [appdataNames, join_cons_cons, join_cons_cons, join_singleton]
  rfl

theorem isName_appdataNames {id : Str} (h : IsName id) : ∀ c ∈ appdataNames id, IsName c := by
  intro c hc
  simp only [appdataNames, List.mem_cons, List.not_mem_nil, or_false] at hc
  rcases hc with rfl | rfl | rfl
  · decide
  · decide
  · exact h

/-- What a path resolves to: the names of the directory, and then more. All of them are ordinary, except for an id
    that is not. -/
theorem resolveAppdata_names {app : AppIdentity} (hid : IsName app.id) {path p : Str}
    (hn : normalizePath (appdataRootOf app) path = .ok p)
    (hpre : pathPrefix (appdataRootOf app) p = true) :
    ∃ out, p = '/' :: join out ∧ appdataNames app.id <+: out ∧
      ∀ c ∈ out, IsOrdinary c ∨ c ∈ appdataNames app.id := by
  obtain ⟨-, out, hfold, rfl⟩ := normalizePath_ok_iff.mp hn
  -- a name of the result was in the directory's, or was pushed by the loop
  have hout : ∀ c ∈ out, (IsOrdinary c ∨ c ∈ appdataNames app.id) ∧ IsName c := by
    intro c hc
    rcases mem_of_foldlM_pushComponent hfold hc with hc | ⟨hc, hne, hdot, hdots⟩
    · have hroot : c ∈ appdataNames app.id := by
        unfold startNames at hc
        split at hc
        · cases hc
        · rwa [appdataRootOf_eq, names_slash, names_join (isName_appdataNames hid)] at hc
      exact ⟨Or.inr hroot, isName_appdataNames hid c hroot⟩
    · have hname : IsName c := ⟨hne, slash_notMem_of_mem_splitOn hc⟩
      exact ⟨Or.inl ⟨hname, hdot, hdots⟩, hname⟩
  refine ⟨out, rfl, ?_, fun c hc => (hout c hc).1⟩
  rw [appdataRootOf_eq] at hpre
  exact (pathPrefix_iff (isName_appdataNames hid) fun c hc => (hout c hc).2).mp hpre

/-- The filesystem reads a path of ordinary names as it stands, or not at all. For other paths it does not, and that
    is the gap. -/
theorem names_of_ordinary {out : List Str} (ho : ∀ c ∈ out, IsOrdinary c) {q : Str}
    (h : Names ('/' :: join out) q) : q = join out := by
  obtain ⟨⟨hnul, hback⟩, -⟩ := normalizePath_ok_iff.mp h
  have hplain : ∀ c ∈ out, Plain c := by
    intro c hc
    refine ⟨ho c hc, fun hx => hnul ?_, fun hx => hback ?_⟩
    · exact List.mem_cons_of_mem _ (mem_join_of_mem hc hx)
    · exact List.mem_cons_of_mem _ (mem_join_of_mem hc hx)
  unfold Names at h
  rw [normalizePath_slash_join hplain] at h
  exact ((List.cons.inj (Except.ok.inj h)).2).symm

/-- For an ordinary id the storage path begins with the names of the directory. -/
theorem appdata_prefix {app : AppIdentity} (hid : IsOrdinary app.id) {out : List Str}
    (hpre : appdataNames app.id <+: out)
    (hout : ∀ c ∈ out, IsOrdinary c ∨ c ∈ appdataNames app.id) {q : Str}
    (hq : Names ('/' :: join out) q) : appdataNames app.id <+: q.splitOn '/' := by
  have ho : ∀ c ∈ out, IsOrdinary c := by
    intro c hc
    rcases hout c hc with h | h
    · exact h
    · simp only [appdataNames, List.mem_cons, List.not_mem_nil, or_false] at h
      rcases h with rfl | rfl | rfl
      · decide
      · decide
      · exact hid
  have hne : out ≠ [] := by
    rintro rfl
    cases List.prefix_nil.mp hpre
  rw [names_of_ordinary ho hq, splitOn_join (fun c hc => (ho c hc).1) hne]
  exact hpre

/-! ## Confinement -/

def ApiCall.isAppdata : ApiCall → Bool
  | .appdataRead _ | .appdataWrite _ _ => true
  | _ => false

/-- A session of this application, with the directory that its id gives. Both are fixed when the session is made, and
    no call changes them. -/
structure AppSession.IsOf {σ : Type} (s : AppSession σ) (app : AppIdentity) : Prop where
  identity : s.app = app
  root : s.appdataRoot = appdataRootOf app

theorem AppSession.isOf_new {σ : Type} (system : System σ) (app : AppIdentity) (args : List Str)
    (cwd : Str) : (AppSession.new system app args cwd).IsOf app := ⟨rfl, rfl⟩

/-- The application's data calls fail, or touch storage only below its own directory, on every platform and in every
    state. -/
def Confined (app : AppIdentity) : Prop :=
  ∀ (σ : Type) [Platform σ] [Argon2] (s : AppSession (Recorded σ)) (request : ApiCall),
    s.IsOf app → request.isAppdata = true →
      (∃ e, (AppSession.call request s).1 = .error e) ∨
        ∀ ev, log (AppSession.call request s).2 = log s ++ ev →
          ∀ e ∈ ev, ∀ q ∈ e.storagePaths, appdataNames app.id <+: q.splitOn '/'

/-- Some data call of the application, on some machine, touches this storage path. With two applications it says
    whether they can get in each other's way. -/
def Touches (app : AppIdentity) (q : Str) : Prop :=
  ∃ (σ : Type) (_ : Platform σ) (_ : Argon2) (s : AppSession (Recorded σ)) (request : ApiCall)
    (ev : List Event) (e : Event), s.IsOf app ∧ request.isAppdata = true ∧
      log (AppSession.call request s).2 = log s ++ ev ∧ e ∈ ev ∧ q ∈ e.storagePaths

namespace AppSession

variable {σ α : Type}

theorem resolveAppdata_cases {path : Str} {s s' : AppSession σ} {r : Except Error Str}
    (h : resolveAppdata path s = (r, s')) :
    s' = s ∧ ∀ p, r = .ok p →
      normalizePath s.appdataRoot path = .ok p ∧ pathPrefix s.appdataRoot p = true := by
  unfold resolveAppdata at h
  rw [Op.run_bind, Op.run_read] at h
  -- the path does not resolve, or is outside as text, or is accepted
  cases hn : normalizePath s.appdataRoot path with
  | error e =>
    simp only [hn, Op.run_bind, Op.run_ofExcept] at h
    obtain ⟨rfl, rfl⟩ := Prod.mk.inj h
    exact ⟨rfl, fun p hp => by cases hp⟩
  | ok resolved =>
    simp only [hn, Op.run_bind, Op.run_ofExcept] at h
    cases hpre : pathPrefix s.appdataRoot resolved with
    | false =>
      simp only [hpre, Bool.not_false, if_true] at h
      obtain ⟨rfl, rfl⟩ := Prod.mk.inj h
      exact ⟨rfl, fun p hp => by cases hp⟩
    | true =>
      simp only [hpre, Bool.not_true, Bool.false_eq_true, if_false] at h
      obtain ⟨rfl, rfl⟩ := Prod.mk.inj h
      refine ⟨rfl, fun p hp => ?_⟩
      cases hp
      exact ⟨rfl, hpre⟩

/-- The events of a filesystem operation that touches only what a path names. -/
theorem confined_of_atMostOne {E : Event → Prop} {x : Op Error (Vfs (Recorded σ)) α}
    {Q : Str → Prop} (hx : Op.Emits (Vfs.AtMostOne E) x)
    (hE : ∀ e, E e → ∀ q ∈ e.storagePaths, Q q) :
    Op.Emits (fun ev => ∀ e ∈ ev, ∀ q ∈ e.storagePaths, Q q) (onVfs x) := by
  apply emits_onVfs
  apply hx.mono
  rintro ev (rfl | ⟨e, rfl, he⟩)
  · simp
  · intro e' he'
    rw [List.mem_singleton.mp he']
    exact hE e he

variable [Platform σ] [Argon2]

/-- Every data call of an application with an ordinary id stays below its directory, whether it succeeds or not. -/
theorem appdata_confined {app : AppIdentity} (hid : IsOrdinary app.id)
    {s : AppSession (Recorded σ)} (hs : s.IsOf app) {request : ApiCall}
    (hr : request.isAppdata = true) :
    ∃ ev, log (call request s).2 = log s ++ ev ∧
      ∀ e ∈ ev, ∀ q ∈ e.storagePaths, appdataNames app.id <+: q.splitOn '/' := by
  -- a resolved path, and the directory itself, are read as paths below the directory
  have hnames : ∀ {path p : Str}, normalizePath s.appdataRoot path = .ok p →
      pathPrefix s.appdataRoot p = true → ∀ q, Names p q →
        appdataNames app.id <+: q.splitOn '/' := by
    intro path p hn hpre q hq
    rw [hs.root] at hn hpre
    obtain ⟨out, rfl, hout, hmem⟩ := resolveAppdata_names hid.1 hn hpre
    exact appdata_prefix hid hout hmem hq
  -- the write first makes the directory itself
  have hroot : ∀ q, Names s.appdataRoot q → appdataNames app.id <+: q.splitOn '/' := by
    intro q hq
    rw [hs.root, appdataRootOf_eq] at hq
    exact appdata_prefix hid (List.prefix_refl _) (fun c hc => Or.inr hc) hq
  have hstay : ∀ {path : Str} {r : Except Error Str} {s' : AppSession (Recorded σ)},
      resolveAppdata path s = (r, s') → ∃ ev, log s' = log s ++ ev ∧
        ∀ e ∈ ev, ∀ q ∈ e.storagePaths, appdataNames app.id <+: q.splitOn '/' := by
    intro path r s' h
    rw [(resolveAppdata_cases h).1]
    exact ⟨[], by rw [List.append_nil], by simp⟩
  cases request with
  | appdataRead path =>
    rw [call, Op.snd_map, appdataRead, Op.run_bind]
    cases h : resolveAppdata path s with
    | mk r s' =>
      cases r with
      | error e => exact hstay h
      | ok p =>
        obtain ⟨rfl, hp⟩ := resolveAppdata_cases h
        refine confined_of_atMostOne (Vfs.emits_readText p) ?_ s'
        rintro e ⟨q, res, hq, rfl⟩ q' hq'
        rw [Event.storagePaths, List.mem_singleton] at hq'
        rw [hq']
        exact hnames (hp p rfl).1 (hp p rfl).2 q hq
  | appdataWrite path text =>
    rw [call, Op.snd_map, appdataWrite, Op.run_bind]
    cases h : resolveAppdata path s with
    | mk r s' =>
      cases r with
      | error e => exact hstay h
      | ok p =>
        obtain ⟨rfl, hp⟩ := resolveAppdata_cases h
        refine Op.Emits.bind (P := fun e => ∀ q ∈ e.storagePaths,
          appdataNames app.id <+: q.splitOn '/')
          (confined_of_atMostOne (Vfs.emits_createDirAll s'.appdataRoot) ?_) (fun _ =>
            confined_of_atMostOne (Vfs.emits_write p (asBytes text)) ?_) s'
        · rintro e ⟨q, res, hq, rfl⟩ q' hq'
          rw [Event.storagePaths, List.mem_singleton] at hq'
          rw [hq']
          exact hroot q hq
        · rintro e ⟨q, res, hq, rfl⟩ q' hq'
          rw [Event.storagePaths, List.mem_singleton] at hq'
          rw [hq']
          exact hnames (hp p rfl).1 (hp p rfl).2 q hq
  | _ => cases hr

end AppSession

theorem confined_of_ordinary {app : AppIdentity} (hid : IsOrdinary app.id) : Confined app := by
  intro σ _ _ s request hs hr
  refine Or.inr ?_
  intro ev hev
  obtain ⟨ev', hev', hall⟩ := AppSession.appdata_confined hid hs hr
  rw [List.append_cancel_left (hev.symm.trans hev')]
  exact hall

theorem prefix_of_touches {app : AppIdentity} (hid : IsOrdinary app.id) {q : Str}
    (h : Touches app q) : appdataNames app.id <+: q.splitOn '/' := by
  obtain ⟨σ, _, _, s, request, ev, e, hs, hr, hev, he, hq⟩ := h
  obtain ⟨ev', hev', hall⟩ := AppSession.appdata_confined hid hs hr
  rw [List.append_cancel_left (hev.symm.trans hev')] at he
  exact hall e he q hq

theorem appdataNames_injective {id id' : Str} {l : List Str} (h : appdataNames id <+: l)
    (h' : appdataNames id' <+: l) : id = id' := by
  have heq := List.prefix_of_prefix_length_le h h' (by simp [appdataNames])
  have hlist := heq.eq_of_length (by simp [appdataNames])
  simpa [appdataNames] using hlist

/-! ## Dot ids -/

section Dot

attribute [local instance] lengthArgon2

/-- A session of an application on a backend that agrees to everything, so that a call gets as far as the paths let
    it. -/
def obligingSession (app : AppIdentity) : AppSession (Recorded Obliging) :=
  AppSession.new (System.new ⟨⟨⟩, []⟩) app [] "/user".toList

/-- A path that resolves, textually below the directory, to one the filesystem passes on: the
    write succeeds, at the storage path the filesystem reads. -/
theorem run_appdataWrite_obliging {app : AppIdentity} {path p q q' : Str}
    (hn : normalizePath (appdataRootOf app) path = .ok p)
    (hpre : pathPrefix (appdataRootOf app) p = true) (hroot : Routes (appdataRootOf app) q)
    (hp : Routes p q') :
    (AppSession.call (.appdataWrite path []) (obligingSession app)).1 = .ok .unit ∧
      log (AppSession.call (.appdataWrite path []) (obligingSession app)).2 =
        log (obligingSession app) ++
          [.storageCreateDirAll q (.ok ()), .storageWrite q' [] (.ok ())] := by
  -- the two routes are given, so that the run can be followed to its end
  have hres : AppSession.resolveAppdata path (obligingSession app) =
      (.ok p, obligingSession app) := by
    have hcwd : (obligingSession app).appdataRoot = appdataRootOf app := rfl
    unfold AppSession.resolveAppdata
    rw [Op.run_bind, Op.run_read]
    simp only [hcwd, hn, hpre, Op.run_bind, Op.run_ofExcept, Bool.not_true, Bool.false_eq_true,
      if_false, Op.run_pure]
  have hdir : (Vfs.createDirAll (obligingSession app).appdataRoot :
      Op Error (Vfs (Recorded Obliging)) Unit) = _ := Vfs.routed_of_routes hroot _ _
  have hwrite : (Vfs.write p (asBytes []) : Op Error (Vfs (Recorded Obliging)) Unit) = _ :=
    Vfs.routed_of_routes hp _ _
  simp only [AppSession.call, AppSession.appdataWrite, Op.run_map, Op.run_bind, hres, Op.run_read,
    hdir, hwrite]
  exact ⟨rfl, rfl⟩

/-- An application with a dot id writes outside its directory, because the filesystem resolves the dot that the
    session has left in the path. -/
theorem not_confined_of_dot {app : AppIdentity}
    (hid : app.id = ".".toList ∨ app.id = "..".toList) : ¬ Confined app := by
  intro hconf
  have hescape : ∀ {p q q' : Str}, normalizePath (appdataRootOf app) "x".toList = .ok p →
      pathPrefix (appdataRootOf app) p = true → Routes (appdataRootOf app) q → Routes p q' →
      appdataNames app.id <+: q'.splitOn '/' := by
    intro p q q' hn hpre hroot hp
    obtain ⟨hok, hlog⟩ := run_appdataWrite_obliging hn hpre hroot hp
    rcases hconf Obliging (obligingSession app) (.appdataWrite "x".toList [])
        (AppSession.isOf_new _ _ _ _) rfl with ⟨e, he⟩ | hall
    · rw [hok] at he
      cases he
    · exact hall _ hlog (.storageWrite q' [] (.ok ())) (by simp) q' (by simp [Event.storagePaths])
  have hrootEq : appdataRootOf app = "/user/appdata/".toList ++ app.id := rfl
  rw [hrootEq] at hescape
  -- for `.` the second normalization drops a name, for `..` it drops two
  rcases hid with hid | hid
  · rw [hid] at hescape
    have hbad := @hescape "/user/appdata/./x".toList "user/appdata".toList
      "user/appdata/x".toList (by decide) (by decide) (by decide) (by decide)
    exact absurd hbad (by decide)
  · rw [hid] at hescape
    have hbad := @hescape "/user/appdata/../x".toList "user".toList "user/x".toList
      (by decide) (by decide) (by decide) (by decide)
    exact absurd hbad (by decide)

end Dot

/-- Two accepted applications keep to their directories, and out of each other's, exactly when
    neither is called `.` or `..`. -/
theorem appdata_private_iff {sourcePath₁ source₁ sourcePath₂ source₂ : Str}
    {trusted₁ trusted₂ : Bool} {app₁ app₂ : AppIdentity}
    (h₁ : parseMetadata sourcePath₁ source₁ trusted₁ = .ok app₁)
    (h₂ : parseMetadata sourcePath₂ source₂ trusted₂ = .ok app₂) :
    (Confined app₁ ∧ Confined app₂ ∧
        (app₁.id ≠ app₂.id → ∀ q, Touches app₁ q → ¬ Touches app₂ q)) ↔
      (app₁.id ≠ ".".toList ∧ app₁.id ≠ "..".toList) ∧
        (app₂.id ≠ ".".toList ∧ app₂.id ≠ "..".toList) := by
  constructor
  · rintro ⟨hc₁, hc₂, -⟩
    refine ⟨⟨?_, ?_⟩, ?_, ?_⟩
    · intro h
      exact not_confined_of_dot (Or.inl h) hc₁
    · intro h
      exact not_confined_of_dot (Or.inr h) hc₁
    · intro h
      exact not_confined_of_dot (Or.inl h) hc₂
    · intro h
      exact not_confined_of_dot (Or.inr h) hc₂
  · rintro ⟨hd₁, hd₂⟩
    have ho₁ : IsOrdinary app₁.id := ⟨isName_id h₁, hd₁⟩
    have ho₂ : IsOrdinary app₂.id := ⟨isName_id h₂, hd₂⟩
    refine ⟨confined_of_ordinary ho₁, confined_of_ordinary ho₂, ?_⟩
    intro hne q ht₁ ht₂
    exact hne (appdataNames_injective (prefix_of_touches ho₁ ht₁) (prefix_of_touches ho₂ ht₂))

/-- The identity that a source asking to be called `..` gets. -/
def dotdotApp : AppIdentity where
  id := "..".toList
  sourcePath := "/apps/x.rhai".toList
  trusted := false
  apiVersion := 1
  capabilities := []

theorem dotdot_app_not_confined :
    parseMetadata "/apps/x.rhai".toList "// afos:id=..\n".toList false = .ok dotdotApp ∧
      ¬ Confined dotdotApp :=
  ⟨by decide, not_confined_of_dot (Or.inr rfl)⟩

theorem appdata_private_iff_two_apps :
    ∃ app₁ app₂, parseMetadata "/apps/a.rhai".toList [] false = .ok app₁ ∧
      parseMetadata "/apps/b.rhai".toList [] false = .ok app₂ ∧
      ((Confined app₁ ∧ Confined app₂ ∧
          (app₁.id ≠ app₂.id → ∀ q, Touches app₁ q → ¬ Touches app₂ q)) ↔
        (app₁.id ≠ ".".toList ∧ app₁.id ≠ "..".toList) ∧
          (app₂.id ≠ ".".toList ∧ app₂.id ≠ "..".toList)) := by
  have h₁ : parseMetadata "/apps/a.rhai".toList [] false =
      .ok ⟨"a".toList, "/apps/a.rhai".toList, false, 1, []⟩ := by decide
  have h₂ : parseMetadata "/apps/b.rhai".toList [] false =
      .ok ⟨"b".toList, "/apps/b.rhai".toList, false, 1, []⟩ := by decide
  exact ⟨_, _, h₁, h₂, appdata_private_iff h₁ h₂⟩

end Afos
