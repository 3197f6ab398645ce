import Afos.Lib.Trace
import Afos.Recorded
import Afos.Proof.Path

/-!
# The platform calls behind an operation

Over a recording platform, what each filesystem operation asks of the backend: nothing, or one
call at the storage path that its argument names. The lookups of the password verifier are the
same two calls each time, and `verify` accepts exactly what the verifier's bytes say.
-/

set_option autoImplicit false

namespace Afos

open Lib

variable {σ α : Type}

instance : HasLog (Vfs (Recorded σ)) Event := ⟨fun v => v.platform.log⟩

instance : HasLog (System (Recorded σ)) Event := ⟨fun s => s.vfs.platform.log⟩

instance : HasLog (AppSession (Recorded σ)) Event := ⟨fun s => s.system.vfs.platform.log⟩

theorem System.emits_onVfs {P : List Event → Prop} {x : Op Error (Vfs (Recorded σ)) α}
    (hx : Op.Emits P x) : Op.Emits P (System.onVfs x) := by
  apply hx.zoom
  · intro s; rfl
  · intro t s; rfl

theorem AppSession.emits_onSystem {P : List Event → Prop} {x : Op Error (System (Recorded σ)) α}
    (hx : Op.Emits P x) : Op.Emits P (AppSession.onSystem x) := by
  apply hx.zoom
  · intro s; rfl
  · intro t s; rfl

theorem AppSession.emits_onVfs {P : List Event → Prop} {x : Op Error (Vfs (Recorded σ)) α}
    (hx : Op.Emits P x) : Op.Emits P (AppSession.onVfs x) :=
  AppSession.emits_onSystem (System.emits_onVfs hx)

/-- The storage paths a platform call is given. Calls of the console, the clock and the network have none. -/
def Event.storagePaths : Event → List Str
  | .storageRead path _ | .storageWrite path _ _ | .storageList path _
  | .storageCreateDirAll path _ | .storageRemove path _ | .storageExists path _ => [path]
  | .storageRename source target _ => [source, target]
  | _ => []

/-- The storage path that the filesystem reads a path as: the normalized path without its slash. It is a name for every
    path that resolves, whether or not it is in a mount of the backend. -/
def Names (path q : Str) : Prop := normalizePath "/".toList path = .ok ('/' :: q)

theorem names_of_rooted {p q : Str} (h : Rooted p) (hn : Names p q) : p = '/' :: q := by
  unfold Names at hn
  rw [normalizePath_self h] at hn
  exact Except.ok.inj hn

/-! ## Filesystem operations -/

namespace Vfs

/-- No call, or the one call `E` allows. Each operation of the filesystem makes at most one, so that what it does can
    be judged by the one event it leaves in a record. -/
def AtMostOne (E : Event → Prop) (ev : List Event) : Prop := ev = [] ∨ ∃ e, ev = [e] ∧ E e

theorem emits_onPlatform {x : Op Error (Recorded σ) α} {E : Event → Prop}
    (hx : ∀ w, ∃ e, (x w).2.log = w.log ++ [e] ∧ E e) :
    Op.Emits (AtMostOne E) (onPlatform x) := by
  intro v
  obtain ⟨e, hlog, he⟩ := hx v.platform
  exact ⟨[e], hlog, Or.inr ⟨e, rfl, he⟩⟩

/-- The part all operations share: the storage path of a path is passed to the backend, with nothing added and nothing
    left out but the slash. -/
theorem emits_remote {E : Event → Prop} {path p : Str} {remote : Str → Op Error (Recorded σ) α}
    (hp : normalizePath "/".toList path = .ok p)
    (hremote : ∀ q, Names path q → ∀ w, ∃ e, (remote q w).2.log = w.log ++ [e] ∧ E e) :
    Op.Emits (AtMostOne E) (do
      let relative ← Op.ofExcept (persistentPath p)
      onPlatform (remote relative)) := by
  apply Op.Emits.ofExcept_bind (Or.inl rfl)
  intro q hq
  apply emits_onPlatform
  apply hremote
  unfold Names
  rw [hp, eq_slash_of_persistentPath hq]

variable [Platform σ]

theorem emits_read (path : Str) :
    Op.Emits (AtMostOne fun e => ∃ q r, Names path q ∧ e = .storageRead q r)
      (read (σ := Recorded σ) path) := by
  apply Op.Emits.ofExcept_bind (Or.inl rfl)
  intro p hp
  apply Op.Emits.ite
  · apply Op.Silent.emits _ (Or.inl rfl)
    apply Op.Silent.read_bind
    intro v
    cases v.systemFile p with
    | some file => exact Op.Silent.pure _
    | none => exact Op.Silent.throw _
  · apply emits_remote hp
    intro q hq w
    exact ⟨_, rfl, q, _, hq, rfl⟩

theorem emits_readText (path : Str) :
    Op.Emits (AtMostOne fun e => ∃ q r, Names path q ∧ e = .storageRead q r)
      (readText (σ := Recorded σ) path) := by
  apply (emits_read path).bind_silent
  intro data
  cases fromUtf8 data with
  | some text => exact Op.Silent.pure _
  | none => exact Op.Silent.throw _

theorem emits_write (path : Str) (data : Bytes) :
    Op.Emits (AtMostOne fun e => ∃ q r, Names path q ∧ e = .storageWrite q data r)
      (write (σ := Recorded σ) path data) := by
  apply Op.Emits.ofExcept_bind (Or.inl rfl)
  intro p hp
  apply Op.Emits.ite
  · exact (Op.Silent.throw _).emits (Or.inl rfl)
  · apply emits_remote hp
    intro q hq w
    exact ⟨_, rfl, q, _, hq, rfl⟩

theorem emits_list (path : Str) :
    Op.Emits (AtMostOne fun e => ∃ q r, Names path q ∧ e = .storageList q r)
      (list (σ := Recorded σ) path) := by
  apply Op.Emits.ofExcept_bind (Or.inl rfl)
  intro p hp
  apply Op.Emits.ite
  · exact (Op.Silent.pure _).emits (Or.inl rfl)
  apply Op.Emits.ite
  · apply Op.Silent.emits _ (Or.inl rfl)
    apply Op.Silent.read_bind
    intro v
    exact Op.Silent.ofExcept _
  · apply emits_remote hp
    intro q hq w
    exact ⟨_, rfl, q, _, hq, rfl⟩

theorem emits_createDirAll (path : Str) :
    Op.Emits (AtMostOne fun e => ∃ q r, Names path q ∧ e = .storageCreateDirAll q r)
      (createDirAll (σ := Recorded σ) path) := by
  apply Op.Emits.ofExcept_bind (Or.inl rfl)
  intro p hp
  apply Op.Emits.ite
  · exact (Op.Silent.throw _).emits (Or.inl rfl)
  · apply emits_remote hp
    intro q hq w
    exact ⟨_, rfl, q, _, hq, rfl⟩

theorem emits_remove (path : Str) :
    Op.Emits (AtMostOne fun e => ∃ q r, Names path q ∧ e = .storageRemove q r)
      (remove (σ := Recorded σ) path) := by
  apply Op.Emits.ofExcept_bind (Or.inl rfl)
  intro p hp
  apply Op.Emits.ite
  · exact (Op.Silent.throw _).emits (Or.inl rfl)
  apply Op.Emits.ite
  · exact (Op.Silent.throw _).emits (Or.inl rfl)
  · apply emits_remote hp
    intro q hq w
    exact ⟨_, rfl, q, _, hq, rfl⟩

theorem emits_rename (source target : Str) :
    Op.Emits
      (AtMostOne fun e => ∃ q q' r, Names source q ∧ Names target q' ∧ e = .storageRename q q' r)
      (rename (σ := Recorded σ) source target) := by
  apply Op.Emits.ofExcept_bind (Or.inl rfl)
  intro p hp
  apply Op.Emits.ofExcept_bind (Or.inl rfl)
  intro p' hp'
  apply Op.Emits.ite
  · exact (Op.Silent.throw _).emits (Or.inl rfl)
  · apply Op.Emits.ofExcept_bind (Or.inl rfl)
    intro q hq
    have hsource : Names source q := by
      unfold Names
      rw [hp, eq_slash_of_persistentPath hq]
    apply emits_remote hp'
    intro q' hq' w
    exact ⟨_, rfl, q, q', _, hsource, hq', rfl⟩

end Vfs

/-! ## Paths that go straight to the backend -/

/-- The filesystem passes this path on, as this storage path. The first condition is the normalization, the second
    keeps `/sys` out, and the third is the check for the two mounts of the backend. -/
def Routes (path q : Str) : Prop :=
  Names path q ∧ isPathPrefix "/sys".toList ('/' :: q) = false ∧
    Vfs.persistentPath ('/' :: q) = .ok q

instance (path q : Str) : Decidable (Names path q) := inferInstanceAs (Decidable (_ = _))

instance (path q : Str) : Decidable (Routes path q) := inferInstanceAs (Decidable (_ ∧ _ ∧ _))

namespace Vfs

variable {path q : Str}

theorem path_of_systemFile {v : Vfs σ} {p : Str} {file : EmbeddedFile}
    (h : v.systemFile p = some file) : file ∈ v.systemFiles ∧ file.path = p := by
  have hpath := List.find?_some h
  exact ⟨List.mem_of_find?_eq_some h, by simpa using hpath⟩

/-- The shape the operations share: a path of `/sys` is answered on the spot, one of the other mounts is passed on. The
    source writes it out in each of them; that they are instances of it holds by definition. -/
def routed (path : Str) (inSys : Str → Op Error (Vfs σ) α) (remote : Str → Op Error σ α) :
    Op Error (Vfs σ) α := do
  let path ← Op.ofExcept (normalizePath "/".toList path)
  if isPathPrefix "/sys".toList path then inSys path
  else do
    let relative ← Op.ofExcept (persistentPath path)
    onPlatform (remote relative)

theorem routed_of_normalized {p : Str} (hn : normalizePath "/".toList path = .ok p)
    (inSys : Str → Op Error (Vfs σ) α) (remote : Str → Op Error σ α) :
    routed path inSys remote = if isPathPrefix "/sys".toList p then inSys p
      else Op.ofExcept (persistentPath p) >>= fun relative => onPlatform (remote relative) := by
  unfold routed
  rw [hn]
  rfl

theorem routed_of_sys {p : Str} (hn : normalizePath "/".toList path = .ok p)
    (hsys : isPathPrefix "/sys".toList p = true) (inSys : Str → Op Error (Vfs σ) α)
    (remote : Str → Op Error σ α) : routed path inSys remote = inSys p := by
  rw [routed_of_normalized hn, if_pos hsys]

theorem routed_of_routes (h : Routes path q) (inSys : Str → Op Error (Vfs σ) α)
    (remote : Str → Op Error σ α) : routed path inSys remote = onPlatform (remote q) := by
  obtain ⟨hn, hsys, hp⟩ := h
  rw [routed_of_normalized hn, hsys, if_neg Bool.false_ne_true, hp]
  rfl

theorem routed_of_unmounted {p : Str} {e : Error} (hn : normalizePath "/".toList path = .ok p)
    (hsys : isPathPrefix "/sys".toList p = false) (hp : persistentPath p = .error e)
    (inSys : Str → Op Error (Vfs σ) α) (remote : Str → Op Error σ α) :
    routed path inSys remote = Op.throw e := by
  rw [routed_of_normalized hn, hsys, if_neg Bool.false_ne_true, hp]
  rfl

/-- A path is passed on, or answered from `/sys`, or refused. Which of the three, and with which storage path, does
    not depend on the state. -/
theorem routed_cases (path : Str) (inSys : Str → Op Error (Vfs σ) α)
    (remote : Str → Op Error σ α) :
    (∃ q, Routes path q ∧ routed path inSys remote = onPlatform (remote q)) ∨
      (∃ p, normalizePath "/".toList path = .ok p ∧ isPathPrefix "/sys".toList p = true ∧
        routed path inSys remote = inSys p) ∨
      ∃ e, routed path inSys remote = Op.throw e := by
  cases hn : normalizePath "/".toList path with
  | error e =>
    refine Or.inr (Or.inr ⟨e, ?_⟩)
    unfold routed
    rw [hn]
    rfl
  | ok p =>
    cases hsys : isPathPrefix "/sys".toList p with
    | true => exact Or.inr (Or.inl ⟨p, rfl, hsys, routed_of_sys hn hsys inSys remote⟩)
    | false =>
      cases hp : persistentPath p with
      | error e => exact Or.inr (Or.inr ⟨e, routed_of_unmounted hn hsys hp inSys remote⟩)
      | ok q =>
        obtain rfl := eq_slash_of_persistentPath hp
        have hroutes : Routes path q := ⟨hn, hsys, hp⟩
        exact Or.inl ⟨q, hroutes, routed_of_routes hroutes inSys remote⟩

variable [Platform σ]

/-- A file of the table. -/
def readSystem (path : Str) : Op Error (Vfs σ) Bytes := do
  let v ← Op.read
  match v.systemFile path with
  | some file => pure file.data
  | none => Op.throw (.notFound path)

theorem read_eq_routed (path : Str) :
    (read path : Op Error (Vfs σ) Bytes) = routed path readSystem Platform.storageRead := rfl

/-- A text that `readText` answers is a file's: one of the backend, or one of the table. In the second case the
    filesystem is as it was, in the first the backend may have changed by being read. -/
theorem readText_ok {v v' : Vfs σ} {text : Str} (h : readText path v = (.ok text, v')) :
    ∃ bytes, fromUtf8 bytes = some text ∧
      ((∃ q, Routes path q ∧ onPlatform (Platform.storageRead q) v = (.ok bytes, v')) ∨
        ∃ p file, normalizePath "/".toList path = .ok p ∧
          isPathPrefix "/sys".toList p = true ∧ v.systemFile p = some file ∧
          file.data = bytes ∧ v' = v) := by
  obtain ⟨bytes, v₁, hread, htext⟩ := Op.bind_ok h
  have hdecode : fromUtf8 bytes = some text ∧ v₁ = v' := by
    cases hb : fromUtf8 bytes with
    | none =>
      rw [hb] at htext
      cases htext
    | some t =>
      rw [hb] at htext
      cases htext
      exact ⟨rfl, rfl⟩
  obtain ⟨hutf8, rfl⟩ := hdecode
  refine ⟨bytes, hutf8, ?_⟩
  rw [read_eq_routed] at hread
  rcases routed_cases path (readSystem : Str → Op Error (Vfs σ) Bytes) Platform.storageRead with
    ⟨q, hq, hrun⟩ | ⟨p, hn, hsys, hrun⟩ | ⟨e, hrun⟩
  · rw [hrun] at hread
    exact Or.inl ⟨q, hq, hread⟩
  · rw [hrun] at hread
    unfold readSystem at hread
    rw [Op.run_bind, Op.run_read] at hread
    cases hfile : v.systemFile p with
    | none => simp only [hfile, Op.run_throw, Prod.mk.injEq, reduceCtorEq, false_and] at hread
    | some file =>
      simp only [hfile, Op.run_pure, Prod.mk.injEq, Except.ok.injEq] at hread
      exact Or.inr ⟨p, file, hn, hsys, hfile, hread.1, hread.2.symm⟩
  · rw [hrun] at hread
    cases hread

theorem write_eq_routed (path : Str) (data : Bytes) :
    (write path data : Op Error (Vfs σ) Unit) =
      routed path (fun p => Op.throw (.readOnly p)) fun q => Platform.storageWrite q data := rfl

theorem createDirAll_eq_routed (path : Str) :
    (createDirAll path : Op Error (Vfs σ) Unit) =
      routed path (fun p => Op.throw (.readOnly p)) Platform.storageCreateDirAll := rfl

theorem existsAt_of_routes (h : Routes path q)
    (hroot : '/' :: q ∉ ["/".toList, "/sys".toList, "/apps".toList, "/user".toList]) :
    (existsAt path : Op Error (Vfs σ) Bool) = onPlatform (Platform.storageExists q) := by
  obtain ⟨hn, hsys, hp⟩ := h
  have hroot' : ¬ ('/' :: q = "/".toList ∨ '/' :: q = "/sys".toList ∨ '/' :: q = "/apps".toList ∨
      '/' :: q = "/user".toList) := by
    simpa only [List.mem_cons, List.not_mem_nil, or_false] using hroot
  funext v
  unfold existsAt
  rw [hn, Op.run_bind, Op.run_ofExcept]
  simp only [if_neg hroot', hsys, Bool.false_eq_true, if_false, hp, Op.run_bind, Op.run_ofExcept]

/-- An operation that changes something is one call to the backend, or fails on the spot. This and the next three are
    what an invariant of the backend needs of the filesystem. -/
theorem write_cases (path : Str) (data : Bytes) :
    (∃ q, Routes path q ∧
        (write path data : Op Error (Vfs σ) Unit) = onPlatform (Platform.storageWrite q data)) ∨
      ∃ e, (write path data : Op Error (Vfs σ) Unit) = Op.throw e := by
  rcases routed_cases path (fun p => (Op.throw (.readOnly p) : Op Error (Vfs σ) Unit))
    (fun q => Platform.storageWrite q data) with h | ⟨p, -, -, h⟩ | h
  · exact Or.inl h
  · exact Or.inr ⟨_, h⟩
  · exact Or.inr h

theorem createDirAll_cases (path : Str) :
    (∃ q, Routes path q ∧
        (createDirAll path : Op Error (Vfs σ) Unit) =
          onPlatform (Platform.storageCreateDirAll q)) ∨
      ∃ e, (createDirAll path : Op Error (Vfs σ) Unit) = Op.throw e := by
  rcases routed_cases path (fun p => (Op.throw (.readOnly p) : Op Error (Vfs σ) Unit))
    Platform.storageCreateDirAll with h | ⟨p, -, -, h⟩ | h
  · exact Or.inl h
  · exact Or.inr ⟨_, h⟩
  · exact Or.inr h

/-- `remove` looks for the protected directories before it passes a path on. It compares normalized paths, so no other
    spelling of such a directory gets through. -/
theorem remove_eq_routed (path : Str) :
    (remove path : Op Error (Vfs σ) Unit) = Op.throw (.permissionDenied
        "cannot remove an AFOS root directory".toList) ∨
      (∀ q, Routes path q → '/' :: q ∉ rootDirectories) ∧
        (remove path : Op Error (Vfs σ) Unit) =
          routed path (fun p => Op.throw (.readOnly p)) Platform.storageRemove := by
  cases hn : normalizePath "/".toList path with
  | error e =>
    refine Or.inr ⟨fun q hq => ?_, ?_⟩
    · have hq' := hn.symm.trans hq.1
      cases hq'
    · unfold remove routed
      rw [hn]
      rfl
  | ok p =>
    -- none of the protected directories is in `/sys`, so it is this test that refuses them
    by_cases hroot : p ∈ rootDirectories
    · refine Or.inl ?_
      have hsys : isPathPrefix "/sys".toList p = false := by
        have hall : ∀ p ∈ rootDirectories, isPathPrefix "/sys".toList p = false := by decide
        exact hall p hroot
      unfold remove
      rw [hn]
      funext v
      simp only [Op.run_bind, Op.run_ofExcept, hsys, Bool.false_eq_true, if_false, if_pos hroot]
    · refine Or.inr ⟨fun q hq => ?_, ?_⟩
      · rw [← Except.ok.inj (hn.symm.trans hq.1)]
        exact hroot
      · unfold remove routed
        rw [hn]
        funext v
        simp only [Op.run_bind, Op.run_ofExcept, if_neg hroot]

theorem remove_cases (path : Str) :
    (∃ q, Routes path q ∧ '/' :: q ∉ rootDirectories ∧
        (remove path : Op Error (Vfs σ) Unit) = onPlatform (Platform.storageRemove q)) ∨
      ∃ e, (remove path : Op Error (Vfs σ) Unit) = Op.throw e := by
  rcases remove_eq_routed (σ := σ) path with h | ⟨hroots, heq⟩
  · exact Or.inr ⟨_, h⟩
  · rw [heq]
    rcases routed_cases path (fun p => (Op.throw (.readOnly p) : Op Error (Vfs σ) Unit))
      Platform.storageRemove with ⟨q, hq, h⟩ | ⟨p, -, -, h⟩ | h
    · exact Or.inl ⟨q, hq, hroots q hq, h⟩
    · exact Or.inr ⟨_, h⟩
    · exact Or.inr h

theorem rename_eq {source target p p' : Str} (hs : normalizePath "/".toList source = .ok p)
    (ht : normalizePath "/".toList target = .ok p') :
    (rename source target : Op Error (Vfs σ) Unit) =
      if isPathPrefix "/sys".toList p || isPathPrefix "/sys".toList p' then
        Op.throw (.readOnly "/sys".toList)
      else Op.ofExcept (persistentPath p) >>= fun q => Op.ofExcept (persistentPath p') >>= fun q' =>
        onPlatform (Platform.storageRename q q') := by
  unfold rename
  rw [hs, ht]
  rfl

theorem rename_of_routes {source target q q' : Str} (h : Routes source q) (h' : Routes target q') :
    (rename source target : Op Error (Vfs σ) Unit) = onPlatform (Platform.storageRename q q') := by
  rw [rename_eq h.1 h'.1, h.2.1, h'.2.1, h.2.2, h'.2.2]
  rfl

theorem rename_cases (source target : Str) :
    (∃ q q', Routes source q ∧ Routes target q' ∧
        (rename source target : Op Error (Vfs σ) Unit) =
          onPlatform (Platform.storageRename q q')) ∨
      ∃ e, (rename source target : Op Error (Vfs σ) Unit) = Op.throw e := by
  cases hs : normalizePath "/".toList source with
  | error e => exact Or.inr ⟨e, by unfold rename; rw [hs]; rfl⟩
  | ok p =>
    cases ht : normalizePath "/".toList target with
    | error e => exact Or.inr ⟨e, by unfold rename; rw [hs, ht]; rfl⟩
    | ok p' =>
      rw [rename_eq hs ht]
      by_cases hsys : (isPathPrefix "/sys".toList p || isPathPrefix "/sys".toList p') = true
      · exact Or.inr ⟨_, if_pos hsys⟩
      · rw [if_neg hsys]
        rw [Bool.not_eq_true, Bool.or_eq_false_iff] at hsys
        cases hp : persistentPath p with
        | error e => exact Or.inr ⟨e, rfl⟩
        | ok q =>
          cases hp' : persistentPath p' with
          | error e => exact Or.inr ⟨e, rfl⟩
          | ok q' =>
            obtain rfl := eq_slash_of_persistentPath hp
            obtain rfl := eq_slash_of_persistentPath hp'
            exact Or.inl ⟨q, q', ⟨hs, hsys.1, hp⟩, ⟨ht, hsys.2, hp'⟩, rfl⟩

end Vfs

/-! ## The verifier file -/

/-- The storage path of the password verifier. -/
def securityFile : Str := "user/config/security".toList

theorem routes_securityPath : Routes securityPath securityFile := by decide

namespace Vfs

variable [Platform σ]

/-- Looking for the verifier is one call to the backend. -/
theorem existsAt_securityPath :
    (existsAt securityPath : Op Error (Vfs σ) Bool) =
      onPlatform (Platform.storageExists securityFile) :=
  existsAt_of_routes routes_securityPath (by decide)

/-- Reading the verifier is one call to the backend. -/
theorem read_securityPath :
    (read securityPath : Op Error (Vfs σ) Bytes) =
      onPlatform (Platform.storageRead securityFile) :=
  routed_of_routes routes_securityPath _ _

end Vfs

/-- The password opens the verifier with these bytes: they are a text, it parses as a salt and a hash, and the hash of
    the password with that salt is the one stored. -/
def Accepts [Argon2] (data : Bytes) (password : Str) : Prop :=
  ∃ text salt hash, fromUtf8 data = some text ∧ parseVerifier text = .ok (salt, hash) ∧
    derive (asBytes password) salt = .ok hash

/-! ## Running on the platform -/

theorem Vfs.run_onPlatform (x : Op Error σ α) (v : Vfs σ) :
    Vfs.onPlatform x v =
      ((x v.platform).1, { v with platform := (x v.platform).2 }) := rfl

theorem AppSession.onVfs_eq {x : Op Error (Vfs σ) α} {s s' : AppSession σ} {r : Except Error α}
    (h : AppSession.onVfs x s = (r, s')) :
    ∃ v, x s.system.vfs = (r, v) ∧ s' = { s with system := { s.system with vfs := v } } := by
  unfold AppSession.onVfs AppSession.onSystem at h
  obtain ⟨y, hy, rfl⟩ := Op.zoom_eq h
  unfold System.onVfs at hy
  obtain ⟨v, hv, rfl⟩ := Op.zoom_eq hy
  exact ⟨v, hv, rfl⟩

namespace System

def withPlatform (s : System σ) (p : σ) : System σ := { s with vfs := { s.vfs with platform := p } }

@[simp] theorem withPlatform_platform (s : System σ) (p : σ) :
    (s.withPlatform p).vfs.platform = p := rfl

theorem run_onPlatform (x : Op Error σ α) (s : System σ) :
    onPlatform x s = ((x s.vfs.platform).1, s.withPlatform (x s.vfs.platform).2) := rfl

end System

namespace SecurityManager

/-- The text of some bytes, or the error `readText` gives. -/
def decodeText (data : Bytes) : Except Error Str :=
  match fromUtf8 data with
  | some text => .ok text
  | none => .error (.invalidInput "file is not valid UTF-8".toList)

/-- What `verify` does with the bytes of the verifier. Bytes that are no verifier are an error that does not count as a
    failure: only a password that is wrong does. -/
def judge [Argon2] (password : Str) (now : Nat) (data : Bytes) : Op Error (System σ) Unit := do
  let encoded ← Op.ofExcept (decodeText data)
  let (salt, expected) ← Op.ofExcept (parseVerifier encoded)
  let actual ← Op.ofExcept (derive (asBytes password) salt)
  if actual = expected then reset
  else do
    Op.modify fun s => { s with security := s.security.recordFailure now }
    Op.throw .authenticationFailed

/-- Judging touches the failure counter alone, and accepts what the bytes say. -/
theorem judge_cases [Argon2] (password : Str) (now : Nat) (data : Bytes) (s : System σ) :
    (judge password now data s).2.vfs = s.vfs ∧
      ((judge password now data s).1 = .ok () → Accepts data password) := by
  unfold judge decodeText
  cases htext : fromUtf8 data with
  | none => exact ⟨rfl, fun h => by cases h⟩
  | some text =>
    simp only [Op.run_bind, Op.run_ofExcept]
    cases hparse : parseVerifier text with
    | error e => exact ⟨rfl, fun h => by cases h⟩
    | ok pair =>
      obtain ⟨salt, expected⟩ := pair
      simp only
      cases hderive : derive (asBytes password) salt with
      | error e => exact ⟨rfl, fun h => by cases h⟩
      | ok actual =>
        simp only
        split
        case isTrue heq =>
          refine ⟨rfl, fun _ => ⟨text, salt, expected, htext, hparse, ?_⟩⟩
          rw [hderive, heq]
        case isFalse => exact ⟨rfl, fun h => by cases h⟩

variable [Platform σ]

theorem run_hasPassword (s : System σ) :
    hasPassword s = ((Platform.storageExists securityFile s.vfs.platform).1,
      s.withPlatform (Platform.storageExists securityFile s.vfs.platform).2) := by
  unfold hasPassword
  rw [Vfs.existsAt_securityPath]
  rfl

theorem run_readText_securityPath (v : Vfs σ) :
    Vfs.readText securityPath v =
      match Platform.storageRead securityFile v.platform with
      | (.ok data, p) => (decodeText data, { v with platform := p })
      | (.error e, p) => (.error e, { v with platform := p }) := by
  unfold Vfs.readText decodeText
  rw [Vfs.read_securityPath, Op.run_bind, Vfs.run_onPlatform]
  cases Platform.storageRead securityFile v.platform with
  | mk r p =>
    cases r with
    | error e => rfl
    | ok data => cases h : fromUtf8 data <;> simp [h]

variable [Argon2]

/-- `verify` reads the clock and then, unless it is too early, the verifier, and judges. -/
theorem run_verify (password : Str) (s : System σ) :
    verify password s =
      if (Platform.monotonicMillis s.vfs.platform).1 < s.security.blockedUntil then
        (.error (.rateLimited
            (s.security.blockedUntil - (Platform.monotonicMillis s.vfs.platform).1)),
          s.withPlatform (Platform.monotonicMillis s.vfs.platform).2)
      else
        match Platform.storageRead securityFile (Platform.monotonicMillis s.vfs.platform).2 with
        | (.ok data, p) =>
            judge password (Platform.monotonicMillis s.vfs.platform).1 data (s.withPlatform p)
        | (.error e, p) => (.error e, s.withPlatform p) := by
  unfold verify
  rw [Op.run_bind, System.run_onPlatform, Op.run_ofState]
  show (ite ((Platform.monotonicMillis s.vfs.platform).1 < s.security.blockedUntil) _ _ :
    Op Error (System σ) Unit) (s.withPlatform (Platform.monotonicMillis s.vfs.platform).2) = _
  by_cases hearly : (Platform.monotonicMillis s.vfs.platform).1 < s.security.blockedUntil
  · rw [if_pos hearly, if_pos hearly]
    rfl
  · rw [if_neg hearly, if_neg hearly, Op.run_bind]
    unfold System.onVfs
    rw [Op.run_zoom, run_readText_securityPath, System.withPlatform_platform]
    cases Platform.storageRead securityFile (Platform.monotonicMillis s.vfs.platform).2 with
    | mk r p =>
      cases r with
      | error e => rfl
      | ok data => rfl

/-- A password `verify` has accepted opens the verifier it has just read. -/
theorem verify_ok {password : Str} {s s' : System σ} (h : verify password s = (.ok (), s')) :
    ∃ data p, Platform.storageRead securityFile (Platform.monotonicMillis s.vfs.platform).2 =
        (.ok data, p) ∧ Accepts data password ∧ s'.vfs = (s.withPlatform p).vfs := by
  rw [run_verify] at h
  split at h
  · cases h
  split at h
  case h_1 data p hread =>
    have hjudge := judge_cases password (Platform.monotonicMillis s.vfs.platform).1 data
      (s.withPlatform p)
    rw [h] at hjudge
    exact ⟨data, p, hread, hjudge.2 rfl, hjudge.1⟩
  case h_2 => cases h

end SecurityManager

end Afos
