import Afos.Proof.Verifier
import Afos.Machine

/-!
# The mounts, from the backend's side

What a backend may rely on: a storage path it is given is relative and canonical and begins with
the name of one of its two mounts, and nothing that happens to `/sys` comes through to it. Both
follow from one description of the eight operations. Each either is a single call to the backend,
with the storage paths that its own paths are routed to, or does not reach the backend
(`VfsOperation.oneCall`).

`rename` resolves both its paths before it looks at the mounts. So a rename in `/sys` whose other
path does not resolve is refused for that path, and not as a write to a read-only mount.
-/

set_option autoImplicit false

namespace Afos

open Lib

/-! ## Storage paths -/

/-- What a backend may rely on about the storage paths it is given: they are relative, have no empty name, no dots, no
    separators of other systems, and begin with a mount. -/
structure StoragePath (q : Str) : Prop where
  nonempty : q ≠ []
  no_leading_slash : q.head? ≠ some '/'
  no_trailing_slash : q.getLast? ≠ some '/'
  components : ∀ c ∈ q.splitOn '/', c ≠ [] ∧ c ≠ ".".toList ∧ c ≠ "..".toList
  no_nul : '\x00' ∉ q
  no_backslash : '\\' ∉ q
  mount : (q.splitOn '/').head? = some "apps".toList ∨ (q.splitOn '/').head? = some "user".toList

theorem getLast?_join_ne_slash {cs : List Str} (hn : ∀ c ∈ cs, IsName c) :
    (join cs).getLast? ≠ some '/' := by
  induction cs with
  | nil => exact fun h => (by cases h)
  | cons c cs ih =>
    intro h
    by_cases hcs : cs = []
    · rw [hcs, join_singleton] at h
      exact (hn c List.mem_cons_self).2 (List.mem_of_getLast? h)
    · rw [join_cons hcs] at h
      have hne : join cs ≠ [] := fun hnil =>
        hcs ((join_eq_nil_iff fun c hc => hn c (List.mem_cons_of_mem _ hc)).mp hnil)
      refine ih (fun c hc => hn c (List.mem_cons_of_mem _ hc)) ?_
      rwa [List.getLast?_append_of_ne_nil _ (by simp), List.getLast?_cons_of_ne_nil hne] at h

/-- Plain names below a mount, joined, are a storage path. It is the way from lists of names, where the proofs are, to
    the texts of the calls. -/
theorem storagePath_join {cs : List Str} (hcs : ∀ c ∈ cs, Plain c)
    (hmount : ["apps".toList] <+: cs ∨ ["user".toList] <+: cs) : StoragePath (join cs) := by
  have hnames := isName_of_plain hcs
  -- a list without names has no mount in front of it
  have hne : cs ≠ [] := by
    rintro rfl
    rcases hmount with h | h
    · cases List.prefix_nil.mp h
    · cases List.prefix_nil.mp h
  -- the joined path has only the characters of its names and slashes
  have hclean : ∀ x : Char, x ≠ '/' → (∀ c ∈ cs, x ∉ c) → x ∉ join cs := by
    intro x hx hc hmem
    rcases exists_mem_of_mem_join hmem with h | ⟨c, hmem, h⟩
    · exact hx h
    · exact hc c hmem h
  refine ⟨fun hnil => hne ((join_eq_nil_iff hnames).mp hnil), head?_join_ne_slash hnames,
    getLast?_join_ne_slash hnames, ?_, ?_, ?_, ?_⟩
  · rw [splitOn_join hnames hne]
    exact fun c hc => ⟨(hnames c hc).1, (hcs c hc).1.2⟩
  · exact hclean _ (by decide) fun c hc => (hcs c hc).2.1
  · exact hclean _ (by decide) fun c hc => (hcs c hc).2.2
  · rw [splitOn_join hnames hne]
    refine hmount.imp ?_ ?_
    · rintro ⟨rest, rfl⟩
      rfl
    · rintro ⟨rest, rfl⟩
      rfl

theorem Routes.storagePath {path q : Str} (h : Routes path q) : StoragePath q := by
  obtain ⟨hn, -, hp⟩ := h
  obtain ⟨cs, hcs, heq⟩ := rooted_root.normalizePath hn
  rw [(List.cons.inj heq).2] at hp ⊢
  exact storagePath_join hcs ((Vfs.persistentPath_ok_iff (isName_of_plain hcs)).mp hp).2

/-! ## The operations -/

namespace Vfs

variable {σ : Type} [Platform σ] {path : Str}

/-- The paths that are there whatever the backend and the table hold: the root and the three mounts. -/
def alwaysThere : List Str := ["/".toList, "/sys".toList, "/apps".toList, "/user".toList]

/-- `existsAt` in the table: what the operation does once its path is known to be a system path. -/
def existsSystem (path : Str) : Op Error (Vfs σ) Bool :=
  (fun v => (v.systemFile path).isSome || v.systemDirExists path) <$> Op.read

/-- `list` in the table: what the operation does once its path is known to be a system path. -/
def listInSystem (path : Str) : Op Error (Vfs σ) (List StorageEntry) := do
  let v ← Op.read
  Op.ofExcept (v.listSystem path)

theorem existsAt_of_normalized {p : Str} (hn : normalizePath "/".toList path = .ok p) :
    (existsAt path : Op Error (Vfs σ) Bool) =
      if p ∈ alwaysThere then pure true else routed path existsSystem Platform.storageExists := by
  have hiff : p ∈ alwaysThere ↔ (p = "/".toList ∨ p = "/sys".toList ∨ p = "/apps".toList ∨
      p = "/user".toList) := by
    simp only [alwaysThere, List.mem_cons, List.not_mem_nil, or_false]
  unfold existsAt routed
  rw [hn]
  funext v
  by_cases hroot : p ∈ alwaysThere
  · simp only [Op.run_bind, Op.run_ofExcept, if_pos (hiff.mp hroot), if_pos hroot]
  · simp only [Op.run_bind, Op.run_ofExcept, if_neg hroot, if_neg fun h => hroot (hiff.mpr h)]
    rfl

/-- `exists` is one of the four paths that are always there, or is routed like the other operations. -/
theorem existsAt_eq_routed (path : Str) :
    (∃ p ∈ alwaysThere, normalizePath "/".toList path = .ok p ∧
        (existsAt path : Op Error (Vfs σ) Bool) = pure true) ∨
      (existsAt path : Op Error (Vfs σ) Bool) =
        routed path existsSystem Platform.storageExists := by
  -- a path that does not resolve is refused by both in the same way
  cases hn : normalizePath "/".toList path with
  | error e =>
    refine Or.inr ?_
    unfold existsAt routed
    rw [hn]
    rfl
  | ok p =>
    rw [existsAt_of_normalized hn]
    by_cases hroot : p ∈ alwaysThere
    · exact Or.inl ⟨p, hroot, rfl, if_pos hroot⟩
    · exact Or.inr (if_neg hroot)

theorem emits_existsAt (path : Str) :
    Op.Emits (AtMostOne fun e => ∃ q r, Names path q ∧ e = .storageExists q r)
      (existsAt (σ := Recorded σ) path) := by
  rcases existsAt_eq_routed (σ := Recorded σ) path with ⟨_, -, -, heq⟩ | heq
  · rw [heq]
    exact (Op.Silent.pure true).emits (Or.inl rfl)
  · rw [heq]
    apply Op.Emits.ofExcept_bind (Or.inl rfl)
    intro p hp
    refine Op.Emits.ite (Op.Silent.emits (fun v => rfl) (Or.inl rfl)) ?_
    apply emits_remote hp
    intro q hq w
    exact ⟨_, rfl, q, _, hq, rfl⟩

theorem list_of_normalized {p : Str} (hn : normalizePath "/".toList path = .ok p) :
    (list path : Op Error (Vfs σ) (List StorageEntry)) =
      if p = "/".toList then pure rootEntries
      else routed path listInSystem Platform.storageList := by
  unfold list routed
  rw [hn]
  funext v
  by_cases hroot : p = "/".toList
  · simp only [Op.run_bind, Op.run_ofExcept, if_pos hroot]
  · simp only [Op.run_bind, Op.run_ofExcept, if_neg hroot]
    rfl

/-- `list` is the root, whose entries are fixed, or is routed like the other operations. -/
theorem list_eq_routed (path : Str) :
    (list path : Op Error (Vfs σ) (List StorageEntry)) = pure rootEntries ∨
      (list path : Op Error (Vfs σ) (List StorageEntry)) =
        routed path listInSystem Platform.storageList := by
  cases hn : normalizePath "/".toList path with
  | error e =>
    refine Or.inr ?_
    unfold list routed
    rw [hn]
    rfl
  | ok p =>
    rw [list_of_normalized hn]
    by_cases hroot : p = "/".toList
    · exact Or.inl (if_pos hroot)
    · exact Or.inr (if_neg hroot)

end Vfs

/-- An operation of the filesystem, as data, so that a statement about all of them is one statement. -/
inductive VfsOperation where
  | existsAt (path : Str)
  | read (path : Str)
  | write (path : Str) (data : Bytes)
  | list (path : Str)
  | createDirAll (path : Str)
  | remove (path : Str)
  | rename (source target : Str)
  | initializeLayout

/-- The path is `/sys` or below it, once it has been resolved. So `/user/../sys` is in `/sys`. -/
def InSys (path : Str) : Prop :=
  ∃ p, normalizePath "/".toList path = .ok p ∧ isPathPrefix "/sys".toList p = true

namespace VfsOperation

def paths : VfsOperation → List Str
  | existsAt path | read path | write path _ | list path | createDirAll path | remove path => [path]
  | rename source target => [source, target]
  | initializeLayout => []

/-- The operations that are there to change something at their paths. The layout is made of fixed paths, and is not
    one of them. -/
def mutates : VfsOperation → Bool
  | write _ _ | createDirAll _ | remove _ | rename _ _ => true
  | _ => false

/-- An operation, without what it answers when it succeeds. The answers have different types, and what is said here is
    about effects. -/
def run {σ : Type} [Platform σ] : VfsOperation → Op Error (Vfs σ) Unit
  | existsAt path => (fun _ => ()) <$> Vfs.existsAt path
  | read path => (fun _ => ()) <$> Vfs.read path
  | write path data => Vfs.write path data
  | list path => (fun _ => ()) <$> Vfs.list path
  | createDirAll path => Vfs.createDirAll path
  | remove path => Vfs.remove path
  | rename source target => Vfs.rename source target
  | initializeLayout => Vfs.initializeLayout

end VfsOperation

theorem InSys.not_routes {path q : Str} (h : InSys path) : ¬ Routes path q := by
  intro hroutes
  obtain ⟨p, hn, hsys⟩ := h
  rw [Except.ok.inj (hn.symm.trans hroutes.1), hroutes.2.1] at hsys
  cases hsys

/-! ## One call, or none -/

/-- The operation is a call to the backend with storage paths that `paths` are routed to, or does not reach the
    backend. In the first case all of `paths` are routed, so one path that is not keeps the operation from the
    backend. -/
def OneCall {σ α : Type} (paths : List Str) (x : Op Error (Vfs (Recorded σ)) α) : Prop :=
  Op.Silent x ∨ (∀ path ∈ paths, ∃ q, Routes path q) ∧ ∀ v, ∃ e,
    (x v).2.platform.log = v.platform.log ++ [e] ∧
      ∀ q ∈ e.storagePaths, ∃ path ∈ paths, Routes path q

namespace OneCall

variable {σ α β : Type} {paths : List Str}

theorem map {x : Op Error (Vfs (Recorded σ)) α} (h : OneCall paths x) (f : α → β) :
    OneCall paths (f <$> x) := by
  refine h.imp (fun hx v => ?_) fun ⟨hroutes, hx⟩ => ⟨hroutes, fun v => ?_⟩
  · rw [Op.snd_map]
    exact hx v
  · rw [Op.snd_map]
    exact hx v

theorem throw (e : Error) : OneCall paths (Op.throw e : Op Error (Vfs (Recorded σ)) α) :=
  Or.inl (Op.Silent.throw e)

theorem onPlatform {path q : Str} (hq : Routes path q) {x : Op Error σ α}
    {event : Except Error α → Event} (hevent : ∀ r, (event r).storagePaths = [q]) :
    OneCall [path] (Vfs.onPlatform (Recorded.call x event)) := by
  refine Or.inr ⟨fun p hp => ⟨q, ?_⟩, fun v => ⟨_, rfl, fun q' hq' => ?_⟩⟩
  · rw [List.mem_singleton.mp hp]
    exact hq
  · rw [hevent, List.mem_singleton] at hq'
    rw [hq']
    exact ⟨path, List.mem_singleton_self _, hq⟩

theorem routed {path : Str} {inSys : Str → Op Error (Vfs (Recorded σ)) α}
    {remote : Str → Op Error σ α} {event : Str → Except Error α → Event}
    (hsys : ∀ p, Op.Silent (inSys p)) (hevent : ∀ q r, (event q r).storagePaths = [q]) :
    OneCall [path] (Vfs.routed path inSys fun q => Recorded.call (remote q) (event q)) := by
  rcases Vfs.routed_cases path inSys fun q => Recorded.call (remote q) (event q) with
    ⟨q, hq, heq⟩ | ⟨p, -, -, heq⟩ | ⟨e, heq⟩
  · rw [heq]
    exact onPlatform hq (hevent q)
  · rw [heq]
    exact Or.inl (hsys p)
  · rw [heq]
    exact throw e

variable [Platform σ]

theorem existsAt (path : Str) : OneCall [path] (Vfs.existsAt (σ := Recorded σ) path) := by
  rcases Vfs.existsAt_eq_routed (σ := Recorded σ) path with ⟨_, -, -, heq⟩ | heq
  · rw [heq]
    exact Or.inl (Op.Silent.pure true)
  · rw [heq]
    exact routed (fun p v => rfl) fun q r => rfl

theorem read (path : Str) : OneCall [path] (Vfs.read (σ := Recorded σ) path) := by
  rw [Vfs.read_eq_routed]
  refine routed (fun p => Op.Silent.read_bind fun v => ?_) fun q r => rfl
  cases v.systemFile p with
  | none => exact Op.Silent.throw _
  | some file => exact Op.Silent.pure _

theorem list (path : Str) : OneCall [path] (Vfs.list (σ := Recorded σ) path) := by
  rcases Vfs.list_eq_routed (σ := Recorded σ) path with heq | heq
  · rw [heq]
    exact Or.inl (Op.Silent.pure _)
  · rw [heq]
    exact routed (fun p v => rfl) fun q r => rfl

theorem write (path : Str) (data : Bytes) :
    OneCall [path] (Vfs.write (σ := Recorded σ) path data) := by
  rw [Vfs.write_eq_routed]
  exact routed (fun p => Op.Silent.throw _) fun q r => rfl

theorem createDirAll (path : Str) : OneCall [path] (Vfs.createDirAll (σ := Recorded σ) path) := by
  rw [Vfs.createDirAll_eq_routed]
  exact routed (fun p => Op.Silent.throw _) fun q r => rfl

theorem remove (path : Str) : OneCall [path] (Vfs.remove (σ := Recorded σ) path) := by
  rcases Vfs.remove_eq_routed (σ := Recorded σ) path with heq | ⟨-, heq⟩
  · rw [heq]
    exact throw _
  · rw [heq]
    exact routed (fun p => Op.Silent.throw _) fun q r => rfl

theorem rename (source target : Str) :
    OneCall [source, target] (Vfs.rename (σ := Recorded σ) source target) := by
  rcases Vfs.rename_cases (σ := Recorded σ) source target with ⟨q, q', hq, hq', heq⟩ | ⟨e, heq⟩
  · rw [heq]
    refine Or.inr ⟨fun p hp => ?_, fun v => ⟨_, rfl, fun p hp => ?_⟩⟩
    · rcases List.mem_pair.mp hp with rfl | rfl
      · exact ⟨q, hq⟩
      · exact ⟨q', hq'⟩
    · rcases List.mem_pair.mp hp with rfl | rfl
      · exact ⟨source, List.mem_cons_self, hq⟩
      · exact ⟨target, List.mem_cons_of_mem _ List.mem_cons_self, hq'⟩
  · rw [heq]
    exact throw e

end OneCall

namespace VfsOperation

variable {σ : Type} [Platform σ]

/-- Every operation but the layout is one call or none. The call, if there is one, is made with a path that has been
    checked. -/
theorem oneCall {op : VfsOperation} (h : op ≠ initializeLayout) :
    OneCall op.paths (op.run (σ := Recorded σ)) := by
  cases op with
  | existsAt path => exact (OneCall.existsAt path).map _
  | read path => exact (OneCall.read path).map _
  | write path data => exact OneCall.write path data
  | list path => exact (OneCall.list path).map _
  | createDirAll path => exact OneCall.createDirAll path
  | remove path => exact OneCall.remove path
  | rename source target => exact OneCall.rename source target
  | initializeLayout => exact absurd rfl h

/-- The layout is made of storage paths. It is the one operation that does not check its paths, since they are
    constants. -/
theorem emits_initializeLayout : Op.Emits
    (fun ev => ∀ e ∈ ev, ∀ q ∈ e.storagePaths, StoragePath q)
    (Vfs.initializeLayout (σ := Recorded σ)) := by
  have hlayout : ∀ q ∈ Vfs.layout, Routes ('/' :: q) q := by decide
  -- by the directories of the layout, each of which is one call with its own path
  have hall : ∀ paths : List Str, (∀ q ∈ paths, StoragePath q) →
      Op.Emits (fun ev => ∀ e ∈ ev, ∀ q ∈ e.storagePaths, StoragePath q)
        (paths.forM fun path => Vfs.onPlatform (σ := Recorded σ)
          (Platform.storageCreateDirAll path)) := by
    intro paths hpaths
    induction paths with
    | nil => exact (Op.Silent.pure _).emits fun e he => (by cases he)
    | cons path paths ih =>
      refine Op.Emits.bind (fun v => ⟨_, rfl, fun e he q hq => ?_⟩) fun _ =>
        ih fun q hq => hpaths q (List.mem_cons_of_mem _ hq)
      rw [List.mem_singleton.mp he] at hq
      rw [List.mem_singleton.mp hq]
      exact hpaths path List.mem_cons_self
  exact hall Vfs.layout fun q hq => (hlayout q hq).storagePath

/-- What an operation emits, the layout included: calls with storage paths, and none at all for a system path. -/
theorem emits_run (op : VfsOperation) : Op.Emits
    (fun ev => (∀ e ∈ ev, ∀ q ∈ e.storagePaths, StoragePath q) ∧
      ((∃ path ∈ op.paths, InSys path) → ev = [])) (op.run (σ := Recorded σ)) := by
  intro v
  by_cases hop : op = initializeLayout
  · subst hop
    obtain ⟨ev, hlog, hev⟩ := emits_initializeLayout (σ := σ) v
    exact ⟨ev, hlog, hev, fun ⟨path, hpath, _⟩ => (by cases hpath)⟩
  · -- either nothing reached the backend, or all paths are routed, and then none of them is in `/sys`
    rcases oneCall (σ := σ) hop with hsilent | ⟨hroutes, hcall⟩
    · refine ⟨[], ?_, fun e he => (by cases he), fun _ => rfl⟩
      rw [hsilent v, List.append_nil]
    · obtain ⟨e, hlog, he⟩ := hcall v
      refine ⟨[e], hlog, fun e' he' q hq => ?_, fun ⟨path, hpath, hsys⟩ => ?_⟩
      · rw [List.mem_singleton.mp he'] at hq
        obtain ⟨path, -, hroute⟩ := he q hq
        exact hroute.storagePath
      · obtain ⟨q, hq⟩ := hroutes path hpath
        exact absurd hq hsys.not_routes

/-- A change in `/sys` is refused as one to a read-only mount, provided that all paths of the operation resolve. For
    `rename` the error names `/sys` itself, for the others the path. -/
theorem readOnly_of_inSys {op : VfsOperation} (hop : op.mutates = true)
    (hresolve : ∀ path ∈ op.paths, ∃ p, normalizePath "/".toList path = .ok p)
    (hsys : ∃ path ∈ op.paths, InSys path) (v : Vfs (Recorded σ)) :
    ∃ p, (op.run v).1 = .error (.readOnly p) := by
  cases op with
  | existsAt path => cases hop
  | read path => cases hop
  | list path => cases hop
  | initializeLayout => cases hop
  | write path data =>
    obtain ⟨_, hpath, p, hn, hsys⟩ := hsys
    rw [List.mem_singleton.mp hpath] at hn
    rw [run, Vfs.write_eq_routed, Vfs.routed_of_sys hn hsys]
    exact ⟨p, rfl⟩
  | createDirAll path =>
    obtain ⟨_, hpath, p, hn, hsys⟩ := hsys
    rw [List.mem_singleton.mp hpath] at hn
    rw [run, Vfs.createDirAll_eq_routed, Vfs.routed_of_sys hn hsys]
    exact ⟨p, rfl⟩
  | remove path =>
    obtain ⟨_, hpath, p, hn, hsys⟩ := hsys
    rw [List.mem_singleton.mp hpath] at hn
    refine ⟨p, ?_⟩
    simp only [run, Vfs.remove, hn, Op.run_bind, Op.run_ofExcept, hsys, if_true, Op.run_throw]
  | rename source target =>
    obtain ⟨p, hp⟩ := hresolve source List.mem_cons_self
    obtain ⟨p', hp'⟩ := hresolve target (List.mem_cons_of_mem _ List.mem_cons_self)
    -- one of the two paths is in `/sys`, and `rename` asks for either
    have heither : (isPathPrefix "/sys".toList p || isPathPrefix "/sys".toList p') = true := by
      obtain ⟨path, hpath, r, hn, hr⟩ := hsys
      rw [Bool.or_eq_true]
      rcases List.mem_pair.mp hpath with rfl | rfl
      · rw [Except.ok.inj (hp.symm.trans hn)]
        exact Or.inl hr
      · rw [Except.ok.inj (hp'.symm.trans hn)]
        exact Or.inr hr
    refine ⟨"/sys".toList, ?_⟩
    rw [run, Vfs.rename_eq hp hp', if_pos heither]
    rfl

end VfsOperation

/-- What a backend may rely on. Every storage path it is given is canonical and in one of its
    mounts; an operation with a path in `/sys` does not come through to it, and is refused as a
    write to a read-only mount if it is there to change something and all its paths resolve. -/
theorem Vfs.mounts_respected {σ : Type} [Platform σ] (op : VfsOperation) (v : Vfs (Recorded σ)) :
    (∃ events, (op.run v).2.platform.log = v.platform.log ++ events ∧
        (∀ e ∈ events, ∀ q ∈ e.storagePaths, StoragePath q) ∧
        ((∃ path ∈ op.paths, InSys path) → events = [])) ∧
      (op.mutates = true → (∃ path ∈ op.paths, InSys path) →
        (∀ path ∈ op.paths, ∃ p, normalizePath "/".toList path = .ok p) →
        ∃ p, (op.run v).1 = .error (.readOnly p)) :=
  ⟨op.emits_run v, fun hop hsys hresolve => VfsOperation.readOnly_of_inSys hop hresolve hsys v⟩

/-- A rename out of `/sys` to a path that does not resolve. It is the other path that is complained of, so the
    condition that all paths resolve is needed. -/
theorem Vfs.rename_in_sys_not_readOnly :
    InSys "/sys/a".toList ∧
      ((VfsOperation.rename "/sys/a".toList "..".toList).run
        (⟨⟨Obliging.mk, []⟩, []⟩ : Vfs (Recorded Obliging))).1 = .error .invalidPath :=
  ⟨⟨"/sys/a".toList, by decide, by decide⟩, by decide⟩

end Afos
