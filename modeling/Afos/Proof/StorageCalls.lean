import Afos.Machine
import Afos.Proof.Tree

/-!
# What a storage call does to the tree

The four calls that change the tree, as one type, and one statement about all of them:
`run_cases` lists the ways a call on a well-formed tree can end. It succeeds, with the change
`Succeeds` describes; or it fails with the tree as it was; or it is a rename of something that
is not there, to a place whose parents were not all there, and then it fails and the parents
stay (`LeavesParents`). Saving may fail at any point it is tried, for any reason: the device
behind the store is arbitrary.

Everything else about whole runs of such calls is read off that list.
-/

set_option autoImplicit false

namespace Afos

open Lib

/-- The storage calls that change the tree. -/
inductive StorageOp where
  | write (path : Str) (data : Bytes)
  | createDirAll (path : Str)
  | remove (path : Str)
  | rename (source target : Str)
  deriving DecidableEq

namespace StorageOp

variable {D η : Type} [BlockDevice D]

def run : StorageOp → Op Error (BareMetalPlatform D η) Unit
  | write path data => BareMetalPlatform.storageWrite path data
  | createDirAll path => BareMetalPlatform.storageCreateDirAll path
  | remove path => BareMetalPlatform.storageRemove path
  | rename source target => BareMetalPlatform.storageRename source target

/-- The platform after a sequence of calls, whatever each of them answered. -/
def runAll (ops : List StorageOp) (p : BareMetalPlatform D η) : BareMetalPlatform D η :=
  ops.foldl (fun p op => (op.run p).2) p

/-- The paths a call is given. -/
def paths : StorageOp → List Str
  | write path _ | createDirAll path | remove path => [path]
  | rename source target => [source, target]

/-- The change of tree a successful call makes. The parents of what is written or moved to are entered first, by the
    same loop in each of them. A rename of a path to itself succeeds without looking whether anything is there. -/
def Succeeds : StorageOp → FileTree → FileTree → Prop
  | write path data, t, t' =>
      t.directories.contains path = false ∧
        ∃ t₁, FileTree.Entered t (parent path) t₁ ∧ t' = t₁.insertFile path data
  | createDirAll path, t, t' => FileTree.Entered t path t'
  | remove path, t, t' =>
      t.files.contains path = true ∧ t' = t.removeFile path ∨
        t.files.contains path = false ∧ t.directories.contains path = true ∧
          t' = t.removeSubtree path
  | rename source target, t, t' =>
      source = target ∧ t' = t ∨
        source ≠ target ∧ t.existsAt target = false ∧ ¬ Below source target ∧
          ∃ t₁, FileTree.Entered t (parent target) t₁ ∧
            ((∃ data, t.files.lookup source = some data ∧
                t' = (t₁.removeFile source).insertFile target data) ∨
              t.files.contains source = false ∧ t.directories.contains source = true ∧
                t' = t₁.moveSubtree source target)

/-- A rename that fails because its source is not there, after it has made parents for its
    target: the target is free, no file is in the way, and some parent was missing. -/
def LeavesParents : StorageOp → FileTree → Prop
  | rename source target, t =>
      source ≠ target ∧ t.existsAt source = false ∧ t.existsAt target = false ∧
        ¬ Below source target ∧
        (∀ p, p ≠ [] → Below p target → t.files.contains p = false) ∧
        ∃ p, p ≠ [] ∧ Below p target ∧ t.directories.contains p = false
  | _, _ => False

end StorageOp

namespace FileTree

/-- Entering what is there already changes nothing, so a call whose parents are all there can fail without leaving a
    trace. -/
theorem Entered.eq_self {t t' : FileTree} {q : Str} (he : Entered t q t')
    (h : ∀ p, Leads p q → t.directories.contains p = true) : t' = t := by
  have hdirs : t'.directories = t.directories := by
    refine OrdMap.ext_lookup fun k => Option.ext fun v => ?_
    have hk : t'.directories.contains k = true ↔ t.directories.contains k = true := by
      rw [he.directories]
      exact ⟨fun hor => hor.elim id (h k), Or.inl⟩
    rw [OrdMap.contains_iff, OrdMap.contains_iff] at hk
    exact ⟨fun hv => (hk.mp ⟨v, hv⟩).elim fun _ hx => hx, fun hv => (hk.mpr ⟨v, hv⟩).elim fun _ hx => hx⟩
  cases t
  cases t'
  simp only [mk.injEq]
  exact ⟨he.files, hdirs⟩

/-- Entering the parents of a path makes no entry of the path itself. -/
theorem Entered.directories_of_not_below {t t' : FileTree} {q p : Str}
    (he : Entered t (parent q) t') (hb : ¬ Below p q) :
    t'.directories.contains p = t.directories.contains p := by
  refine Bool.eq_iff_iff.mpr ?_
  rw [he.directories]
  refine ⟨fun h => h.elim id fun hl => ?_, Or.inl⟩
  exact absurd ((leads_parent_iff hl.1).mp hl) hb

end FileTree

namespace BareMetalPlatform

variable {D η α : Type}

@[simp] theorem run_onTree (x : Op Error FileTree α) (p : BareMetalPlatform D η) :
    onTree x p = ((x p.tree).1, { p with tree := (x p.tree).2 }) := rfl

variable [BlockDevice D]

/-- Saving succeeds and the tree stays, or fails and the copy is back. The source takes the copy at the beginning of
    each call, and puts it back in `commit` and nowhere else: a call that ends before it keeps what it has done. -/
theorem commit_cases (previous : FileTree) (p : BareMetalPlatform D η) :
    (∃ s, commit previous p = (.ok (), { p with persistence := s })) ∨
      ∃ e s, commit previous p = (.error e, { p with persistence := s, tree := previous }) := by
  unfold commit persist
  cases hs : p.persistence with
  | none => exact Or.inl ⟨none, by simp [← hs]⟩
  | some store =>
    cases hsave : (SnapshotStore.save p.tree store).1 with
    | ok u => exact Or.inl ⟨some (SnapshotStore.save p.tree store).2, by
        simp only [hsave, mapStorageError]⟩
    | error e => exact Or.inr ⟨storageError e, some (SnapshotStore.save p.tree store).2, by
        simp only [hsave, mapStorageError]⟩

/-- A change of the tree and then `commit`: the change, or nothing. What the store remembers may have changed in either
    case, and is not looked at here. -/
theorem modify_commit_cases (f : FileTree → FileTree) (previous : FileTree)
    (p : BareMetalPlatform D η) :
    ∃ r p', (onTree (Op.modify f) >>= fun _ => commit previous) p = (r, p') ∧
      (r = .ok () ∧ p'.tree = f p.tree ∨ (∃ e, r = .error e) ∧ p'.tree = previous) := by
  rw [Op.run_bind]
  simp only [run_onTree, Op.run_modify]
  rcases commit_cases previous { p with tree := f p.tree } with ⟨s, h⟩ | ⟨e, s, h⟩
  · exact ⟨_, _, h, Or.inl ⟨rfl, rfl⟩⟩
  · exact ⟨_, _, h, Or.inr ⟨⟨e, rfl⟩, rfl⟩⟩

end BareMetalPlatform

namespace StorageOp

variable {D η : Type} [BlockDevice D] {p : BareMetalPlatform D η}

/-- The ways a call can end. `unchanged` and `strayed` exclude each other, so the list says not only what can happen
    but when a failing call leaves something. -/
inductive Ending (op : StorageOp) (t : FileTree) (out : Except Error Unit × BareMetalPlatform D η) :
    Prop
  | succeeded (result : out.1 = .ok ()) (tree : op.Succeeds t out.2.tree)
  | unchanged (e : Error) (result : out.1 = .error e) (tree : out.2.tree = t)
      (no : ¬ op.LeavesParents t)
  | strayed (e : Error) (result : out.1 = .error e) (source target : Str)
      (call : op = .rename source target) (tree : FileTree.Entered t (parent target) out.2.tree)
      (leaves : op.LeavesParents t)

/-- The common end of every call: the change is made and saved, or taken back. -/
theorem Ending.of_modify_commit {op : StorageOp} {t : FileTree} (f : FileTree → FileTree)
    (hs : op.Succeeds t (f p.tree)) (hno : ¬ op.LeavesParents t) :
    op.Ending t ((BareMetalPlatform.onTree (Op.modify f) >>= fun _ =>
      BareMetalPlatform.commit t) p) := by
  obtain ⟨r, p', hrun, hend⟩ := BareMetalPlatform.modify_commit_cases f t p
  rw [hrun]
  rcases hend with ⟨rfl, htree⟩ | ⟨⟨e, rfl⟩, htree⟩
  · exact .succeeded rfl (htree ▸ hs)
  · exact .unchanged e rfl htree hno

theorem write_cases (h : p.tree.WellFormed) {path : Str} (hc : IsCanonical path) (data : Bytes) :
    (write path data).Ending p.tree ((write path data).run p) := by
  simp only [run, BareMetalPlatform.storageWrite, Op.run_bind, Op.run_read]
  cases hd : p.tree.directories.contains path with
  | true => exact .unchanged (.isDirectory path) rfl rfl id
  | false =>
    rcases h.addParents_cases (isCanonical_parent hc) with ⟨t₁, hrun, hent⟩ | ⟨q, hrun, -, -⟩
    · simp only [Bool.false_eq_true, if_false, Op.run_bind, BareMetalPlatform.run_onTree, hrun]
      exact Ending.of_modify_commit (p := { p with tree := t₁ })
        (fun tree => tree.insertFile path data) ⟨hd, t₁, hent, rfl⟩ id
    · simp only [Bool.false_eq_true, if_false, Op.run_bind, BareMetalPlatform.run_onTree, hrun]
      exact .unchanged _ rfl rfl id

theorem createDirAll_cases (h : p.tree.WellFormed) {path : Str} (hc : IsCanonical path) :
    (createDirAll path).Ending p.tree ((createDirAll path).run p) := by
  simp only [run, BareMetalPlatform.storageCreateDirAll, Op.run_bind, Op.run_read,
    BareMetalPlatform.run_onTree]
  rcases h.addParents_cases hc with ⟨t₁, hrun, hent⟩ | ⟨q, hrun, -, -⟩
  · simp only [hrun]
    rcases BareMetalPlatform.commit_cases p.tree { p with tree := t₁ } with ⟨s, hcm⟩ | ⟨e, s, hcm⟩
    · rw [hcm]
      exact .succeeded rfl hent
    · rw [hcm]
      exact .unchanged e rfl rfl id
  · simp only [hrun]
    exact .unchanged _ rfl rfl id

theorem remove_cases (path : Str) : (remove path).Ending p.tree ((remove path).run p) := by
  simp only [run, BareMetalPlatform.storageRemove]
  rw [Op.run_bind, Op.run_read]
  -- a file is looked for first; a directory goes with everything below it
  cases hf : p.tree.files.contains path with
  | true =>
    simp only [hf, if_true]
    exact Ending.of_modify_commit (fun tree => tree.removeFile path) (Or.inl ⟨hf, rfl⟩) id
  | false =>
    cases hd : p.tree.directories.contains path with
    | false =>
      simp only [hf, hd, Bool.false_eq_true, if_false, Bool.not_false, if_true]
      exact .unchanged (.notFound path) rfl rfl id
    | true =>
      simp only [hf, hd, Bool.false_eq_true, if_false, Bool.not_true]
      exact Ending.of_modify_commit (fun tree => tree.removeSubtree path)
        (Or.inr ⟨hf, hd, rfl⟩) id

theorem not_leavesParents_of_existsAt {source target : Str} {t : FileTree}
    (h : t.existsAt source = true) : ¬ (rename source target).LeavesParents t := by
  rintro ⟨-, hs, -⟩
  rw [h] at hs
  cases hs

/-- The end of a rename, after the parents of its target are in. Whether the source is there is tested only now, and
    entering the parents has not changed that: the source is not above the target. -/
theorem moveEntry_cases {t t₁ : FileTree} {source target : Str} (hp : p.tree = t₁)
    (hne : source ≠ target) (hex : t.existsAt target = false) (hb : ¬ Below source target)
    (he : FileTree.Entered t (parent target) t₁) :
    (rename source target).Ending t (BareMetalPlatform.moveEntry source target t p) := by
  have hdirs : t₁.directories.contains source = t.directories.contains source :=
    he.directories_of_not_below hb
  simp only [BareMetalPlatform.moveEntry]
  rw [Op.run_bind, Op.run_read]
  simp only [hp, he.files, hdirs]
  cases hl : t.files.lookup source with
  | some data =>
    have hfile : t.files.contains source = true := OrdMap.contains_iff.mpr ⟨data, hl⟩
    refine Ending.of_modify_commit
      (fun tree => (tree.removeFile source).insertFile target data) ?_
      (not_leavesParents_of_existsAt (FileTree.existsAt_iff.mpr (Or.inl hfile)))
    exact Or.inr ⟨hne, hex, hb, t₁, he, Or.inl ⟨data, hl, by rw [hp]⟩⟩
  | none =>
    have hfile : t.files.contains source = false := by rw [OrdMap.contains, hl]; rfl
    cases hd : t.directories.contains source with
    | true =>
      simp only [Bool.not_true, Bool.false_eq_true, if_false]
      refine Ending.of_modify_commit (fun tree => tree.moveSubtree source target) ?_
        (not_leavesParents_of_existsAt (FileTree.existsAt_iff.mpr (Or.inr hd)))
      exact Or.inr ⟨hne, hex, hb, t₁, he, Or.inr ⟨hfile, hd, by rw [hp]⟩⟩
    | false =>
      simp only [Bool.not_false, if_true, Op.run_throw]
      have hsrc : t.existsAt source = false := FileTree.existsAt_eq_false_iff.mpr ⟨hfile, hd⟩
      -- the source is missing: whether anything was left depends on the parents alone
      by_cases hmiss : ∃ q, q ≠ [] ∧ Below q target ∧ t.directories.contains q = false
      · refine .strayed (.notFound source) rfl source target rfl (hp ▸ he) ?_
        exact ⟨hne, hsrc, hex, hb, fun q hq hbq => he.clear ((leads_parent_iff hq).mpr hbq), hmiss⟩
      · refine .unchanged (.notFound source) rfl ?_ fun hno => hmiss hno.2.2.2.2.2
        rw [hp]
        refine he.eq_self fun q hq => ?_
        refine Bool.of_not_eq_false fun hfalse => hmiss ⟨q, hq.1, ?_, hfalse⟩
        exact (leads_parent_iff hq.1).mp hq

/-- The tests of a rename, in the order of the source: the same path, a target that is taken, a target below the
    source, a file among the parents of the target, and last a source that is not there. -/
theorem rename_cases (h : p.tree.WellFormed) (source : Str) {target : Str}
    (hc : IsCanonical target) :
    (rename source target).Ending p.tree ((rename source target).run p) := by
  simp only [run, BareMetalPlatform.storageRename]
  rw [Op.run_bind, Op.run_read]
  by_cases hne : source = target
  · simp only [hne, if_true]
    exact .succeeded rfl (Or.inl ⟨rfl, rfl⟩)
  · simp only [hne, if_false]
    cases hex : p.tree.existsAt target with
    | true =>
      refine .unchanged (.alreadyExists target) rfl rfl fun hno => ?_
      rw [hno.2.2.1] at hex
      cases hex
    | false =>
      simp only [Bool.false_eq_true, if_false]
      by_cases hb : Below source target
      · rw [if_pos (below_iff_stripPrefix.mpr hb)]
        exact .unchanged .invalidPath rfl rfl fun hno => hno.2.2.2.1 hb
      · rw [if_neg fun hq => hb (below_iff_stripPrefix.mp hq), Op.run_bind,
          BareMetalPlatform.run_onTree]
        rcases h.addParents_cases (isCanonical_parent hc) with ⟨t₁, hrun, hent⟩ | ⟨q, hrun, hl, hf⟩
        · simp only [hrun]
          exact moveEntry_cases (p := { p with tree := t₁ }) rfl hne hex hb hent
        · simp only [hrun]
          refine .unchanged (.notDirectory q) rfl rfl fun hno => ?_
          have hclear := hno.2.2.2.2.1 q hl.1 ((leads_parent_iff hl.1).mp hl)
          rw [hf] at hclear
          cases hclear

/-- The list of endings, for all four calls. -/
theorem run_cases (h : p.tree.WellFormed) {op : StorageOp} (hc : ∀ q ∈ op.paths, IsCanonical q) :
    op.Ending p.tree (op.run p) := by
  cases op with
  | write path data => exact write_cases h (hc path (by simp [paths])) data
  | createDirAll path => exact createDirAll_cases h (hc path (by simp [paths]))
  | remove path => exact remove_cases path
  | rename source target => exact rename_cases h source (hc target (by simp [paths]))

end StorageOp

/-! ## Machines without a disk -/

namespace BareMetalPlatform

variable {D η : Type}

/-- Whether the machine has a disk. No call changes that, though it may change what the store remembers. -/
def hasDisk (p : BareMetalPlatform D η) : Bool := p.persistence.isSome

theorem keeps_onTree {α : Type} (x : Op Error FileTree α) :
    Op.Keeps (Op.Same hasDisk) (onTree x : Op Error (BareMetalPlatform D η) α) := fun _ => rfl

variable [BlockDevice D]

theorem commit_diskless {p : BareMetalPlatform D η} (h : p.persistence = none) (previous : FileTree) :
    commit previous p = (.ok (), p) := by
  simp only [commit, persist, h]

theorem keeps_commit (previous : FileTree) :
    Op.Keeps (Op.Same hasDisk) (commit previous : Op Error (BareMetalPlatform D η) Unit) := by
  intro p
  rw [Op.Same, hasDisk, hasDisk]
  cases hp : p.persistence with
  | none => rw [commit_diskless hp, hp]
  | some store =>
    simp only [commit, persist, hp]
    cases mapStorageError (SnapshotStore.save p.tree store).1 <;> rfl

theorem keeps_onTree_commit {α : Type} (x : Op Error FileTree α) (previous : FileTree) :
    Op.Keeps (Op.Same hasDisk)
      (onTree x >>= fun _ => commit previous : Op Error (BareMetalPlatform D η) Unit) :=
  Op.Keeps.bind (keeps_onTree x) fun _ => keeps_commit previous

theorem keeps_moveEntry (source target : Str) (previous : FileTree) :
    Op.Keeps (Op.Same hasDisk)
      (moveEntry source target previous : Op Error (BareMetalPlatform D η) Unit) := by
  refine Op.Keeps.bind Op.Keeps.read fun p => ?_
  split
  · exact keeps_onTree_commit _ previous
  · exact Op.Keeps.ite (Op.Keeps.throw _) (keeps_onTree_commit _ previous)

end BareMetalPlatform

namespace StorageOp

variable {D η : Type} [BlockDevice D]

open BareMetalPlatform in
theorem keeps_run (op : StorageOp) :
    Op.Keeps (Op.Same hasDisk) (op.run : Op Error (BareMetalPlatform D η) Unit) := by
  cases op with
  | write path data =>
    exact Op.Keeps.bind Op.Keeps.read fun p => Op.Keeps.ite (Op.Keeps.throw _)
      (Op.Keeps.bind (keeps_onTree _) fun _ => keeps_onTree_commit _ p.tree)
  | createDirAll path => exact Op.Keeps.bind Op.Keeps.read fun p => keeps_onTree_commit _ p.tree
  | remove path =>
    exact Op.Keeps.bind Op.Keeps.read fun p => Op.Keeps.ite (keeps_onTree_commit _ p.tree)
      (Op.Keeps.ite (Op.Keeps.throw _) (keeps_onTree_commit _ p.tree))
  | rename source target =>
    exact Op.Keeps.bind Op.Keeps.read fun p => Op.Keeps.ite (Op.Keeps.pure _)
      (Op.Keeps.ite (Op.Keeps.throw _) (Op.Keeps.ite (Op.Keeps.throw _)
        (Op.Keeps.bind (keeps_onTree _) fun _ => keeps_moveEntry source target p.tree)))

/-- A machine without a disk does not get one. -/
theorem run_diskless {p : BareMetalPlatform D η} (h : p.persistence = none) (op : StorageOp) :
    (op.run p).2.persistence = none := by
  have hkeep : (op.run p).2.persistence.isSome = p.persistence.isSome := keeps_run op p
  rw [h] at hkeep
  exact Option.isSome_eq_false_iff.mp hkeep |> Option.isNone_iff_eq_none.mp

end StorageOp

/-! ## Failing calls -/

namespace StorageOp

section Failing

variable {D η : Type} [BlockDevice D]

/-- A storage call that fails leaves the tree as it was, *unless* it is a rename of a missing source that had to make
    parents for its target: those it leaves behind. The tree before is copied for the case that saving fails, and
    the error for a missing source is returned without going back to it. -/
theorem failed_call_keeps_tree_iff (p : BareMetalPlatform D η) (h : p.tree.WellFormed)
    (op : StorageOp) (hc : ∀ q ∈ op.paths, IsCanonical q) :
    (∀ e, (op.run p).1 = .error e → (op.run p).2.tree = p.tree) ↔ ¬ op.LeavesParents p.tree := by
  cases run_cases h hc with
  | succeeded result tree =>
    refine ⟨fun _ hno => ?_, fun _ e he => ?_⟩
    · -- the source of a rename that leaves parents is not there, so it did not succeed
      cases op with
      | rename source target =>
        obtain ⟨hne, hs, -, -⟩ := hno
        rw [FileTree.existsAt_eq_false_iff] at hs
        rcases tree with ⟨heq, -⟩ | ⟨-, -, -, t₁, -, ⟨data, hl, -⟩ | ⟨-, hd, -⟩⟩
        · exact hne heq
        · rw [OrdMap.contains_iff.mpr ⟨data, hl⟩] at hs
          cases hs.1
        · rw [hd] at hs
          cases hs.2
      | write | createDirAll | remove => exact hno
    · rw [result] at he
      cases he
  | unchanged e result tree no => exact ⟨fun _ => no, fun _ _ _ => tree⟩
  | strayed e result source target call tree leaves =>
    refine ⟨fun hkeep => ?_, fun hno => absurd leaves hno⟩
    subst call
    obtain ⟨q, hq, hb, hmiss⟩ := leaves.2.2.2.2.2
    have hin : (((rename source target).run p).2).tree.directories.contains q = true :=
      tree.directories.mpr (Or.inr ((leads_parent_iff hq).mpr hb))
    rw [hkeep e result, hmiss] at hin
    cases hin

end Failing

/-- Renaming a missing file into a directory that is missing too, on an empty tree: the call
    answers that there is no such file, and the directory is there afterwards. -/
theorem failed_rename_leaves_parent :
    (((rename "user/a".toList "user/b/c".toList).run (diskless FileTree.empty [])).1 =
        .error (.notFound "user/a".toList)) ∧
      ((rename "user/a".toList "user/b/c".toList).run
          (diskless FileTree.empty [])).2.tree.directories.contains "user/b".toList = true ∧
      FileTree.empty.WellFormed ∧ FileTree.empty.directories.contains "user/b".toList = false :=
  ⟨by decide, by decide, FileTree.wellFormed_empty, by decide⟩

/-- A machine with the directory of the user and two files in it, on a disk that takes no write. -/
def unsaved : BareMetalPlatform NoDisk Keyboard :=
  { diskless (noteTree.insertFile "user/b".toList [1]) [] with persistence := some ⟨⟨⟩, 100, none, 0⟩ }

theorem wellFormed_unsaved : unsaved.tree.WellFormed :=
  FileTree.wellFormed_of_keys (by decide +kernel) (by decide +kernel)

/-- Two calls that fail: a file is overwritten in memory before the save of it fails, and a rename has its target
    taken. Both files are there afterwards, as they were. -/
theorem failed_calls_keep_unsaved_tree :
    (((write "user/a".toList [2]).run unsaved).1 = .error (storageError noDiskError) ∧
        ((write "user/a".toList [2]).run unsaved).2.tree = unsaved.tree) ∧
      ((rename "user/a".toList "user/b".toList).run unsaved).1 = .error (.alreadyExists "user/b".toList) ∧
        ((rename "user/a".toList "user/b".toList).run unsaved).2.tree = unsaved.tree := by
  have hwrite : ((write "user/a".toList [2]).run unsaved).1 = .error (storageError noDiskError) := by decide +kernel
  have hrename : ((rename "user/a".toList "user/b".toList).run unsaved).1 =
      .error (.alreadyExists "user/b".toList) := by decide +kernel
  have htaken : unsaved.tree.existsAt "user/b".toList = true := by decide +kernel
  refine ⟨⟨hwrite, ?_⟩, hrename, ?_⟩
  · exact (failed_call_keeps_tree_iff unsaved wellFormed_unsaved (write "user/a".toList [2])
      (by decide)).mpr id _ hwrite
  · refine (failed_call_keeps_tree_iff unsaved wellFormed_unsaved (rename "user/a".toList "user/b".toList)
      (by decide)).mpr (fun hleaves => ?_) _ hrename
    -- a rename leaves directories behind only where its target is free
    rw [hleaves.2.2.1] at htaken
    cases htaken

end StorageOp

/-! ## Whole runs -/

namespace FileTree

/-- Nothing sits at the root's own path. The empty path stands for the root in the calls, and has no entry. -/
def NoRoot (t : FileTree) : Prop := t.existsAt [] = false

theorem Entered.noRoot {t t' : FileTree} {q : Str} (h : t.NoRoot) (he : Entered t q t') :
    t'.NoRoot := by
  rw [NoRoot, existsAt_eq_false_iff] at h ⊢
  refine ⟨by rw [he.files]; exact h.1, Bool.eq_false_iff.mpr fun hd => ?_⟩
  rcases he.directories.mp hd with hd | hl
  · rw [h.2] at hd
    cases hd
  · exact hl.1 rfl

theorem NoRoot.insertFile {t : FileTree} (h : t.NoRoot) {q : Str} (hq : q ≠ []) (data : Bytes) :
    (t.insertFile q data).NoRoot := by
  rw [NoRoot, existsAt_eq_false_iff] at h ⊢
  simpa [FileTree.insertFile, hq] using h

theorem NoRoot.removeFile {t : FileTree} (h : t.NoRoot) (q : Str) : (t.removeFile q).NoRoot := by
  rw [NoRoot, existsAt_eq_false_iff] at h ⊢
  simp [FileTree.removeFile, h]

theorem NoRoot.removeSubtree {t : FileTree} (h : t.NoRoot) (q : Str) :
    (t.removeSubtree q).NoRoot := by
  rw [NoRoot, existsAt_eq_false_iff] at h ⊢
  refine ⟨Bool.eq_false_iff.mpr fun hf => ?_, Bool.eq_false_iff.mpr fun hd => ?_⟩
  · rw [(contains_removeSubtree_files.mp hf).1] at h
    cases h.1
  · rw [(contains_removeSubtree_directories.mp hd).1] at h
    cases h.2

theorem not_at_nil {q : Str} (hq : q ≠ []) : ¬ At q [] := by
  rintro (hq' | ⟨s, hs⟩)
  · exact hq hq'.symm
  · simp at hs

theorem NoRoot.moveSubtree {t : FileTree} (h : t.NoRoot) {source target : Str}
    (hfree : ∀ {p}, At target p → t.existsAt p = false) (hq : target ≠ []) :
    (t.moveSubtree source target).NoRoot := by
  have hfree' := fun {p} (hp : At target p) => existsAt_eq_false_iff.mp (hfree hp)
  rw [NoRoot, existsAt_eq_false_iff] at h ⊢
  refine ⟨Bool.eq_false_iff.mpr fun hf => ?_, Bool.eq_false_iff.mpr fun hd => ?_⟩
  · obtain ⟨v, hv⟩ := OrdMap.contains_iff.mp hf
    rcases (lookup_moveSubtree_files source fun hp => (hfree' hp).1).mp hv with ⟨p, hp, -, heq⟩ | ⟨-, hl⟩
    · exact not_at_nil hq (heq ▸ rebased_at target (Or.inr hp))
    · rw [OrdMap.contains_iff.mpr ⟨v, hl⟩] at h
      cases h.1
  · rcases (contains_moveSubtree_directories source fun hp => (hfree' hp).2).mp hd with
      ⟨p, hp, -, heq⟩ | ⟨-, hl⟩
    · exact not_at_nil hq (heq ▸ rebased_at target hp)
    · rw [hl] at h
      cases h.2

/-- The shape of a tree all of whose paths are proper ones. This is what the calls keep; `WellFormed` alone they do
    not, as a subtree could be moved onto the root. -/
structure Sound (t : FileTree) : Prop where
  wellFormed : t.WellFormed
  noRoot : t.NoRoot

theorem Sound.entered {t t' : FileTree} {q : Str} (h : t.Sound) (he : Entered t q t') :
    t'.Sound := ⟨h.wellFormed.entered he, he.noRoot h.noRoot⟩

/-- Writing a file whose parents have just been entered. -/
theorem Sound.insertFile {t t₁ : FileTree} {q : Str} (h : t₁.Sound) (hq : q ≠ [])
    (he : Entered t (parent q) t₁) (hd : t.directories.contains q = false) (data : Bytes) :
    (t₁.insertFile q data).Sound := by
  refine ⟨h.wellFormed.insertFile ?_ fun hp hb => ?_, h.noRoot.insertFile hq data⟩
  · rw [he.directories_of_not_below fun hb => hb.ne rfl, hd]
  · exact he.directories.mpr (Or.inr ((leads_parent_iff hp).mpr hb))

end FileTree

namespace StorageOp

/-- A successful call keeps the shape of the tree. One case for each kind of change; moving a subtree is the one that
    takes an argument, because many paths change at once. -/
theorem Succeeds.sound {op : StorageOp} {t t' : FileTree} (hs : op.Succeeds t t') (h : t.Sound)
    (hc : ∀ q ∈ op.paths, q ≠ []) : t'.Sound := by
  cases op with
  | write path data =>
    obtain ⟨hd, t₁, he, rfl⟩ := hs
    exact (h.entered he).insertFile (hc path (by simp [paths])) he hd data
  | createDirAll path => exact h.entered hs
  | remove path =>
    rcases hs with ⟨-, rfl⟩ | ⟨-, -, rfl⟩
    · exact ⟨h.wellFormed.removeFile path, h.noRoot.removeFile path⟩
    · exact ⟨h.wellFormed.removeSubtree path, h.noRoot.removeSubtree path⟩
  | rename source target =>
    have hne : target ≠ [] := hc target (by simp [paths])
    rcases hs with ⟨-, rfl⟩ | ⟨hst, hex, hb, t₁, he, hmove⟩
    · exact h
    have h₁ : t₁.Sound := h.entered he
    have hexD := (FileTree.existsAt_eq_false_iff.mp hex).2
    rcases hmove with ⟨data, -, rfl⟩ | ⟨-, hd, rfl⟩
    · have h₂ : (t₁.removeFile source).Sound :=
        ⟨h₁.wellFormed.removeFile source, h₁.noRoot.removeFile source⟩
      refine ⟨h₂.wellFormed.insertFile ?_ fun hp hbp => ?_, h₂.noRoot.insertFile hne data⟩
      · exact (he.directories_of_not_below fun hbt => hbt.ne rfl).trans hexD
      · exact he.directories.mpr (Or.inr ((leads_parent_iff hp).mpr hbp))
    · -- the place moved to is free, and so is everything below it
      have hfree : ∀ {p}, FileTree.At target p → t₁.existsAt p = false := by
        intro p hp
        refine Bool.eq_false_iff.mpr fun hpe => ?_
        have hte : t₁.existsAt target = true := by
          rcases hp with rfl | hp
          · exact hpe
          · exact h₁.wellFormed.existsAt_of_below hne hp hpe
        rw [FileTree.existsAt_iff, he.files,
          he.directories_of_not_below fun hbt => hbt.ne rfl, ← FileTree.existsAt_iff, hex] at hte
        cases hte
      refine ⟨h₁.wellFormed.moveSubtree ?_ hfree ?_ ?_, h₁.noRoot.moveSubtree hfree hne⟩
      · exact (he.directories_of_not_below hb).trans hd
      · exact fun hp hbp => he.directories.mpr (Or.inr ((leads_parent_iff hp).mpr hbp))
      · rintro (heq | hbt)
        · exact hst heq.symm
        · exact hb hbt

variable {D η : Type} [BlockDevice D]

/-- One call, however it ends, keeps the shape of the tree: it makes the change of a success, or none, or has entered
    some parents. -/
theorem run_sound {p : BareMetalPlatform D η} (h : p.tree.Sound) {op : StorageOp}
    (hc : ∀ q ∈ op.paths, IsCanonical q ∧ q ≠ []) : (op.run p).2.tree.Sound := by
  cases run_cases h.wellFormed fun q hq => (hc q hq).1 with
  | succeeded result tree => exact tree.sound h fun q hq => (hc q hq).2
  | unchanged e result tree no => exact tree ▸ h
  | strayed e result source target call tree leaves => exact h.entered tree

theorem runAll_sound {p : BareMetalPlatform D η} (h : p.tree.Sound) {ops : List StorageOp}
    (hc : ∀ op ∈ ops, ∀ q ∈ op.paths, IsCanonical q ∧ q ≠ []) : (runAll ops p).tree.Sound := by
  induction ops generalizing p with
  | nil => exact h
  | cons op ops ih =>
    exact ih (run_sound h (hc op List.mem_cons_self))
      fun o ho => hc o (List.mem_cons_of_mem _ ho)

end StorageOp

/-! ## From the seed on -/

namespace FileTree

/-- Seeding with files none of which is an ancestor of another. The loop does not test whether a path is taken by a
    directory, so with a file above another the tree could come to have both at one path. -/
theorem seed_sound {files : List InitialFile} {t t' : FileTree} (h : t.Sound)
    (hc : ∀ f ∈ files, IsCanonical f.path ∧ f.path ≠ [])
    (hindep : ∀ f ∈ files, ∀ g ∈ files, ¬ Below f.path g.path)
    (hd : ∀ f ∈ files, t.directories.contains f.path = false)
    (hrun : seed files t = (.ok (), t')) : t'.Sound := by
  -- over the files, with the tree that the earlier ones have made; no later file is a directory in it
  induction files generalizing t with
  | nil =>
    simp only [seed, Op.run_pure, Prod.mk.injEq, true_and] at hrun
    exact hrun ▸ h
  | cons f files ih =>
    have hf := hc f List.mem_cons_self
    rcases h.wellFormed.addParents_cases (isCanonical_parent hf.1) with
      ⟨t₁, hadd, he⟩ | ⟨q, hadd, -, -⟩
    · simp only [seed, Op.run_bind, hadd, Op.run_modify] at hrun
      refine ih ((h.entered he).insertFile hf.2 he (hd f List.mem_cons_self) f.data)
        (fun g hg => hc g (List.mem_cons_of_mem _ hg))
        (fun g hg g' hg' => hindep g (List.mem_cons_of_mem _ hg) g' (List.mem_cons_of_mem _ hg'))
        (fun g hg => ?_) hrun
      -- what was entered is above `f`, and no later file is
      have hnot := hindep g (List.mem_cons_of_mem _ hg) f List.mem_cons_self
      exact (he.directories_of_not_below hnot).trans (hd g (List.mem_cons_of_mem _ hg))
    · simp only [seed, Op.run_bind, hadd, Prod.mk.injEq, reduceCtorEq, false_and] at hrun

theorem sound_empty : empty.Sound := ⟨wellFormed_empty, rfl⟩

end FileTree

namespace BareMetalPlatform

variable {D η : Type} [BlockDevice D]

theorem persist_tree (p : BareMetalPlatform D η) : (persist p).2.tree = p.tree := by
  unfold persist
  cases p.persistence <;> rfl

theorem seedIfEmpty_sound {files : List InitialFile} {p p' : BareMetalPlatform D η}
    (h : p.tree = FileTree.empty) (hc : ∀ f ∈ files, IsCanonical f.path ∧ f.path ≠ [])
    (hindep : ∀ f ∈ files, ∀ g ∈ files, ¬ Below f.path g.path)
    (hrun : seedIfEmpty files p = (.ok (), p')) : p'.tree.Sound := by
  have hempty : (p.tree.files.isEmpty && p.tree.directories.isEmpty) = true := by rw [h]; rfl
  rw [seedIfEmpty, Op.run_bind, Op.run_read] at hrun
  simp only [hempty, if_true] at hrun
  obtain ⟨⟨⟩, p₁, hseed, hpersist⟩ := Op.bind_ok hrun
  have htree : p'.tree = p₁.tree := by rw [← persist_tree p₁, hpersist]
  rw [run_onTree, Prod.mk.injEq] at hseed
  obtain ⟨hres, rfl⟩ := hseed
  rw [htree]
  refine FileTree.seed_sound FileTree.sound_empty hc hindep (fun f _ => rfl) ?_
  rw [← h, ← hres]

theorem new_sound [Hardware η] {frequency : Nat} {files : List InitialFile} {block : Option D}
    {hardware : η} {p : BareMetalPlatform D η} (hnew : new frequency files block hardware = .ok p)
    (hfresh : ∀ s t, openPersistence block = .ok (s, some t) → t = FileTree.empty)
    (hc : ∀ f ∈ files, IsCanonical f.path ∧ f.path ≠ [])
    (hindep : ∀ f ∈ files, ∀ g ∈ files, ¬ Below f.path g.path) : p.tree.Sound := by
  unfold new at hnew
  cases hopen : openPersistence block with
  | error e =>
    rw [hopen] at hnew
    cases hnew
  | ok found =>
    obtain ⟨s, restored⟩ := found
    have hstart : restored.getD FileTree.empty = FileTree.empty := by
      cases restored with
      | none => rfl
      | some t => exact hfresh s t hopen
    simp only [hopen, bind, Except.bind] at hnew
    split at hnew
    case h_1 p' hseed =>
      cases hnew
      exact seedIfEmpty_sound hstart hc hindep hseed
    case h_2 => cases hnew

/-- On a machine that started from its initial files, the two maps are a hierarchy after any sequence of storage
    calls, whatever each of them answered and whether or not it was saved: no path is a file and a directory, all
    that is above an entry is a directory, and nothing is below a file. -/
theorem tree_wellFormed_of_new [Hardware η] {frequency : Nat} {files : List InitialFile}
    {block : Option D} {hardware : η} {p : BareMetalPlatform D η}
    (hnew : new frequency files block hardware = .ok p)
    (hfresh : ∀ s t, openPersistence block = .ok (s, some t) → t = FileTree.empty)
    (hc : ∀ f ∈ files, IsCanonical f.path ∧ f.path ≠ [])
    (hindep : ∀ f ∈ files, ∀ g ∈ files, ¬ Below f.path g.path) (ops : List StorageOp)
    (hops : ∀ op ∈ ops, ∀ q ∈ op.paths, IsCanonical q ∧ q ≠ []) :
    let t := (StorageOp.runAll ops p).tree
    (∀ q, ¬ (t.files.contains q = true ∧ t.directories.contains q = true)) ∧
      (∀ q r, t.existsAt r = true → q ≠ [] → Below q r → t.directories.contains q = true) ∧
      ∀ q r, t.files.contains q = true → t.existsAt r = true → ¬ Below q r := by
  intro t
  have hs : t.Sound := StorageOp.runAll_sound (new_sound hnew hfresh hc hindep) hops
  refine ⟨fun q hq => ?_, fun q r hr hne hb => hs.wellFormed.parents hr hne hb,
    fun q r hq hr => hs.wellFormed.not_below_file ?_ hq hr⟩
  · have hd := hs.wellFormed.disjoint hq.1
    rw [hq.2] at hd
    cases hd
  · rintro rfl
    have hroot := FileTree.existsAt_iff.mpr (Or.inl hq)
    rw [hs.noRoot] at hroot
    cases hroot

theorem tree_wellFormed_of_new_diskless :
    ∃ p : BareMetalPlatform NoDisk Keyboard,
      new 1 [⟨"apps/hello.rhai".toList, []⟩] none ⟨[]⟩ = .ok p ∧
        ∀ q, ¬ ((StorageOp.runAll [.rename "apps".toList "user/apps".toList] p).tree.files.contains q
              = true ∧
            (StorageOp.runAll [.rename "apps".toList "user/apps".toList] p).tree.directories.contains q
              = true) := by
  have hnew : ∃ p : BareMetalPlatform NoDisk Keyboard,
      new 1 [⟨"apps/hello.rhai".toList, []⟩] none ⟨[]⟩ = .ok p := ⟨_, rfl⟩
  obtain ⟨p, hp⟩ := hnew
  refine ⟨p, hp, (tree_wellFormed_of_new hp (fun s t h => ?_) ?_ ?_ _ (by decide)).1⟩
  · cases h
  · simp only [List.mem_singleton, forall_eq]
    decide
  · simp only [List.mem_singleton, forall_eq]
    exact fun h => h.ne rfl

end BareMetalPlatform

end Afos
