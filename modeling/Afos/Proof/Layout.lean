import Afos.Lib.Run
import Afos.Proof.Verifier
import Afos.Machine

/-!
# The directory layout

`initializeLayout` makes five directories, and `remove` has a list of names that it refuses to
remove. `rename` has no such list. So the five directories stay for as long as none of them is
the source of a rename that goes through (`Uproots`), and nothing else can take them away: what
`remove` and `rename` take away with a directory is what is below it, and everything above one of
the five is one of the five.

Nothing here needs the tree to be well-formed.
-/

set_option autoImplicit false

namespace Afos

open Lib

/-! ## The calls -/

/-- A call on the filesystem that may change it. The other four operations do not. -/
inductive VfsCall where
  | write (path : Str) (data : Bytes)
  | createDirAll (path : Str)
  | remove (path : Str)
  | rename (source target : Str)

namespace VfsCall

def run {σ : Type} [Platform σ] : VfsCall → Op Error (Vfs σ) Unit
  | write path data => Vfs.write path data
  | createDirAll path => Vfs.createDirAll path
  | remove path => Vfs.remove path
  | rename source target => Vfs.rename source target

/-- The filesystem after a call, whatever the call returned, since what a failed call has changed is part of the state
    too. -/
def after {σ : Type} [Platform σ] (v : Vfs σ) (call : VfsCall) : Vfs σ := (call.run v).2

end VfsCall

def FileTree.HasLayout (t : FileTree) : Prop :=
  ∀ q ∈ Vfs.layout, t.directories.contains q = true

/-- A rename that takes one of the five away: it passes every check that the backend makes. The target is another
    path, free, not below the source and not below a file. -/
structure FileTree.Uproots (t : FileTree) (source target : Str) : Prop where
  layout : source ∈ Vfs.layout
  ne : target ≠ source
  free : t.existsAt target = false
  outside : ¬ Below source target
  directory : t.files.contains source = false
  clear : ∀ p, p ≠ [] → Below p target → t.files.contains p = false

/-- The call is such a rename, once its paths have been routed. Where the call names its source by another spelling,
    this is the same. -/
def VfsCall.Displaces : VfsCall → FileTree → Prop
  | rename source target, t => ∃ q q', Routes source q ∧ Routes target q' ∧ t.Uproots q q'
  | _, _ => False

/-! ## What is above a directory of the layout -/

/-- Whatever leads to one of the five is one of the five. So making or keeping them needs nothing but them. -/
theorem leads_layout {p q : Str} (hq : q ∈ Vfs.layout) (h : Leads p q) : p ∈ Vfs.layout := by
  have hcanonical : ∀ q ∈ Vfs.layout, join (names q) = q := by decide
  have hinits : ∀ q ∈ Vfs.layout, ∀ a ∈ (names q).inits, a ≠ [] → join a ∈ Vfs.layout := by decide
  rw [← hcanonical q hq] at h
  obtain ⟨a, b, ha, hab, rfl⟩ := (leads_join_iff (names_isName q)).mp h
  exact hinits q hq a ((List.mem_inits _ _).mpr ⟨b, hab.symm⟩) ha

theorem not_at_of_not_layout {p q : Str} (hp : p ≠ []) (hlayout : p ∉ Vfs.layout)
    (hq : q ∈ Vfs.layout) : ¬ FileTree.At p q := by
  rintro (rfl | hbelow)
  · exact hlayout hq
  · exact hlayout (leads_layout hq ⟨hp, Or.inr hbelow⟩)

theorem not_layout_of_not_root {q : Str} (h : '/' :: q ∉ Vfs.rootDirectories) :
    q ∉ Vfs.layout := by
  have hroots : ∀ q ∈ Vfs.layout, '/' :: q ∈ Vfs.rootDirectories := by decide
  exact fun hq => h (hroots q hq)

/-! ## Trees -/

namespace FileTree

variable {t : FileTree}

theorem HasLayout.insertDirs (h : t.HasLayout) (ps : List Str) : (t.insertDirs ps).HasLayout :=
  fun q hq => contains_insertDirs.mpr (Or.inl (h q hq))

theorem HasLayout.addParents (h : t.HasLayout) (q : Str) : (addParents q t).2.HasLayout := by
  rcases addParentsFrom_cases (names q) [] t with ⟨heq, -⟩ | ⟨l, p, r, -, -, heq⟩
  · rw [FileTree.addParents, heq]
    exact h.insertDirs _
  · rw [FileTree.addParents, heq]
    exact h.insertDirs _

theorem HasLayout.removeSubtree (h : t.HasLayout) {q : Str} (hq : q ≠ []) (hlayout : q ∉ Vfs.layout) :
    (t.removeSubtree q).HasLayout :=
  fun p hp => contains_removeSubtree_directories.mpr
    ⟨h p hp, not_at_of_not_layout hq hlayout hp⟩

section Move

variable {source target : Str}

theorem contains_moveDir {directories : OrdSet Str} {p q : Str} :
    (moveDir source target directories p).contains q = true ↔
      rebased p source target = q ∨ p ≠ q ∧ directories.contains q = true := by
  simp [moveDir, OrdMap.contains_insert, OrdMap.contains_remove]

/-- A directory that is not moved stays, whatever is moved to: moving enters paths, and takes away only those it
    moves. -/
theorem contains_foldl_moveDir {ps : List Str} {directories : OrdSet Str} {q : Str}
    (h : directories.contains q = true) (hq : q ∉ ps) :
    (ps.foldl (moveDir source target) directories).contains q = true := by
  induction ps generalizing directories with
  | nil => exact h
  | cons p ps ih =>
    rw [List.mem_cons, not_or] at hq
    exact ih (contains_moveDir.mpr (Or.inr ⟨Ne.symm hq.1, h⟩)) hq.2

/-- A directory that is there after the move has been moved there, or was there and has not been
    moved. -/
theorem of_contains_foldl_moveDir {ps : List Str} {directories : OrdSet Str} {q : Str}
    (h : (ps.foldl (moveDir source target) directories).contains q = true) :
    (∃ p ∈ ps, rebased p source target = q) ∨ directories.contains q = true ∧ q ∉ ps := by
  induction ps generalizing directories with
  | nil => exact Or.inr ⟨h, List.not_mem_nil⟩
  | cons p ps ih =>
    rcases ih h with ⟨p', hp', heq⟩ | ⟨hcontains, hq⟩
    · exact Or.inl ⟨p', List.mem_cons_of_mem _ hp', heq⟩
    · rcases contains_moveDir.mp hcontains with heq | ⟨hne, hcontains⟩
      · exact Or.inl ⟨p, List.mem_cons_self, heq⟩
      · exact Or.inr ⟨hcontains, List.not_mem_cons_of_ne_of_not_mem (Ne.symm hne) hq⟩

/-- The directories that a move takes along are those at or below the source, by the comparison of texts that the
    source makes. -/
theorem mem_moved_iff {p : Str} :
    p ∈ (t.directories.keys.filter fun path => path = source || startsWith (source ++ ['/']) path) ↔
      t.directories.contains p = true ∧ At source p := by
  rw [List.mem_filter, OrdMap.mem_keys_iff, Bool.or_eq_true, decide_eq_true_eq, startsWith_slash_iff]
  rfl

theorem HasLayout.moveSubtree (h : t.HasLayout) (hsource : source ≠ [])
    (hlayout : source ∉ Vfs.layout) : (t.moveSubtree source target).HasLayout := by
  intro q hq
  refine contains_foldl_moveDir (h q hq) fun hmoved => ?_
  exact not_at_of_not_layout hsource hlayout hq (mem_moved_iff.mp hmoved).2

/-- What was at the source is not there after the move, unless the target is above it. Then something of the subtree
    could come to be in its place. -/
theorem not_contains_moveSubtree (hcontains : t.directories.contains source = true)
    (hne : target ≠ source) (hbelow : ¬ Below target source) :
    (t.moveSubtree source target).directories.contains source = false := by
  rw [← Bool.not_eq_true]
  intro h
  rcases of_contains_foldl_moveDir h with ⟨p, hp, heq⟩ | ⟨-, hmoved⟩
  · have hat := rebased_at target (mem_moved_iff.mp hp).2
    rw [heq] at hat
    rcases hat with heq | hb
    · exact hne heq.symm
    · exact hbelow hb
  · exact hmoved (mem_moved_iff.mpr ⟨hcontains, Or.inl rfl⟩)

end Move

end FileTree

/-! ## The backend -/

namespace BareMetalPlatform

variable {D η : Type} [BlockDevice D] {p : BareMetalPlatform D η}

theorem layout_storageCreateDirAll (h : p.tree.HasLayout) (q : Str) :
    (storageCreateDirAll q p).2.tree.HasLayout := by
  obtain ⟨ps, s, heq⟩ := storageCreateDirAll_eq q p
  rw [heq]
  exact h.insertDirs ps

theorem layout_storageWrite (h : p.tree.HasLayout) (q : Str) (data : Bytes) :
    (storageWrite q data p).2.tree.HasLayout := by
  rw [storageWrite, Op.run_bind_ok (Op.run_read p)]
  split
  · exact h
  · have hparents := h.addParents (parent q)
    rw [Op.run_bind, run_onTree]
    cases hadd : FileTree.addParents (parent q) p.tree with
    | mk r t =>
      rw [hadd] at hparents
      cases r with
      | error e => exact hparents
      | ok => exact commit_tree hparents h

theorem layout_storageRemove (h : p.tree.HasLayout) {q : Str} (hq : q ≠ [])
    (hlayout : q ∉ Vfs.layout) : (storageRemove q p).2.tree.HasLayout := by
  rw [storageRemove, Op.run_bind_ok (Op.run_read p)]
  split
  · exact commit_tree h h
  · split
    · exact h
    · exact commit_tree (h.removeSubtree hq hlayout) h

theorem layout_moveEntry {previous : FileTree} {source target : Str} (h : p.tree.HasLayout)
    (hprevious : previous.HasLayout) (hsource : source ≠ [])
    (hlayout : p.tree.files.contains source = false → source ∉ Vfs.layout) :
    (moveEntry source target previous p).2.tree.HasLayout := by
  rw [moveEntry, Op.run_bind_ok (Op.run_read p)]
  cases hlookup : p.tree.files.lookup source with
  | some data => exact commit_tree h hprevious
  | none =>
    simp only
    split
    · exact h
    · have hfree := OrdMap.contains_eq_false_iff.mpr hlookup
      exact commit_tree (h.moveSubtree hsource (hlayout hfree)) hprevious

/-- A rename leaves the layout in place, unless it takes one of the five away. -/
theorem layout_storageRename (h : p.tree.HasLayout) {source target : Str} (hsource : source ≠ [])
    (htarget : IsCanonical target) (hno : ¬ p.tree.Uproots source target) :
    (storageRename source target p).2.tree.HasLayout := by
  rw [storageRename, Op.run_bind_ok (Op.run_read p)]
  -- the checks in the order of the code; each that fails leaves the tree as it was
  by_cases hsame : source = target
  · rw [if_pos hsame]
    exact h
  by_cases hexists : p.tree.existsAt target = true
  · rw [if_neg hsame, if_pos hexists]
    exact h
  by_cases hbelow : (stripPrefix source target).any (fun suffix => suffix.head? == some '/') = true
  · rw [if_neg hsame, if_neg hexists, if_pos hbelow]
    exact h
  rw [if_neg hsame, if_neg hexists, if_neg hbelow, Op.run_bind, run_onTree]
  have hparents := h.addParents (parent target)
  rcases FileTree.addParentsFrom_cases (names (parent target)) [] p.tree with
    ⟨hadd, hclear⟩ | ⟨l, q, r, -, -, hadd⟩
  · -- the parents were entered, and the source is no directory of the layout, or one of the checks would have failed
    rw [FileTree.addParents, hadd] at hparents
    rw [FileTree.addParents, hadd]
    refine layout_moveEntry hparents h hsource fun hfile hlayout => hno ?_
    refine ⟨hlayout, Ne.symm hsame, Bool.eq_false_iff.mpr hexists,
      fun hb => hbelow (below_iff_stripPrefix.mpr hb), ?_, fun q hq hb => hclear q ?_⟩
    · rwa [FileTree.insertDirs_files] at hfile
    · rw [FileTree.mem_walk_names_iff (isCanonical_parent htarget), leads_parent_iff hq]
      exact hb
  · rw [FileTree.addParents, hadd] at hparents
    rw [FileTree.addParents, hadd]
    exact hparents

/-- Without a disk behind it, such a rename does take the directory away: there is no save that could fail and put it
    back. -/
theorem storageRename_uproots (h : p.tree.HasLayout) (hdisk : p.persistence = none)
    {source target : Str} (htarget : IsCanonical target) (hne : target ≠ [])
    (huproots : p.tree.Uproots source target) :
    (storageRename source target p).1 = .ok () ∧
      (storageRename source target p).2.tree.directories.contains source = false := by
  obtain ⟨hlayout, hdiffer, hfree, houtside, hfile, hclear⟩ := huproots
  have hcontains := h source hlayout
  have hstrip : ¬ (stripPrefix source target).any (fun suffix => suffix.head? == some '/') = true :=
    fun hb => houtside (below_iff_stripPrefix.mp hb)
  -- a target above one of the five would be one of the five, and so not free
  have habove : ¬ Below target source := by
    intro hb
    have hthere := h target (leads_layout hlayout ⟨hne, Or.inr hb⟩)
    rw [(FileTree.existsAt_eq_false_iff.mp hfree).2] at hthere
    cases hthere
  rw [storageRename, Op.run_bind_ok (Op.run_read p), if_neg (Ne.symm hdiffer),
    if_neg (Bool.eq_false_iff.mp hfree), if_neg hstrip, Op.run_bind, run_onTree]
  rcases FileTree.addParentsFrom_cases (names (parent target)) [] p.tree with
    ⟨hadd, -⟩ | ⟨l, q, r, hwalk, hq, -⟩
  · rw [FileTree.addParents, hadd]
    have hentered : (p.tree.insertDirs (FileTree.walk (names (parent target)) [])).directories.contains
        source = true := FileTree.contains_insertDirs.mpr (Or.inl hcontains)
    have hlookup : (p.tree.insertDirs (FileTree.walk (names (parent target)) [])).files.lookup
        source = none := by
      rw [FileTree.insertDirs_files]
      exact OrdMap.contains_eq_false_iff.mp hfile
    simp only [moveEntry, Op.run_bind, Op.run_read, hlookup, hentered, Bool.not_true,
      Bool.false_eq_true, if_false, run_onTree, Op.run_modify, commit, persist, hdisk]
    exact ⟨trivial, FileTree.not_contains_moveSubtree hentered hdiffer habove⟩
  · -- a file on the way to the target was excluded
    have hleads : Leads q (parent target) := by
      rw [← FileTree.mem_walk_names_iff (isCanonical_parent htarget), hwalk]
      exact List.mem_append_right _ List.mem_cons_self
    rw [hclear q hleads.1 ((leads_parent_iff hleads.1).mp hleads)] at hq
    cases hq

end BareMetalPlatform

/-! ## The filesystem -/

namespace VfsCall

variable {D η : Type} [BlockDevice D] [Hardware η] {v : Vfs (BareMetalPlatform D η)}

/-- One call leaves the layout in place, unless it is such a rename. The exception is stated on the tree before the
    call. -/
theorem layout_run (h : v.tree.HasLayout) {call : VfsCall} (hno : ¬ call.Displaces v.tree) :
    (call.after v).tree.HasLayout := by
  -- call by call: those that reach the backend have a canonical path
  cases call with
  | write path data =>
    rcases Vfs.write_cases (σ := BareMetalPlatform D η) path data with ⟨q, -, heq⟩ | ⟨e, heq⟩
    · rw [after, run, heq]
      exact BareMetalPlatform.layout_storageWrite h q data
    · rw [after, run, heq]
      exact h
  | createDirAll path =>
    rcases Vfs.createDirAll_cases (σ := BareMetalPlatform D η) path with ⟨q, -, heq⟩ | ⟨e, heq⟩
    · rw [after, run, heq]
      exact BareMetalPlatform.layout_storageCreateDirAll h q
    · rw [after, run, heq]
      exact h
  | remove path =>
    rcases Vfs.remove_cases (σ := BareMetalPlatform D η) path with ⟨q, hroutes, hroot, heq⟩ | ⟨e, heq⟩
    · rw [after, run, heq]
      exact BareMetalPlatform.layout_storageRemove h hroutes.canonical.2 (not_layout_of_not_root hroot)
    · rw [after, run, heq]
      exact h
  | rename source target =>
    rcases Vfs.rename_cases (σ := BareMetalPlatform D η) source target with ⟨q, q', hq, hq', heq⟩ | ⟨e, heq⟩
    · rw [after, run, heq]
      exact BareMetalPlatform.layout_storageRename h hq.canonical.2 hq'.canonical.1
        fun huproots => hno ⟨q, q', hq, hq', huproots⟩
    · rw [after, run, heq]
      exact h

/-- Without a disk, the condition is exact. With one, the save may fail, and then the rename is undone. -/
theorem layout_run_iff (h : v.tree.HasLayout) (hdisk : v.platform.persistence = none)
    (call : VfsCall) : (call.after v).tree.HasLayout ↔ ¬ call.Displaces v.tree := by
  refine ⟨fun hafter hdisplaces => ?_, layout_run h⟩
  cases call with
  | write path data => exact hdisplaces
  | createDirAll path => exact hdisplaces
  | remove path => exact hdisplaces
  -- the converse: such a rename succeeds, and its source is gone
  | rename source target =>
    obtain ⟨q, q', hq, hq', huproots⟩ := hdisplaces
    have hrename : (Vfs.rename source target : Op Error (Vfs (BareMetalPlatform D η)) Unit) =
        Vfs.onPlatform (Platform.storageRename q q') := Vfs.rename_of_routes hq hq'
    have hgone := (BareMetalPlatform.storageRename_uproots h hdisk hq'.canonical.1 hq'.canonical.2
      huproots).2
    have hstays := hafter q huproots.layout
    rw [after, run, hrename] at hstays
    exact absurd (hgone.symm.trans hstays) Bool.false_ne_true

/-- A call is one of storage, or an error. So what holds of every storage call holds of every call of the
    filesystem. -/
theorem after_cases (call : VfsCall) (v : Vfs (BareMetalPlatform D η)) :
    (∃ op : StorageOp, (call.after v).platform = (op.run v.platform).2) ∨ (call.after v).platform = v.platform := by
  cases call with
  | write path data =>
    rcases Vfs.write_cases (σ := BareMetalPlatform D η) path data with ⟨q, -, heq⟩ | ⟨e, heq⟩
    · exact Or.inl ⟨.write q data, by rw [after, run, heq]; rfl⟩
    · exact Or.inr (by rw [after, run, heq]; rfl)
  | createDirAll path =>
    rcases Vfs.createDirAll_cases (σ := BareMetalPlatform D η) path with ⟨q, -, heq⟩ | ⟨e, heq⟩
    · exact Or.inl ⟨.createDirAll q, by rw [after, run, heq]; rfl⟩
    · exact Or.inr (by rw [after, run, heq]; rfl)
  | remove path =>
    rcases Vfs.remove_cases (σ := BareMetalPlatform D η) path with ⟨q, -, -, heq⟩ | ⟨e, heq⟩
    · exact Or.inl ⟨.remove q, by rw [after, run, heq]; rfl⟩
    · exact Or.inr (by rw [after, run, heq]; rfl)
  | rename source target =>
    rcases Vfs.rename_cases (σ := BareMetalPlatform D η) source target with ⟨q, q', -, -, heq⟩ | ⟨e, heq⟩
    · exact Or.inl ⟨.rename q q', by rw [after, run, heq]; rfl⟩
    · exact Or.inr (by rw [after, run, heq]; rfl)

theorem after_diskless (h : v.platform.persistence = none) (call : VfsCall) :
    (call.after v).platform.persistence = none := by
  rcases after_cases call v with ⟨op, heq⟩ | heq
  · rw [heq]
    exact StorageOp.run_diskless h op
  · rw [heq]
    exact h

end VfsCall

/-! ## From the start -/

theorem BareMetalPlatform.storageCreateDirAll_ok {D η : Type} [BlockDevice D]
    {p p' : BareMetalPlatform D η} {q : Str} (hq : IsCanonical q) (hne : q ≠ [])
    (h : storageCreateDirAll q p = (.ok (), p')) : p'.tree.directories.contains q = true := by
  simp only [storageCreateDirAll, Op.run_bind, Op.run_read, run_onTree] at h
  rcases FileTree.addParentsFrom_cases (names q) [] p.tree with ⟨hadd, -⟩ | ⟨l, r, _, -, -, hadd⟩
  · simp only [FileTree.addParents, hadd] at h
    rcases commit_cases p.tree { p with tree := p.tree.insertDirs (FileTree.walk (names q) []) }
      with ⟨s, hc⟩ | ⟨e, s, hc⟩
    · rw [hc] at h
      cases h
      exact FileTree.contains_insertDirs.mpr
        (Or.inr ((FileTree.mem_walk_names_iff hq).mpr ⟨hne, Or.inl rfl⟩))
    · rw [hc] at h
      cases h
  · simp only [FileTree.addParents, hadd] at h
    cases h

namespace Vfs

variable {D η : Type} [BlockDevice D] [Hardware η]

/-- The directories are there once the layout has been made, by induction on the list: what one step enters, later
    steps leave. -/
theorem directories_of_forM_ok {paths : List Str} {v v' : Vfs (BareMetalPlatform D η)}
    (hpaths : ∀ q ∈ paths, IsCanonical q ∧ q ≠ [])
    (h : (paths.forM fun path => onPlatform (Platform.storageCreateDirAll path)) v = (.ok (), v')) :
    ∀ q, v.tree.directories.contains q = true ∨ q ∈ paths →
      v'.tree.directories.contains q = true := by
  -- by the directories of the layout; those that are there stay
  induction paths generalizing v with
  | nil =>
    cases h
    exact fun q hq => hq.resolve_right List.not_mem_nil
  | cons path paths ih =>
    obtain ⟨⟨⟩, next, hpath, hrest⟩ := Op.bind_ok h
    obtain ⟨p, hcall, rfl⟩ := Op.zoom_eq hpath
    obtain ⟨ps, s, heq⟩ := BareMetalPlatform.storageCreateDirAll_eq path v.platform
    have hp : p = _ := (congrArg Prod.snd hcall).symm.trans heq
    obtain ⟨hcanonical, hne⟩ := hpaths path List.mem_cons_self
    intro q hq
    refine ih (fun q hq => hpaths q (List.mem_cons_of_mem _ hq)) hrest q ?_
    rcases hq with hq | hq
    · refine Or.inl ?_
      show p.tree.directories.contains q = true
      rw [hp]
      exact FileTree.contains_insertDirs.mpr (Or.inl hq)
    · rcases List.mem_cons.mp hq with rfl | hq
      · exact Or.inl (BareMetalPlatform.storageCreateDirAll_ok hcanonical hne hcall)
      · exact Or.inr hq

theorem hasLayout_of_initializeLayout {v v' : Vfs (BareMetalPlatform D η)}
    (h : initializeLayout v = (.ok (), v')) : v'.tree.HasLayout := by
  have hpaths : ∀ q ∈ layout, IsCanonical q ∧ q ≠ [] := by decide
  exact fun q hq => directories_of_forM_ok hpaths h q (Or.inr hq)

/-- Once the layout has been made, the directories stay through every run of calls in which none
    is a rename that takes one of them away. -/
theorem layout_permanent {v v' : Vfs (BareMetalPlatform D η)}
    (hinit : initializeLayout v = (.ok (), v')) (calls : List VfsCall)
    (hcalls : Along VfsCall.after (fun v call => ¬ call.Displaces v.tree) v' calls) :
    (runFrom VfsCall.after v' calls).tree.HasLayout :=
  Along.invariant (fun v => v.tree.HasLayout) (fun _ _ h hno => VfsCall.layout_run h hno) hcalls
    (hasLayout_of_initializeLayout hinit)

/-- On a machine without a disk nothing but such a rename takes a directory away, and every such rename does: from
    any state in which the five are there, they are there at every moment of a run exactly if no call of it is one.
    With a disk the rename may be undone, when it cannot be saved. -/
theorem layout_always_iff {v : Vfs (BareMetalPlatform D η)} (h : v.tree.HasLayout)
    (hdisk : v.platform.persistence = none) (calls : List VfsCall) :
    (∀ n, (runFrom VfsCall.after v (calls.take n)).tree.HasLayout) ↔
      Along VfsCall.after (fun v call => ¬ call.Displaces v.tree) v calls :=
  Along.always_iff (fun v : Vfs (BareMetalPlatform D η) => v.tree.HasLayout) (fun v => v.platform.persistence = none)
    (fun _ call h hdisk => VfsCall.layout_run_iff h hdisk call) (fun _ call hdisk => VfsCall.after_diskless hdisk call)
    h hdisk

/-- A machine without a disk that has just been started. -/
def fresh : Vfs (BareMetalPlatform NoDisk Keyboard) := ⟨diskless FileTree.empty [], []⟩

theorem layout_permanent_moved_file :
    (runFrom VfsCall.after (initializeLayout fresh).2
      [.write "/user/saves/a".toList [1], .rename "/user/saves/a".toList "/apps/b".toList,
        .remove "/user".toList]).tree.HasLayout := by
  have hok : (initializeLayout fresh).1 = .ok () := by decide +kernel
  have hinit : initializeLayout fresh = (.ok (), (initializeLayout fresh).2) := by rw [← hok]
  refine layout_permanent hinit _ ⟨not_false, fun hdisplaces => ?_, not_false, trivial⟩
  obtain ⟨q, q', hq, -, huproots⟩ := hdisplaces
  have hroutes : ∀ q ∈ layout, ¬ Routes "/user/saves/a".toList q := by decide
  exact hroutes q huproots.layout hq

/-- The directory is there when the file is written and when its removal is refused, and not after the last call. -/
theorem layout_not_always_there :
    ¬ ∀ n, (runFrom VfsCall.after (initializeLayout fresh).2
      ([.write "/user/saves/a".toList [1], .remove "/user/saves".toList,
        .rename "/user/saves".toList "/user/x".toList].take n)).tree.HasLayout := by
  have hok : (initializeLayout fresh).1 = .ok () := by decide +kernel
  have hinit : initializeLayout fresh = (.ok (), (initializeLayout fresh).2) := by rw [← hok]
  have hdisk : (initializeLayout fresh).2.platform.persistence.isNone = true := by decide +kernel
  rw [layout_always_iff (hasLayout_of_initializeLayout hinit) (Option.isNone_iff_eq_none.mp hdisk)]
  rintro ⟨-, -, hrename, -⟩
  refine hrename ⟨"user/saves".toList, "user/x".toList, by decide, by decide, by decide, by decide,
    by decide +kernel, below_iff_stripPrefix.not.mp (by decide), by decide +kernel, fun p hne hbelow => ?_⟩
  -- only `user` is above the target
  have hwalk : ∀ p ∈ FileTree.walk (names (parent "user/x".toList)) [],
      (VfsCall.after (VfsCall.after (initializeLayout fresh).2 (.write "/user/saves/a".toList [1]))
        (.remove "/user/saves".toList)).tree.files.contains p = false := by decide +kernel
  exact hwalk p ((FileTree.mem_walk_names_iff (by decide)).mpr ((leads_parent_iff hne).mpr hbelow))

/-- `rename` takes away what `remove` would not: the test for root directories is in the one and not in the other. -/
theorem rename_displaces_layout :
    (initializeLayout fresh).1 = .ok () ∧
      (VfsCall.run (.remove "/user/saves".toList) (initializeLayout fresh).2).1 =
        .error (.permissionDenied "cannot remove an AFOS root directory".toList) ∧
      (VfsCall.run (.rename "/user/saves".toList "/user/x".toList) (initializeLayout fresh).2).1 =
        .ok () ∧
      (runFrom VfsCall.after (initializeLayout fresh).2
        [.rename "/user/saves".toList "/user/x".toList]).tree.directories.contains
          "user/saves".toList = false := by
  decide +kernel

end Vfs

end Afos
