import Afos.Lib.Run
import Afos.Proof.Mirror

/-!
# Writing, making directories and removing on both backends

The bare-metal platform keeps a tree in memory and checks everything by hand; the desktop platform
leaves the checking to the host. On a host that mirrors the tree, and without a disk that may fail,
three of the four calls that change something do the same on both: they succeed together, and the
host still mirrors the tree.

Every call first makes the directories above its path. `prepare` is that step on both sides: either
both make them, or a file is in the way of both and nothing is done.
-/

set_option autoImplicit false

namespace Afos

open Lib

/-! ## Canonical paths on the host -/

theorem hasNul_append {root cs : List Str} (hroot : HostPath.hasNul ⟨root, .plain⟩ = false)
    (hp : ∀ c ∈ cs, Plain c) : HostPath.hasNul ⟨root ++ cs, .plain⟩ = false := by
  rw [HostPath.hasNul, List.any_append, Bool.or_eq_false_iff]
  refine ⟨hroot, List.any_eq_false.mpr fun c hc hnul => (hp c hc).2.1 ?_⟩
  simpa using hnul

namespace DesktopPlatform

/-- A canonical path is joined to the root as it stands: no name of it is a dot, and there is nothing at its end. -/
theorem joined_join (P : DesktopPlatform) {cs : List Str} (hne : cs ≠ []) (hp : ∀ c ∈ cs, Plain c) :
    P.joined (join cs) = .ok ⟨P.root ++ cs, .plain⟩ := by
  have hn := isName_of_plain hp
  -- a canonical path has no dots, so nothing of it is refused or dropped
  have hdots : ¬ ((join cs).head? = some '/' ∨ (cs.any fun c => c = "..".toList) = true) := by
    rintro (hslash | hup)
    · exact head?_join_ne_slash hn hslash
    · obtain ⟨c, hc, heq⟩ := List.any_eq_true.mp hup
      exact (hp c hc).1.2.2 (of_decide_eq_true heq)
  have hkeep : cs.filter (fun c => c ≠ ".".toList) = cs :=
    List.filter_eq_self.mpr fun c hc => decide_eq_true (hp c hc).1.2.1
  have htail : tailOf (join cs) = .plain := by
    have hlast := List.getLast?_eq_some_getLast hne
    have hmem := List.getLast_mem hne
    rw [tailOf, names_join hn, splitOn_join hn hne, hlast, if_neg, if_neg]
    · exact fun heq => (hn _ hmem).1 (Option.some.inj heq)
    · exact fun heq => (hp _ hmem).1.2.1 (Option.some.inj heq)
  rw [joined, names_join hn, if_neg hdots, hkeep, htail]

end DesktopPlatform

namespace Mirrors

variable {P : DesktopPlatform} {t : FileTree} (hm : Mirrors P t) {cs ps : List Str} {c : Str}
include hm

theorem canonicalize_of_node (hp : ∀ c ∈ cs, Plain c) {n : Inode} (hne : cs ≠ [])
    (hn : P.host.node (P.root ++ cs) = some n) :
    P.host.canonicalize ⟨P.root ++ cs, .plain⟩ = .ok (P.root ++ cs) := by
  rw [Host.canonicalize_plain (hasNul_append hm.nul hp)]
  exact Host.resolve_real hn (hm.inside hne hn).2

theorem existing_of_node (hne : cs ≠ []) (hp : ∀ c ∈ cs, Plain c) {n : Inode}
    (hn : P.host.node (P.root ++ cs) = some n) : P.existing (join cs) = .ok (P.root ++ cs) := by
  have hpre : P.root.isPrefixOf (P.root ++ cs) = true :=
    List.isPrefixOf_iff_prefix.mpr (List.prefix_append _ _)
  simp only [DesktopPlatform.existing, P.joined_join hne hp, bind, Except.bind,
    hm.canonicalize_of_node hp hne hn, hpre, if_true]

/-- A path at which there is nothing leads nowhere, wherever on the way it ends. -/
theorem existing_of_missing (hne : cs ≠ []) (hp : ∀ c ∈ cs, Plain c)
    (hn : P.host.node (P.root ++ cs) = none) : ∃ e, P.existing (join cs) = .error e := by
  have hres : ∃ e, P.host.resolve ((P.root ++ cs).map .name) = .error e := by
    -- it is missing in a directory, or there is a file on the way to it
    rcases hm.dig cs with hd | ⟨a, c, post, rfl, ha, hc⟩ | ⟨a, b, data, ha, rfl, hf⟩
    · rw [hn] at hd; cases hd
    · have hst : P.host.StopsAt (P.root ++ (a ++ c :: post)) (P.root ++ a) c post :=
        ⟨P.root ++ a, by simp, Host.resolve_real ha rfl, ha, hc⟩
      exact ⟨_, hst.resolve_eq⟩
    · have hnot : P.host.node (P.root ++ a) ≠ some .dir := by rw [hf]; exact fun h => by cases h
      cases b with
      | nil => rw [List.append_nil, hf] at hn; cases hn
      | cons x b =>
        rw [← List.append_assoc, List.map_append]
        exact ⟨_, Host.resolve_append_not_dir (Host.resolve_real hf rfl) hnot _ _⟩
  obtain ⟨e, he⟩ := hres
  have hcan : P.host.canonicalize ⟨P.root ++ cs, .plain⟩ = .error e :=
    (Host.canonicalize_plain (hasNul_append hm.nul hp)).trans he
  simp only [DesktopPlatform.existing, P.joined_join hne hp, bind, Except.bind, hcan]
  cases e <;> exact ⟨_, rfl⟩

/-- Where no file is in the way, `writable` makes the directories above the path, and passes its checks of the
    result. -/
theorem writable_dug (hp : ∀ x ∈ ps ++ [c], Plain x)
    (hclear : ∀ a b, a ≠ [] → ps = a ++ b → ∀ data, P.host.node (P.root ++ a) ≠ some (.file data)) :
    ∃ h', Dug P.root ps P.host h' ∧
      DesktopPlatform.writable (join (ps ++ [c])) P =
        (.ok ⟨P.root ++ (ps ++ [c]), .plain⟩, { P with host := h' }) := by
  have hps : ∀ x ∈ ps, Plain x := fun x hx => hp x (List.mem_append_left _ hx)
  obtain ⟨h', hrun, hdug⟩ := hm.createDirAll_dug (hasNul_append hm.nul hps) hclear
  refine ⟨h', hdug, ?_⟩
  have hj : P.joined (join (ps ++ [c])) = .ok ⟨P.root ++ (ps ++ [c]), .plain⟩ :=
    P.joined_join (by simp) hp
  have hd : h'.node (P.root ++ ps) = some .dir := by
    rw [hdug.node_append, if_pos (List.prefix_refl _)]
  have hnode : h'.node (P.root ++ (ps ++ [c])) = P.host.node (P.root ++ (ps ++ [c])) := by
    rw [hdug.node_append, if_neg fun hle => by simpa using hle.length_le]
  have hcan : h'.canonicalize ⟨P.root ++ ps, .plain⟩ = .ok (P.root ++ ps) :=
    (Host.canonicalize_plain (hasNul_append hm.nul hps)).trans (Host.resolve_real hd rfl)
  have hpre : P.root.isPrefixOf (P.root ++ ps) = true :=
    List.isPrefixOf_iff_prefix.mpr (List.prefix_append _ _)
  -- what is at the path itself is no link, as there are none in a host that mirrors a tree
  have hlink : DesktopPlatform.isSymlink h' ⟨P.root ++ (ps ++ [c]), .plain⟩ = false := by
    have hnul := hasNul_append hm.nul hp
    rw [← List.append_assoc] at hnul hnode ⊢
    cases hn : h'.node (P.root ++ ps ++ [c]) with
    | none =>
      have hloc := Host.locate_of_dir hnul (by decide) (Host.resolve_real hd rfl) hd
      simp only [DesktopPlatform.isSymlink, Host.lstat, hloc, hn]
    | some n =>
      rw [DesktopPlatform.isSymlink_of_link hnul (Host.resolve_real hd rfl) hd hn]
      rw [hn, List.append_assoc] at hnode
      exact (hm.inside (by simp) hnode.symm).2
  rw [DesktopPlatform.writable_of_created hj (List.append_assoc ..).symm hrun]
  simp only [DesktopPlatform.checkTarget, hcan, Except.mapError, bind, Except.bind, hpre, hlink,
    Bool.not_true, Bool.false_eq_true, if_false]

/-- Where a file is in the way, `writable` fails and has made nothing: the directories above the file are there
    already. -/
theorem writable_blocked (hp : ∀ x ∈ ps ++ [c], Plain x) {a b : List Str} {data : Bytes}
    (hps : ps = a ++ b) (hf : P.host.node (P.root ++ a) = some (.file data)) :
    ∃ e, DesktopPlatform.writable (join (ps ++ [c])) P = (.error e, P) := by
  have hnul : HostPath.hasNul ⟨P.root ++ ps, .plain⟩ = false :=
    hasNul_append hm.nul fun x hx => hp x (List.mem_append_left _ hx)
  obtain ⟨e, hrun⟩ := createDirAll_blocked hnul hps hf
  exact ⟨ioError e, DesktopPlatform.writable_of_failed (P.joined_join (by simp) hp)
    (List.append_assoc ..).symm hrun⟩

/-- Making the directories above a path, on both sides: both make them, or a file is in the way of both and neither
    does anything. The errors differ, as the desktop platform passes on what the host says. -/
theorem prepare (hp : ∀ x ∈ ps ++ [c], Plain x) :
    (∃ t₁ h', FileTree.addParents (parent (join (ps ++ [c]))) t = (.ok (), t₁) ∧
        FileTree.Entered t (join ps) t₁ ∧ Dug P.root ps P.host h' ∧
        DesktopPlatform.writable (join (ps ++ [c])) P =
          (.ok ⟨P.root ++ (ps ++ [c]), .plain⟩, { P with host := h' }) ∧
        Mirrors { P with host := h' } t₁) ∨
      ∃ e e' q, FileTree.addParents (parent (join (ps ++ [c]))) t = (.error e, t) ∧
        DesktopPlatform.writable (join (ps ++ [c])) P = (.error e', P) ∧
        Leads q (join ps) ∧ t.files.contains q = true := by
  have hn := isName_of_plain hp
  have hnps : ∀ x ∈ ps, IsName x := fun x hx => hn x (List.mem_append_left _ hx)
  rw [parent_join (hn c (by simp))]
  rcases hm.wellFormed.addParents_cases (isCanonical_join hnps) with
    ⟨t₁, hrun, he⟩ | ⟨q, hrun, hl, hf⟩
  · -- no file leads to the path in the tree, so none does on the host
    obtain ⟨h', hdug, hw⟩ := hm.writable_dug hp fun a b ha hab data hfile => by
      have hfree := he.clear ((leads_join_iff hnps).mpr ⟨a, b, ha, hab, rfl⟩)
      rw [(hm.contains_file_iff ha (hm.inside ha hfile).1).mpr ⟨data, hfile⟩] at hfree
      cases hfree
    exact Or.inl ⟨t₁, h', hrun, he, hdug, hw, hm.entered hnps he hdug⟩
  · -- a file that is in the way in the tree is there on the host
    obtain ⟨a, b, ha, hab, rfl⟩ := (leads_join_iff hnps).mp hl
    have hna : ∀ x ∈ a, IsName x := fun x hx => hnps x (hab ▸ List.mem_append_left _ hx)
    obtain ⟨data, hfile⟩ := (hm.contains_file_iff ha hna).mp hf
    obtain ⟨e', hw⟩ := hm.writable_blocked hp hab hfile
    exact Or.inr ⟨_, e', join a, hrun, hw, hl, hf⟩

end Mirrors

/-! ## Without a disk -/

namespace BareMetalPlatform

variable {D η : Type} [BlockDevice D] {p : BareMetalPlatform D η}

theorem modify_commit_diskless (h : p.persistence = none) (f : FileTree → FileTree)
    (previous : FileTree) :
    (onTree (Op.modify f) >>= fun _ => commit previous) p = (.ok (), { p with tree := f p.tree }) := by
  have h' : ({ p with tree := f p.tree } : BareMetalPlatform D η).persistence = none := h
  rw [Op.run_bind, run_onTree, Op.run_modify]
  exact commit_diskless h' previous

end BareMetalPlatform

namespace StorageOp

variable {D η : Type} [BlockDevice D] {p : BareMetalPlatform D η} {path : Str} {data : Bytes}
  {e : Error} {t₁ : FileTree}

theorem run_write_of_dir (hd : p.tree.directories.contains path = true) :
    (write path data).run p = (.error (.isDirectory path), p) := by
  simp only [run, BareMetalPlatform.storageWrite]
  rw [Op.run_bind, Op.run_read]
  simp only [hd, if_true, Op.run_throw]

theorem run_write_of_blocked (hd : p.tree.directories.contains path = false)
    (hadd : FileTree.addParents (parent path) p.tree = (.error e, p.tree)) :
    (write path data).run p = (.error e, p) := by
  simp only [run, BareMetalPlatform.storageWrite]
  rw [Op.run_bind, Op.run_read]
  simp only [hd, Bool.false_eq_true, if_false]
  rw [Op.run_bind, BareMetalPlatform.run_onTree, hadd]

theorem run_write_of_clear (hdisk : p.persistence = none)
    (hd : p.tree.directories.contains path = false)
    (hadd : FileTree.addParents (parent path) p.tree = (.ok (), t₁)) :
    (write path data).run p = (.ok (), { p with tree := t₁.insertFile path data }) := by
  simp only [run, BareMetalPlatform.storageWrite]
  rw [Op.run_bind, Op.run_read]
  simp only [hd, Bool.false_eq_true, if_false]
  rw [Op.run_bind, BareMetalPlatform.run_onTree, hadd]
  have hdisk₁ : ({ p with tree := t₁ } : BareMetalPlatform D η).persistence = none := hdisk
  exact BareMetalPlatform.modify_commit_diskless hdisk₁ (fun tree => tree.insertFile path data) p.tree

theorem run_createDirAll_of_blocked (hadd : FileTree.addParents path p.tree = (.error e, p.tree)) :
    (createDirAll path).run p = (.error e, p) := by
  simp only [run, BareMetalPlatform.storageCreateDirAll]
  rw [Op.run_bind, Op.run_read]
  dsimp only
  rw [Op.run_bind, BareMetalPlatform.run_onTree, hadd]

theorem run_createDirAll_of_clear (hdisk : p.persistence = none)
    (hadd : FileTree.addParents path p.tree = (.ok (), t₁)) :
    (createDirAll path).run p = (.ok (), { p with tree := t₁ }) := by
  simp only [run, BareMetalPlatform.storageCreateDirAll]
  rw [Op.run_bind, Op.run_read]
  dsimp only
  rw [Op.run_bind, BareMetalPlatform.run_onTree, hadd]
  have hdisk₁ : ({ p with tree := t₁ } : BareMetalPlatform D η).persistence = none := hdisk
  exact BareMetalPlatform.commit_diskless hdisk₁ p.tree

theorem run_remove_of_file (hdisk : p.persistence = none) (hf : p.tree.files.contains path = true) :
    (remove path).run p = (.ok (), { p with tree := p.tree.removeFile path }) := by
  simp only [run, BareMetalPlatform.storageRemove]
  rw [Op.run_bind, Op.run_read]
  simp only [hf, if_true]
  exact BareMetalPlatform.modify_commit_diskless hdisk (fun tree => tree.removeFile path) p.tree

theorem run_remove_of_dir (hdisk : p.persistence = none) (hf : p.tree.files.contains path = false)
    (hd : p.tree.directories.contains path = true) :
    (remove path).run p = (.ok (), { p with tree := p.tree.removeSubtree path }) := by
  simp only [run, BareMetalPlatform.storageRemove]
  rw [Op.run_bind, Op.run_read]
  simp only [hf, hd, Bool.false_eq_true, if_false, Bool.not_true]
  exact BareMetalPlatform.modify_commit_diskless hdisk (fun tree => tree.removeSubtree path) p.tree

theorem run_remove_of_missing (hex : p.tree.existsAt path = false) :
    (remove path).run p = (.error (.notFound path), p) := by
  obtain ⟨hf, hd⟩ := FileTree.existsAt_eq_false_iff.mp hex
  simp only [run, BareMetalPlatform.storageRemove]
  rw [Op.run_bind, Op.run_read]
  simp only [hf, hd, Bool.false_eq_true, if_false, Bool.not_false, if_true, Op.run_throw]

variable {source target : Str}

theorem run_rename_self (path : Str) : (rename path path).run p = (.ok (), p) := by
  simp only [run, BareMetalPlatform.storageRename]
  rw [Op.run_bind, Op.run_read]
  simp only [if_true, Op.run_pure]

section Rename

variable (hne : source ≠ target)
include hne

theorem run_rename_of_existing (hex : p.tree.existsAt target = true) :
    (rename source target).run p = (.error (.alreadyExists target), p) := by
  simp only [run, BareMetalPlatform.storageRename]
  rw [Op.run_bind, Op.run_read]
  simp only [hne, if_false, hex, if_true, Op.run_throw]

variable (hex : p.tree.existsAt target = false)
include hex

theorem run_rename_of_below (hb : Below source target) :
    (rename source target).run p = (.error .invalidPath, p) := by
  simp only [run, BareMetalPlatform.storageRename]
  rw [Op.run_bind, Op.run_read]
  simp only [hne, hex, Bool.false_eq_true, if_false]
  rw [if_pos (below_iff_stripPrefix.mpr hb), Op.run_throw]

variable (hb : ¬ Below source target)
include hb

theorem run_rename_of_blocked
    (hadd : FileTree.addParents (parent target) p.tree = (.error e, p.tree)) :
    (rename source target).run p = (.error e, p) := by
  simp only [run, BareMetalPlatform.storageRename]
  rw [Op.run_bind, Op.run_read]
  simp only [hne, hex, Bool.false_eq_true, if_false]
  rw [if_neg fun hq => hb (below_iff_stripPrefix.mp hq), Op.run_bind, BareMetalPlatform.run_onTree,
    hadd]

variable (hadd : FileTree.addParents (parent target) p.tree = (.ok (), t₁))
include hadd

theorem run_rename_eq_moveEntry :
    (rename source target).run p =
      BareMetalPlatform.moveEntry source target p.tree { p with tree := t₁ } := by
  simp only [run, BareMetalPlatform.storageRename]
  rw [Op.run_bind, Op.run_read]
  simp only [hne, hex, Bool.false_eq_true, if_false]
  rw [if_neg fun hq => hb (below_iff_stripPrefix.mp hq), Op.run_bind, BareMetalPlatform.run_onTree,
    hadd]

theorem run_rename_of_missing (hs : t₁.existsAt source = false) :
    (rename source target).run p = (.error (.notFound source), { p with tree := t₁ }) := by
  obtain ⟨hf, hd⟩ := FileTree.existsAt_eq_false_iff.mp hs
  rw [run_rename_eq_moveEntry hne hex hb hadd, BareMetalPlatform.moveEntry, Op.run_bind, Op.run_read]
  simp only [OrdMap.contains_eq_false_iff.mp hf, hd, Bool.not_false, if_true, Op.run_throw]

theorem run_rename_of_file (hdisk : p.persistence = none) (hs : t₁.files.lookup source = some data) :
    (rename source target).run p =
      (.ok (), { p with tree := (t₁.removeFile source).insertFile target data }) := by
  rw [run_rename_eq_moveEntry hne hex hb hadd, BareMetalPlatform.moveEntry, Op.run_bind, Op.run_read]
  simp only [hs]
  have hdisk₁ : ({ p with tree := t₁ } : BareMetalPlatform D η).persistence = none := hdisk
  exact BareMetalPlatform.modify_commit_diskless hdisk₁
    (fun tree => (tree.removeFile source).insertFile target data) p.tree

theorem run_rename_of_dir (hdisk : p.persistence = none) (hf : t₁.files.lookup source = none)
    (hd : t₁.directories.contains source = true) :
    (rename source target).run p = (.ok (), { p with tree := t₁.moveSubtree source target }) := by
  rw [run_rename_eq_moveEntry hne hex hb hadd, BareMetalPlatform.moveEntry, Op.run_bind, Op.run_read]
  simp only [hf, hd, Bool.not_true, Bool.false_eq_true, if_false]
  have hdisk₁ : ({ p with tree := t₁ } : BareMetalPlatform D η).persistence = none := hdisk
  exact BareMetalPlatform.modify_commit_diskless hdisk₁
    (fun tree => tree.moveSubtree source target) p.tree

end Rename

end StorageOp

/-! ## One call on both backends -/

theorem Canonical.concat {q : Str} (h : Canonical q) :
    ∃ ps c, (∀ x ∈ ps ++ [c], Plain x) ∧ q = join (ps ++ [c]) := by
  obtain ⟨cs, hne, hp, rfl⟩ := h
  rcases List.eq_nil_or_concat' cs with rfl | ⟨ps, c, rfl⟩
  · exact absurd rfl hne
  · exact ⟨ps, c, hp, rfl⟩

namespace StorageOp

variable {D η : Type} [BlockDevice D]

/-- Both backends succeed or both fail, and afterwards they hold the same tree. Errors are compared by there being
    one. -/
def Agrees (op : StorageOp) (P : DesktopPlatform) (p : BareMetalPlatform D η) : Prop :=
  (op.onDesktop P).1.isOk = (op.run p).1.isOk ∧ Mirrors (op.onDesktop P).2 (op.run p).2.tree

variable {P : DesktopPlatform} {p : BareMetalPlatform D η}

theorem Agrees.of_eq {op : StorageOp} {r r' : Except Error Unit} {P' : DesktopPlatform}
    {p' : BareMetalPlatform D η} (hdesk : op.onDesktop P = (r, P')) (hbare : op.run p = (r', p'))
    (hok : r.isOk = r'.isOk) (hm : Mirrors P' p'.tree) : op.Agrees P p := by
  rw [Agrees, hdesk, hbare]
  exact ⟨hok, hm⟩

variable (hm : Mirrors P p.tree) (hdisk : p.persistence = none)
include hm hdisk

/-- Writing a file. The bare-metal platform asks for a directory in its place first, and the host last, but then the
    parents are there anyway. -/
theorem write_agrees {path : Str} (hc : Canonical path) (data : Bytes) :
    (write path data).Agrees P p := by
  obtain ⟨ps, c, hp, rfl⟩ := hc.concat
  have hn := isName_of_plain hp
  rcases hm.prepare hp with ⟨t₁, h', hadd, he, hdug, hw, hm₁⟩ | ⟨e, e', q, hadd, hw, hl, hf⟩
  · have hd₁ : h'.node (P.root ++ ps) = some .dir := by
      rw [hdug.node_append, if_pos (List.prefix_refl _)]
    have hr := Host.resolve_real hd₁ rfl
    have hsame : h'.node (P.root ++ ps ++ [c]) = P.host.node (P.root ++ (ps ++ [c])) := by
      rw [List.append_assoc, hdug.node_append, if_neg fun hle => by simpa using hle.length_le]
    have hnul := hasNul_append hm.nul hp
    rw [← List.append_assoc] at hnul hw
    have hdesk : (write (join (ps ++ [c])) data).onDesktop P =
        ((Host.writeFile ⟨P.root ++ ps ++ [c], .plain⟩ data h').1.mapError ioError,
          { P with host := (Host.writeFile ⟨P.root ++ ps ++ [c], .plain⟩ data h').2 }) := by
      simp only [onDesktop, DesktopPlatform.storageWrite]
      rw [Op.run_bind_ok hw, DesktopPlatform.run_onHost]
    by_cases hdir : P.host.node (P.root ++ (ps ++ [c])) = some .dir
    · -- a directory is in that place: its parents were there, and nothing has happened
      have htree := (hm.directory_iff (by simp) hn).mpr hdir
      have hh : h' = P.host := by
        rw [← List.append_assoc] at hdir
        exact hdug.eq_self (P.host.node_parent hdir)
      rw [Host.writeFile_of_dir hnul hr hd₁ data (hsame.trans hdir)] at hdesk
      refine .of_eq hdesk (run_write_of_dir htree) rfl ?_
      rw [hh]
      exact hm
    · have htree : p.tree.directories.contains (join (ps ++ [c])) = false :=
        Bool.eq_false_iff.mpr fun ht => hdir ((hm.directory_iff (by simp) hn).mp ht)
      rw [Host.writeFile_of_not_dir hnul hr hd₁ data (hsame ▸ hdir) fun n hnode =>
        (hm.inside (by simp) (hsame ▸ hnode)).2] at hdesk
      refine .of_eq hdesk (run_write_of_clear hdisk htree hadd) rfl ?_
      exact hm₁.insertFile hn hd₁ (hsame ▸ hdir) data
  · have hdesk : (write (join (ps ++ [c])) data).onDesktop P = (.error e', P) := by
      simp only [onDesktop, DesktopPlatform.storageWrite]
      rw [Op.run_bind_error hw]
    cases hd : p.tree.directories.contains (join (ps ++ [c])) with
    | true => exact .of_eq hdesk (run_write_of_dir hd) rfl hm
    | false => exact .of_eq hdesk (run_write_of_blocked hd hadd) rfl hm

/-- Making directories. The desktop platform makes the parents and then, in a second step, the rest. -/
theorem createDirAll_agrees {path : Str} (hc : Canonical path) : (createDirAll path).Agrees P p := by
  obtain ⟨ps, c, hp, rfl⟩ := hc.concat
  have hn := isName_of_plain hp
  have hnul := hasNul_append hm.nul hp
  rcases hm.wellFormed.addParents_cases (isCanonical_join hn) with
    ⟨t', hadd, he⟩ | ⟨q, hadd, hl, hf⟩
  · rcases hm.prepare hp with ⟨t₁, h', -, -, hdug, hw, hm₁⟩ | ⟨e, e', q, -, -, hl, hf⟩
    · -- no file is in the way of the path itself either, and the rest is made in a second step
      have hmore : ∃ h'', Host.createDirAll ⟨P.root ++ (ps ++ [c]), .plain⟩ h' = (.ok (), h'') ∧
          Dug P.root (ps ++ [c]) h' h'' := by
        refine hm₁.createDirAll_dug hnul fun a b ha hab data hfile => ?_
        have hfree := he.clear ((leads_join_iff hn).mpr ⟨a, b, ha, hab, rfl⟩)
        have hfile' : h'.node (P.root ++ a) = some (.file data) := hfile
        rw [hdug.node_append] at hfile'
        split at hfile'
        case isTrue => cases hfile'
        case isFalse =>
          rw [(hm.contains_file_iff ha (hm.inside ha hfile').1).mpr ⟨data, hfile'⟩] at hfree
          cases hfree
      obtain ⟨h'', hrun, hdug'⟩ := hmore
      have hdesk : (createDirAll (join (ps ++ [c]))).onDesktop P = (.ok (), { P with host := h'' }) := by
        simp only [onDesktop, DesktopPlatform.storageCreateDirAll]
        rw [Op.run_bind_ok hw, DesktopPlatform.run_onHost, hrun]
        rfl
      exact .of_eq hdesk (run_createDirAll_of_clear hdisk hadd) rfl
        (hm.entered hn he (hdug.trans hdug'))
    · have hb : Leads q (join (ps ++ [c])) := by
        obtain ⟨a, b, ha, hab, rfl⟩ := (leads_join_iff fun x hx => hn x (List.mem_append_left _ hx)).mp hl
        exact (leads_join_iff hn).mpr ⟨a, b ++ [c], ha, by rw [hab, List.append_assoc], rfl⟩
      rw [he.clear hb] at hf
      cases hf
  · obtain ⟨a, b, ha, hab, rfl⟩ := (leads_join_iff hn).mp hl
    have hna : ∀ x ∈ a, IsName x := fun x hx => hn x (hab ▸ List.mem_append_left _ hx)
    obtain ⟨data, hfile⟩ := (hm.contains_file_iff ha hna).mp hf
    rcases hm.prepare hp with ⟨t₁, h', -, he₁, hdug, hw, hm₁⟩ | ⟨e, e', q, -, hw, -, -⟩
    · -- the parents are clear, so the file is at the path itself, and the parents were there
      obtain rfl : b = [] := by
        rcases List.eq_nil_or_concat' b with rfl | ⟨b, x, rfl⟩
        · rfl
        · rw [← List.append_assoc] at hab
          obtain ⟨hps, -⟩ := List.append_inj' hab rfl
          have hfree := he₁.clear ((leads_join_iff fun x hx =>
            hn x (List.mem_append_left _ hx)).mpr ⟨a, b, ha, hps, rfl⟩)
          rw [hf] at hfree
          cases hfree
      rw [List.append_nil] at hab
      subst hab
      have hh : h' = P.host := by
        rw [← List.append_assoc] at hfile
        exact hdug.eq_self (P.host.node_parent hfile)
      subst hh
      obtain ⟨e, hrun⟩ := Mirrors.createDirAll_blocked hnul (List.append_nil _).symm hfile
      have hdesk : (createDirAll (join (ps ++ [c]))).onDesktop P = (.error (ioError e), P) := by
        simp only [onDesktop, DesktopPlatform.storageCreateDirAll]
        rw [Op.run_bind_ok hw, DesktopPlatform.run_onHost, hrun]
        rfl
      exact .of_eq hdesk (run_createDirAll_of_blocked hadd) rfl hm
    · have hdesk : (createDirAll (join (ps ++ [c]))).onDesktop P = (.error e', P) := by
        simp only [onDesktop, DesktopPlatform.storageCreateDirAll]
        rw [Op.run_bind_error hw]
      exact .of_eq hdesk (run_createDirAll_of_blocked hadd) rfl hm

/-- Removing a file, or a directory with all that is in it, is answered alike by both backends and leaves the same
    behind. -/
theorem remove_agrees {path : Str} (hc : Canonical path) : (remove path).Agrees P p := by
  obtain ⟨ps, c, hp, rfl⟩ := hc.concat
  have hn := isName_of_plain hp
  have hne : ps ++ [c] ≠ [] := by simp
  -- missing, a directory or a file; a link cannot be there
  cases hnode : P.host.node (P.root ++ (ps ++ [c])) with
  | none =>
    obtain ⟨e, he⟩ := hm.existing_of_missing hne hp hnode
    have hdesk : (remove (join (ps ++ [c]))).onDesktop P = (.error e, P) := by
      simp only [onDesktop, DesktopPlatform.storageRemove]
      rw [Op.run_bind, Op.run_read]
      dsimp only
      rw [Op.run_bind, Op.run_ofExcept, he]
    exact .of_eq hdesk (run_remove_of_missing ((hm.node_eq_none_iff hne hn).mp hnode)) rfl hm
  | some n =>
    have hex := hm.existing_of_node hne hp hnode
    have hcan := hm.canonicalize_of_node hp hne hnode
    have hnul := hasNul_append hm.nul hp
    have hd : P.host.node (P.root ++ ps) = some .dir :=
      P.host.node_parent (by rw [List.append_assoc]; exact hnode)
    have hr := Host.resolve_real hd rfl
    have hdesk : (remove (join (ps ++ [c]))).onDesktop P =
        (if P.host.isDir ⟨P.root ++ (ps ++ [c]), .plain⟩ then
          DesktopPlatform.onHost (Host.removeDirAll ⟨P.root ++ (ps ++ [c]), .plain⟩) P
        else DesktopPlatform.onHost (Host.removeFile ⟨P.root ++ (ps ++ [c]), .plain⟩) P) := by
      simp only [onDesktop, DesktopPlatform.storageRemove]
      rw [Op.run_bind, Op.run_read]
      dsimp only
      rw [Op.run_bind, Op.run_ofExcept, hex]
      dsimp only
      split <;> rfl
    cases n with
    | link target => cases (hm.inside hne hnode).2
    | dir =>
      have hdir : P.host.isDir ⟨P.root ++ (ps ++ [c]), .plain⟩ = true :=
        Host.isDir_iff.mpr ⟨_, hcan, hnode⟩
      have htree := (hm.directory_iff hne hn).mpr hnode
      have hfile : p.tree.files.contains (join (ps ++ [c])) = false :=
        Bool.eq_false_iff.mpr fun hf => by
          rw [hm.wellFormed.disjoint hf] at htree
          cases htree
      rw [← List.append_assoc] at hnul hnode
      rw [if_pos hdir, DesktopPlatform.run_onHost, ← List.append_assoc,
        Host.removeDirAll_of_dir hnul hr hd hnode, List.append_assoc] at hdesk
      rw [List.append_assoc] at hnode
      exact .of_eq hdesk (run_remove_of_dir hdisk hfile htree) rfl (hm.removeSubtree hne hn hnode)
    | file data =>
      have hdir : ¬ P.host.isDir ⟨P.root ++ (ps ++ [c]), .plain⟩ = true := by
        intro ht
        obtain ⟨q, hq, hqd⟩ := Host.isDir_iff.mp ht
        rw [hcan] at hq
        rw [← Except.ok.inj hq, hnode] at hqd
        cases hqd
      have htree := (hm.contains_file_iff hne hn).mpr ⟨data, hnode⟩
      rw [← List.append_assoc] at hnul hnode
      rw [if_neg hdir, DesktopPlatform.run_onHost, ← List.append_assoc,
        Host.removeFile_of_file hnul hr hd hnode, List.append_assoc] at hdesk
      rw [List.append_assoc] at hnode
      exact .of_eq hdesk (run_remove_of_file hdisk htree) rfl (hm.removeFile hne hn hnode)

end StorageOp

end Afos
