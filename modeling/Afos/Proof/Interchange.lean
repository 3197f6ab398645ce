import Afos.Lib.Run
import Afos.Proof.Backends
import Afos.Proof.Layout

/-!
# Two backends for one interface

Started on the same tree and given the same calls, do the two platforms answer alike and keep the
same tree? All calls but renames do. A rename differs in four situations and in no other
(`Differs`): of a missing path to itself; onto something that the host would replace; of a directory
to a place below itself, with parents to be made; and of a missing path, with parents to be made. In
the last two, one of the backends leaves the parents behind and the other does not.

For whole runs: the platforms agree at every call of a run exactly if no call of it is one of these.
-/

set_option autoImplicit false

namespace Afos

open Lib

namespace StorageOp

/-- The host would put the source in the place of the target: two files, or two directories of which the target is
    empty. The desktop platform hands its rename to the host, and that is what a host does; the bare-metal platform
    refuses any target that is there. -/
def Replaces (t : FileTree) (source target : Str) : Prop :=
  source ≠ target ∧ ¬ Below source target ∧
    (t.files.contains source = true ∧ t.files.contains target = true ∨
      t.directories.contains source = true ∧ t.directories.contains target = true ∧
        ∀ p, Below target p → t.existsAt p = false)

/-- A directory is to be moved below itself, where no file is in the way and some directory is missing. Both refuse it,
    but the desktop platform makes the parents of a target before the host gets to see the rename. -/
def Descends (t : FileTree) (source target : Str) : Prop :=
  t.directories.contains source = true ∧ Below source target ∧
    (∀ p, p ≠ [] → Below p target → t.files.contains p = false) ∧
    ∃ p, p ≠ [] ∧ Below p target ∧ t.directories.contains p = false

/-- The calls on which the backends differ: a rename in one of four situations, each of them a property of the tree and
    the two paths. -/
def Differs (t : FileTree) : StorageOp → Prop
  | rename source target =>
      (source = target ∧ t.existsAt source = false) ∨ Replaces t source target ∨
        Descends t source target ∨ (rename source target).LeavesParents t
  | _ => False

def renames : StorageOp → Bool
  | rename _ _ => true
  | _ => false

theorem not_differs_of_renames {t : FileTree} {op : StorageOp} (h : op.renames = false) :
    ¬ op.Differs t := by
  cases op with
  | rename source target => cases h
  | write path data => exact id
  | createDirAll path => exact id
  | remove path => exact id

end StorageOp

namespace Mirrors

variable {P : DesktopPlatform} {t : FileTree} (hm : Mirrors P t)
include hm

/-- Nothing has to be made above a path at which there is something. -/
theorem writable_of_node {ps : List Str} {c : Str} (hp : ∀ x ∈ ps ++ [c], Plain x) {k : Inode}
    (hk : P.host.node (P.root ++ (ps ++ [c])) = some k) :
    DesktopPlatform.writable (join (ps ++ [c])) P = (.ok ⟨P.root ++ (ps ++ [c]), .plain⟩, P) := by
  have hn := isName_of_plain hp
  rcases hm.prepare hp with ⟨t₁, h', -, -, hdug, hw, -⟩ | ⟨e, e', q, -, -, hl, hf⟩
  · rw [← List.append_assoc] at hk
    obtain rfl := hdug.eq_self (P.host.node_parent hk)
    exact hw
  · have hex := (hm.existsAt_iff (by simp) hn).mpr ⟨k, hk⟩
    rw [← parent_join (hn c (by simp))] at hl
    exact absurd ((leads_parent_iff hl.1).mp hl) (hm.wellFormed.not_below_file hl.1 hf hex)

/-- What is there is still there after parents have been entered. -/
theorem kept {t₁ : FileTree} {h' : Host} {q : Str} {cs : List Str} {n : Inode}
    (he : FileTree.Entered t q t₁) (hm₁ : Mirrors { P with host := h' } t₁) (hne : cs ≠ [])
    (hnode : P.host.node (P.root ++ cs) = some n) : h'.node (P.root ++ cs) = some n := by
  obtain ⟨hn, hl⟩ := hm.inside hne hnode
  cases n with
  | link target => cases hl
  | dir =>
    refine (hm₁.directory_iff hne hn).mp (he.directories.mpr (Or.inl ?_))
    exact (hm.directory_iff hne hn).mpr hnode
  | file data =>
    refine (hm₁.file_iff hne hn).mp ?_
    rw [he.files]
    exact (hm.file_iff hne hn).mpr hnode

/-- Nothing is below a path exactly if the host has no entry in the directory there: whatever is further down has
    something one name below the path on its way. -/
theorem isEmpty_iff {ts : List Str} (hne : ts ≠ []) (hts : ∀ x ∈ ts, IsName x) :
    (P.host.children (P.root ++ ts)).isEmpty = true ↔ ∀ p, Below (join ts) p → t.existsAt p = false := by
  rw [Host.isEmpty_children_iff]
  constructor
  · refine fun hno p hb => Bool.eq_false_iff.mpr fun hex => ?_
    obtain ⟨ds, k, hds, rfl, hk⟩ := hm.exists_names hex
    obtain ⟨r, hr, rfl⟩ := (below_join_iff hts (hm.inside hds hk).1 hne).mp hb
    cases r with
    | nil => exact hr rfl
    | cons x r =>
      have hx : ∃ k', P.host.node (P.root ++ ts ++ [x]) = some k' := by
        rw [show P.root ++ (ts ++ x :: r) = P.root ++ ts ++ [x] ++ r by simp] at hk
        cases r with
        | nil => exact ⟨k, by rw [List.append_nil] at hk; exact hk⟩
        | cons y r => exact ⟨.dir, P.host.node_above (by simp) hk⟩
      obtain ⟨k', hk'⟩ := hx
      rw [hno x] at hk'
      cases hk'
  · refine fun hno x => Option.eq_none_iff_forall_ne_some.mpr fun k hk => ?_
    rw [List.append_assoc] at hk
    have hn := (hm.inside (by simp) hk).1
    have hb : Below (join ts) (join (ts ++ [x])) :=
      (below_join_iff hts hn hne).mpr ⟨[x], by simp, rfl⟩
    have hex := (hm.existsAt_iff (by simp) hn).mpr ⟨k, hk⟩
    rw [hno _ hb] at hex
    cases hex

/-- What the host would replace, in terms of the tree. -/
theorem displaces_ok_iff {ss ts : List Str} {n k : Inode} (hss : ss ≠ []) (hns : ∀ x ∈ ss, IsName x)
    (hn : P.host.node (P.root ++ ss) = some n) (hts : ts ≠ []) (hnt : ∀ x ∈ ts, IsName x)
    (hk : P.host.node (P.root ++ ts) = some k) :
    P.host.displaces n (P.root ++ ts) = .ok () ↔
      t.files.contains (join ss) = true ∧ t.files.contains (join ts) = true ∨
        t.directories.contains (join ss) = true ∧ t.directories.contains (join ts) = true ∧
          ∀ p, Below (join ts) p → t.existsAt p = false := by
  rw [hm.contains_file_iff hss hns, hm.contains_file_iff hts hnt, hm.directory_iff hss hns,
    hm.directory_iff hts hnt, ← hm.isEmpty_iff hts hnt, Host.displaces.eq_def, hn, hk]
  cases n with
  | link target => cases (hm.inside hss hn).2
  | file data =>
    cases k with
    | link target => cases (hm.inside hts hk).2
    | file bytes => simp
    | dir => simp
  | dir =>
    cases k with
    | link target => cases (hm.inside hts hk).2
    | file bytes => simp
    | dir =>
      cases (P.host.children (P.root ++ ts)).isEmpty with
      | true => simp
      | false => simp

end Mirrors

/-! ## Renaming -/

namespace StorageOp

variable {D η : Type} [BlockDevice D] {P : DesktopPlatform} {p : BareMetalPlatform D η}
variable {source target : Str}

theorem onDesktop_rename_of_missing {e : Error} (he : P.existing source = .error e) :
    (rename source target).onDesktop P = (.error e, P) := by
  simp only [onDesktop, DesktopPlatform.storageRename]
  rw [Op.run_bind, Op.run_read]
  dsimp only
  rw [Op.run_bind, Op.run_ofExcept, he]

theorem onDesktop_rename_of_refused {q : List Str} {e : Error} (he : P.existing source = .ok q)
    (hw : DesktopPlatform.writable target P = (.error e, P)) :
    (rename source target).onDesktop P = (.error e, P) := by
  simp only [onDesktop, DesktopPlatform.storageRename]
  rw [Op.run_bind, Op.run_read]
  dsimp only
  rw [Op.run_bind, Op.run_ofExcept, he]
  dsimp only
  rw [Op.run_bind_error hw]

theorem onDesktop_rename {q : List Str} {path : HostPath} {h' : Host} {out : Except Errno Unit × Host}
    (he : P.existing source = .ok q)
    (hw : DesktopPlatform.writable target P = (.ok path, { P with host := h' }))
    (hrun : Host.rename ⟨q, .plain⟩ path h' = out) :
    (rename source target).onDesktop P = (out.1.mapError ioError, { P with host := out.2 }) := by
  simp only [onDesktop, DesktopPlatform.storageRename]
  rw [Op.run_bind, Op.run_read]
  dsimp only
  rw [Op.run_bind, Op.run_ofExcept, he]
  dsimp only
  rw [Op.run_bind_ok hw, DesktopPlatform.run_onHost, ← hrun]

/-- The two ends of a rename, as entries of directories of the host. -/
theorem locate_join {h : Host} {root ps : List Str} {c : Str}
    (hroot : HostPath.hasNul ⟨root, .plain⟩ = false) (hp : ∀ x ∈ ps ++ [c], Plain x)
    (hd : h.node (root ++ ps) = some .dir) :
    h.locate ⟨root ++ (ps ++ [c]), .plain⟩ = .ok (some (root ++ ps, c)) := by
  have hnul := hasNul_append hroot hp
  rw [← List.append_assoc] at hnul ⊢
  exact Host.locate_of_dir hnul (by decide) (Host.resolve_real hd rfl) hd

variable (hm : Mirrors P p.tree)
include hm

/-- A path renamed to itself: the bare-metal platform does not look whether it is there, and succeeds. The desktop
    platform asks for the source first. -/
theorem rename_self_agrees_iff {path : Str} (hc : Canonical path) :
    (rename path path).Agrees P p ↔ p.tree.existsAt path = true := by
  obtain ⟨ps, c, hp, rfl⟩ := hc.concat
  have hn := isName_of_plain hp
  have hne : ps ++ [c] ≠ [] := by simp
  rw [hm.existsAt_iff hne hn]
  cases hnode : P.host.node (P.root ++ (ps ++ [c])) with
  | none =>
    obtain ⟨e, he⟩ := hm.existing_of_missing hne hp hnode
    refine ⟨fun hag => ?_, fun ⟨n, hsome⟩ => by cases hsome⟩
    rw [Agrees, onDesktop_rename_of_missing he, run_rename_self] at hag
    cases hag.1
  | some n =>
    have hd : P.host.node (P.root ++ ps) = some .dir :=
      P.host.node_parent (by rw [List.append_assoc]; exact hnode)
    have hloc := locate_join hm.nul hp hd
    have hrun := Host.rename_self hloc hloc rfl rfl (by rw [List.append_assoc]; exact hnode) rfl
    have hdesk := onDesktop_rename (hm.existing_of_node hne hp hnode) (hm.writable_of_node hp hnode)
      hrun
    exact ⟨fun _ => ⟨n, rfl⟩, fun _ => .of_eq hdesk (run_rename_self _) rfl hm⟩

omit [BlockDevice D] in
/-- A target that is there is replaced if the host would, and refused otherwise. The cases are how the two paths lie:
    the source missing, the target below the source, the source below the target, and neither of these. -/
theorem onDesktop_rename_existing (hs : Canonical source) (ht : Canonical target)
    (hne : source ≠ target) (hex : p.tree.existsAt target = true) :
    Replaces p.tree source target ∧ ((rename source target).onDesktop P).1 = .ok () ∨
      ¬ Replaces p.tree source target ∧ ∃ e, (rename source target).onDesktop P = (.error e, P) := by
  obtain ⟨sp, x, hsp, rfl⟩ := hs.concat
  obtain ⟨tp, c, htp, rfl⟩ := ht.concat
  have hns := isName_of_plain hsp
  have hnt := isName_of_plain htp
  have hss : sp ++ [x] ≠ [] := by simp
  have hts : tp ++ [c] ≠ [] := by simp
  obtain ⟨k, hk⟩ := (hm.existsAt_iff hts hnt).mp hex
  have hdt : P.host.node (P.root ++ tp) = some .dir :=
    P.host.node_parent (by rw [List.append_assoc]; exact hk)
  cases hnode : P.host.node (P.root ++ (sp ++ [x])) with
  | none =>
    obtain ⟨e, he⟩ := hm.existing_of_missing hss hsp hnode
    have hmiss := FileTree.existsAt_eq_false_iff.mp ((hm.node_eq_none_iff hss hns).mp hnode)
    refine Or.inr ⟨fun hr => ?_, e, onDesktop_rename_of_missing he⟩
    rcases hr.2.2 with ⟨hf, -⟩ | ⟨hd, -⟩
    · rw [hmiss.1] at hf; cases hf
    · rw [hmiss.2] at hd; cases hd
  | some n =>
    have hds : P.host.node (P.root ++ sp) = some .dir :=
      P.host.node_parent (by rw [List.append_assoc]; exact hnode)
    have hls := locate_join hm.nul hsp hds
    have hlt := locate_join hm.nul htp hdt
    have hnode' : P.host.node (P.root ++ sp ++ [x]) = some n := by
      rw [List.append_assoc]; exact hnode
    have hdiff : P.root ++ sp ++ [x] ≠ P.root ++ tp ++ [c] := by
      rw [List.append_assoc, List.append_assoc]
      exact fun heq => hne (by rw [List.append_cancel_left heq])
    have hdesk := fun {out : Except Errno Unit × Host}
        (hrun : Host.rename ⟨P.root ++ (sp ++ [x]), .plain⟩ ⟨P.root ++ (tp ++ [c]), .plain⟩ P.host = out) =>
      onDesktop_rename (hm.existing_of_node hss hsp hnode) (hm.writable_of_node htp hk) hrun
    have hpre : ∀ {a b : List Str}, P.root ++ a <+: P.root ++ b ↔ a <+: b :=
      List.prefix_append_right_inj P.root
    by_cases hle : sp ++ [x] <+: tp ++ [c]
    · -- below itself
      have hb : Below (join (sp ++ [x])) (join (tp ++ [c])) :=
        ((at_join_iff hns hnt hss).mpr hle).resolve_left (Ne.symm hne)
      have hrun := Host.rename_below hls hlt rfl rfl hnode' hdiff
        (by rw [List.append_assoc, List.append_assoc]; exact hpre.mpr hle)
      exact Or.inr ⟨fun hr => hr.2.1 hb, _, hdesk hrun⟩
    · by_cases hge : tp ++ [c] <+: sp ++ [x]
      · -- onto what it is in
        have hb : Below (join (tp ++ [c])) (join (sp ++ [x])) :=
          ((at_join_iff hnt hns hts).mpr hge).resolve_left hne
        have hrun := Host.rename_above hls hlt rfl rfl hnode' hdiff
          (by rw [List.append_assoc, List.append_assoc]; exact hpre.mpr hge)
        refine Or.inr ⟨fun hr => ?_, _, hdesk hrun⟩
        have hsrc := (hm.existsAt_iff hss hns).mpr ⟨n, hnode⟩
        rcases hr.2.2 with ⟨-, hf⟩ | ⟨-, -, hempty⟩
        · exact hm.wellFormed.not_below_file (fun hnil => hts ((join_eq_nil_iff hnt).mp hnil)) hf
            hsrc hb
        · rw [hempty _ hb] at hsrc; cases hsrc
      · -- neither is below the other: it is the kinds of the two that decide
        have hap : Host.Apart (P.root ++ sp ++ [x]) (P.root ++ tp ++ [c]) := by
          rw [List.append_assoc, List.append_assoc]
          exact ⟨fun h => hle (hpre.mp h), fun h => hge (hpre.mp h)⟩
        have hnb : ¬ Below (join (sp ++ [x])) (join (tp ++ [c])) := fun hb =>
          hle ((at_join_iff hns hnt hss).mp (Or.inr hb))
        have hiff := hm.displaces_ok_iff hss hns hnode hts hnt hk
        rw [← List.append_assoc] at hiff
        cases hdis : P.host.displaces n (P.root ++ tp ++ [c]) with
        | ok u =>
          have hrun := Host.rename_displaces hls hlt rfl rfl hnode' hap hdis
          refine Or.inl ⟨⟨hne, hnb, hiff.mp hdis⟩, ?_⟩
          rw [hdesk hrun]
          rfl
        | error e =>
          have hrun := Host.rename_displaces hls hlt rfl rfl hnode' hap hdis
          refine Or.inr ⟨fun hr => ?_, _, hdesk hrun⟩
          rw [hiff.mpr hr.2.2] at hdis
          cases hdis

/-- Onto something that is there: the bare-metal platform refuses, and so does the host unless it
    would replace it. -/
theorem rename_existing_agrees_iff (hs : Canonical source) (ht : Canonical target)
    (hne : source ≠ target) (hex : p.tree.existsAt target = true) :
    (rename source target).Agrees P p ↔ ¬ Replaces p.tree source target := by
  have hbare := run_rename_of_existing hne hex
  rcases onDesktop_rename_existing hm hs ht hne hex with ⟨hr, hok⟩ | ⟨hr, e, hdesk⟩
  · refine ⟨fun hag => ?_, fun hno => absurd hr hno⟩
    rw [Agrees, hok, hbare] at hag
    cases hag.1
  · exact ⟨fun _ => hr, fun _ => .of_eq hdesk hbare rfl hm⟩

omit hm in
/-- Parents that have been entered are a change exactly if one of them was missing. This is where an answer that is the
    same on both sides can still leave different trees. -/
theorem entered_ne_iff {t t₁ : FileTree} (he : FileTree.Entered t (parent target) t₁) :
    t₁ ≠ t ↔ ∃ q, q ≠ [] ∧ Below q target ∧ t.directories.contains q = false := by
  constructor
  · intro hne
    by_contra hno
    refine hne (he.eq_self fun q hl => Bool.of_not_eq_false fun hd => hno ⟨q, hl.1, ?_, hd⟩)
    exact (leads_parent_iff hl.1).mp hl
  · rintro ⟨q, hq, hb, hd⟩ rfl
    rw [he.directories.mpr (Or.inr ((leads_parent_iff hq).mpr hb))] at hd
    cases hd

/-- To a free place below the source: both refuse, the desktop platform after it has made the parents. They agree only
    if there was nothing to make. -/
theorem rename_below_agrees_iff (hs : Canonical source) (ht : Canonical target)
    (hex : p.tree.existsAt target = false) (hb : Below source target) :
    (rename source target).Agrees P p ↔ ¬ Descends p.tree source target := by
  have hbare := run_rename_of_below hb.ne hex hb
  obtain ⟨sp, x, hsp, rfl⟩ := hs.concat
  obtain ⟨tp, c, htp, rfl⟩ := ht.concat
  have hns := isName_of_plain hsp
  have hnt := isName_of_plain htp
  have hss : sp ++ [x] ≠ [] := by simp
  have hpar : parent (join (tp ++ [c])) = join tp := parent_join (hnt c (by simp))
  cases hnode : P.host.node (P.root ++ (sp ++ [x])) with
  | none =>
    obtain ⟨e, he⟩ := hm.existing_of_missing hss hsp hnode
    refine ⟨fun _ hd => ?_, fun _ => .of_eq (onDesktop_rename_of_missing he) hbare rfl hm⟩
    have hdir := (hm.directory_iff hss hns).mp hd.1
    rw [hnode] at hdir
    cases hdir
  | some n =>
    have hexist := hm.existing_of_node hss hsp hnode
    rcases hm.prepare htp with ⟨t₁, h', -, he, hdug, hw, hm₁⟩ | ⟨e, e', q, -, hw, hl, hf⟩
    · have hnode' := hm.kept he hm₁ hss hnode
      have hle : sp ++ [x] <+: tp ++ [c] := (at_join_iff hns hnt hss).mp (Or.inr hb)
      have hds : h'.node (P.root ++ sp) = some .dir :=
        h'.node_parent (by rw [List.append_assoc]; exact hnode')
      have hdt : h'.node (P.root ++ tp) = some .dir := by
        rw [hdug.node_append, if_pos (List.prefix_refl _)]
      have hrun := Host.rename_below (locate_join hm.nul hsp hds) (locate_join hm.nul htp hdt) rfl rfl
        (by rw [List.append_assoc]; exact hnode')
        (by
          rw [List.append_assoc, List.append_assoc]
          exact fun heq => hb.ne (by rw [List.append_cancel_left heq]))
        (by
          rw [List.append_assoc, List.append_assoc]
          exact (List.prefix_append_right_inj _).mpr hle)
      have hdesk := onDesktop_rename hexist hw hrun
      rw [← hpar] at he
      -- the source is a directory, because it is one of the parents
      have hdir : p.tree.directories.contains (join (sp ++ [x])) = true := by
        have hfree := he.clear ((leads_parent_iff fun hnil =>
          hss ((join_eq_nil_iff hns).mp hnil)).mpr hb)
        rcases FileTree.existsAt_iff.mp ((hm.existsAt_iff hss hns).mpr ⟨n, hnode⟩) with hf | hd
        · rw [hfree] at hf; cases hf
        · exact hd
      have hclear : ∀ q, q ≠ [] → Below q (join (tp ++ [c])) → p.tree.files.contains q = false :=
        fun q hq hbq => he.clear ((leads_parent_iff hq).mpr hbq)
      constructor
      · rintro hag ⟨-, -, -, hmiss⟩
        rw [Agrees, hdesk, hbare] at hag
        exact (entered_ne_iff he).mpr hmiss (hm₁.unique hag.2)
      · intro hno
        obtain rfl : t₁ = p.tree := by
          by_contra hne
          exact hno ⟨hdir, hb, hclear, (entered_ne_iff he).mp hne⟩
        exact .of_eq hdesk hbare rfl hm₁
    · refine ⟨fun _ hd => ?_, fun _ =>
        .of_eq (onDesktop_rename_of_refused hexist hw) hbare rfl hm⟩
      rw [← hpar] at hl
      rw [hd.2.2.1 q hl.1 ((leads_parent_iff hl.1).mp hl)] at hf
      cases hf

/-- To a free place elsewhere: both move the source if it is there; if it is not, the bare-metal platform has made the
    parents before it finds out, and the desktop platform has not. -/
theorem rename_free_agrees_iff (hdisk : p.persistence = none) (hs : Canonical source)
    (ht : Canonical target) (hne : source ≠ target) (hex : p.tree.existsAt target = false)
    (hb : ¬ Below source target) :
    (rename source target).Agrees P p ↔ ¬ (rename source target).LeavesParents p.tree := by
  obtain ⟨sp, x, hsp, rfl⟩ := hs.concat
  obtain ⟨tp, c, htp, rfl⟩ := ht.concat
  have hns := isName_of_plain hsp
  have hnt := isName_of_plain htp
  have hss : sp ++ [x] ≠ [] := by simp
  have hts : tp ++ [c] ≠ [] := by simp
  have hpar : parent (join (tp ++ [c])) = join tp := parent_join (hnt c (by simp))
  rcases hm.prepare htp with ⟨t₁, h', hadd, he, hdug, hw, hm₁⟩ | ⟨e, e', q, hadd, hw, hl, hf⟩
  · have hdt : h'.node (P.root ++ tp) = some .dir := by
      rw [hdug.node_append, if_pos (List.prefix_refl _)]
    cases hnode : P.host.node (P.root ++ (sp ++ [x])) with
    | none =>
      -- the source is missing: one side has entered the parents and the other has not
      obtain ⟨e, hmiss⟩ := hm.existing_of_missing hss hsp hnode
      have hsrc := (hm.node_eq_none_iff hss hns).mp hnode
      have hsrc₁ : t₁.existsAt (join (sp ++ [x])) = false := by
        rw [FileTree.existsAt_eq_false_iff] at hsrc ⊢
        rw [← hpar] at he
        exact ⟨by rw [he.files]; exact hsrc.1, (he.directories_of_not_below hb).trans hsrc.2⟩
      have hbare := run_rename_of_missing hne hex hb hadd hsrc₁
      have hdesk : (rename (join (sp ++ [x])) (join (tp ++ [c]))).onDesktop P = (.error e, P) :=
        onDesktop_rename_of_missing hmiss
      rw [← hpar] at he
      constructor
      · rintro hag ⟨-, -, -, -, -, hmissing⟩
        rw [Agrees, hdesk, hbare] at hag
        exact (entered_ne_iff he).mpr hmissing (hag.2.unique hm)
      · intro hno
        obtain rfl : t₁ = p.tree := by
          by_contra hdiff
          refine hno ⟨hne, hsrc, hex, hb, fun q hq hbq => ?_, (entered_ne_iff he).mp hdiff⟩
          exact he.clear ((leads_parent_iff hq).mpr hbq)
        exact .of_eq hdesk hbare rfl hm
    | some n =>
      -- it is there, and nothing is in its way on the host either
      have hnode' := hm.kept he hm₁ hss hnode
      have hds : h'.node (P.root ++ sp) = some .dir :=
        h'.node_parent (by rw [List.append_assoc]; exact hnode')
      have hfree : h'.node (P.root ++ (tp ++ [c])) = none := by
        rw [hdug.node_append, if_neg fun hle => by simpa using hle.length_le]
        exact (hm.node_eq_none_iff hts hnt).mpr hex
      have hout : ¬ sp ++ [x] <+: tp ++ [c] := fun hle =>
        ((at_join_iff hns hnt hss).mpr hle).elim (fun heq => hne heq.symm) hb
      have hap : Host.Apart (P.root ++ sp ++ [x]) (P.root ++ tp ++ [c]) := by
        rw [List.append_assoc P.root sp]
        exact Mirrors.apart_of_free (P := { P with host := h' }) hfree hout hnode'
      have hdis : h'.displaces n (P.root ++ tp ++ [c]) = .ok () := by
        rw [List.append_assoc, Host.displaces.eq_def, hfree]
      have hrun := Host.rename_displaces (locate_join hm.nul hsp hds) (locate_join hm.nul htp hdt)
        rfl rfl (by rw [List.append_assoc]; exact hnode') hap hdis
      rw [if_pos rfl, List.append_assoc] at hrun
      have hdesk := onDesktop_rename (hm.existing_of_node hss hsp hnode) hw hrun
      have hsrc := (hm.existsAt_iff hss hns).mpr ⟨n, hnode⟩
      refine ⟨fun _ => not_leavesParents_of_existsAt hsrc, fun _ => ?_⟩
      cases n with
      | link target => cases (hm.inside hss hnode).2
      | file data =>
        have hfile : t₁.files.lookup (join (sp ++ [x])) = some data := (hm₁.file_iff hss hns).mpr hnode'
        exact .of_eq hdesk (run_rename_of_file hne hex hb hadd hdisk hfile) rfl
          (hm₁.moveFile hns hss hnt hdt hfree hout hnode' rfl)
      | dir =>
        have hdir : t₁.directories.contains (join (sp ++ [x])) = true :=
          (hm₁.directory_iff hss hns).mpr hnode'
        have hfile : t₁.files.lookup (join (sp ++ [x])) = none := by
          refine Option.eq_none_iff_forall_ne_some.mpr fun data hl => ?_
          rw [hm₁.file_iff hss hns] at hl
          have hclash := hl.symm.trans hnode'
          cases hclash
        exact .of_eq hdesk (run_rename_of_dir hne hex hb hadd hdisk hfile hdir) rfl
          (hm₁.moveSubtree hns hss hnt hdt hfree hout hnode' rfl)
  · have hdesk : ∃ e'', (rename (join (sp ++ [x])) (join (tp ++ [c]))).onDesktop P = (.error e'', P) := by
      cases hnode : P.host.node (P.root ++ (sp ++ [x])) with
      | none =>
        obtain ⟨e, hmiss⟩ := hm.existing_of_missing hss hsp hnode
        exact ⟨e, onDesktop_rename_of_missing hmiss⟩
      | some n => exact ⟨e', onDesktop_rename_of_refused (hm.existing_of_node hss hsp hnode) hw⟩
    obtain ⟨e'', hdesk⟩ := hdesk
    refine ⟨fun _ hno => ?_, fun _ =>
      .of_eq hdesk (run_rename_of_blocked hne hex hb hadd) rfl hm⟩
    rw [← hpar] at hl
    rw [hno.2.2.2.2.1 q hl.1 ((leads_parent_iff hl.1).mp hl)] at hf
    cases hf

/-- One call, of any kind: the answers and the trees agree exactly if it is not one of those on which the backends
    differ. The four situations exclude each other, and each is one of the cases of a rename above. -/
theorem agrees_iff (hdisk : p.persistence = none) {op : StorageOp}
    (hc : ∀ q ∈ op.paths, Canonical q) : op.Agrees P p ↔ ¬ op.Differs p.tree := by
  cases op with
  | write path data => exact ⟨fun _ => id, fun _ => write_agrees hm hdisk (hc path (by simp [paths])) data⟩
  | createDirAll path => exact ⟨fun _ => id, fun _ => createDirAll_agrees hm hdisk (hc path (by simp [paths]))⟩
  | remove path => exact ⟨fun _ => id, fun _ => remove_agrees hm hdisk (hc path (by simp [paths]))⟩
  | rename source target =>
    have hs : Canonical source := hc source (by simp [paths])
    have ht : Canonical target := hc target (by simp [paths])
    by_cases hne : source = target
    · subst hne
      rw [rename_self_agrees_iff hm hs, ← Bool.not_eq_false]
      refine not_congr ⟨fun hex => Or.inl ⟨rfl, hex⟩, ?_⟩
      rintro (⟨-, hex⟩ | hr | hd | hl)
      · exact hex
      · exact absurd rfl hr.1
      · exact absurd rfl hd.2.1.ne
      · exact absurd rfl hl.1
    · cases hex : p.tree.existsAt target with
      | true =>
        rw [rename_existing_agrees_iff hm hs ht hne hex]
        refine not_congr ⟨fun hr => Or.inr (Or.inl hr), ?_⟩
        rintro (⟨heq, -⟩ | hr | ⟨-, -, -, q, hq, hbq, hmiss⟩ | hl)
        · exact absurd heq hne
        · exact hr
        · rw [hm.wellFormed.parents hex hq hbq] at hmiss; cases hmiss
        · rw [hl.2.2.1] at hex; cases hex
      | false =>
        by_cases hb : Below source target
        · rw [rename_below_agrees_iff hm hs ht hex hb]
          refine not_congr ⟨fun hd => Or.inr (Or.inr (Or.inl hd)), ?_⟩
          rintro (⟨heq, -⟩ | hr | hd | hl)
          · exact absurd heq hne
          · exact absurd hb hr.2.1
          · exact hd
          · exact absurd hb hl.2.2.2.1
        · rw [rename_free_agrees_iff hm hdisk hs ht hne hex hb]
          refine not_congr ⟨fun hl => Or.inr (Or.inr (Or.inr hl)), ?_⟩
          obtain ⟨hfree, hfreed⟩ := FileTree.existsAt_eq_false_iff.mp hex
          rintro (⟨heq, -⟩ | ⟨-, -, ⟨-, hf⟩ | ⟨-, hd, -⟩⟩ | hd | hl)
          · exact absurd heq hne
          · rw [hfree] at hf; cases hf
          · rw [hfreed] at hd; cases hd
          · exact absurd hd.2.1 hb
          · exact hl

end StorageOp

/-! ## Whole runs -/

namespace StorageOp

variable {D η : Type} [BlockDevice D]

/-- The same call on both. -/
def runBoth (s : DesktopPlatform × BareMetalPlatform D η) (op : StorageOp) :
    DesktopPlatform × BareMetalPlatform D η :=
  ((op.onDesktop s.1).2, (op.run s.2).2)

/-- Calls on which they do not differ leave them with the same tree, from whatever tree they started with. -/
theorem mirrors_run {P : DesktopPlatform} {p : BareMetalPlatform D η} {ops : List StorageOp}
    (hrun : Along runBoth (fun s op => ¬ op.Differs s.2.tree ∧ ∀ q ∈ op.paths, Canonical q)
      (P, p) ops) (hm : Mirrors P p.tree) (hdisk : p.persistence = none) :
    Mirrors (runFrom runBoth (P, p) ops).1 (runFrom runBoth (P, p) ops).2.tree ∧
      (runFrom runBoth (P, p) ops).2.persistence = none :=
  Along.invariant (fun s => Mirrors s.1 s.2.tree ∧ s.2.persistence = none)
    (fun _ op ⟨hm, hdisk⟩ ⟨hsame, hc⟩ =>
      ⟨((agrees_iff hm hdisk hc).mpr hsame).2, run_diskless hdisk op⟩) hrun ⟨hm, hdisk⟩

/-- Along every run, of any length, the platforms agree on each call and on the tree it leaves exactly if none of the
    calls is one on which they differ. Whether a call is one depends on the tree at that moment, which is the same on
    both sides as long as they have agreed. -/
theorem backends_agree_iff {P : DesktopPlatform} {p : BareMetalPlatform D η}
    (hm : Mirrors P p.tree) (hdisk : p.persistence = none) (ops : List StorageOp)
    (hc : ∀ op ∈ ops, ∀ q ∈ op.paths, Canonical q) :
    Along runBoth (fun s op => op.Agrees s.1 s.2) (P, p) ops ↔
      Along runBoth (fun s op => ¬ op.Differs s.2.tree) (P, p) ops := by
  induction ops generalizing P p with
  | nil => exact Iff.rfl
  | cons op ops ih =>
    have hstep : op.Agrees P p ↔ ¬ op.Differs p.tree := agrees_iff hm hdisk (hc op (by simp))
    refine ⟨fun ⟨hagree, hrest⟩ => ⟨hstep.mp hagree, ?_⟩,
      fun ⟨hsame, hrest⟩ => ⟨hstep.mpr hsame, ?_⟩⟩
    · exact (ih hagree.2 (run_diskless hdisk op) fun o ho => hc o (by simp [ho])).mp hrest
    · exact (ih (hstep.mpr hsame).2 (run_diskless hdisk op)
        fun o ho => hc o (by simp [ho])).mpr hrest

end StorageOp

/-! ## A call on which they differ -/

/-- A data directory with nothing in it. -/
def emptyDesktop : DesktopPlatform := ⟨["data".toList], Host.bare.put [] "data".toList .dir⟩

theorem node_emptyDesktop {cs : List Str} (hne : cs ≠ []) :
    emptyDesktop.host.node (emptyDesktop.root ++ cs) = none := by
  have hfree : Host.bare.node ([] ++ ["data".toList]) ≠ some .dir := by
    rw [Host.node_bare (by simp)]
    exact fun h => by cases h
  rw [emptyDesktop, Host.node_put Host.bare.root hfree, if_neg (by simpa using hne),
    Host.node_bare (by simp)]

theorem mirrors_empty : Mirrors emptyDesktop FileTree.empty where
  root := by decide +kernel
  nul := by decide
  inside hne h := by rw [node_emptyDesktop hne] at h; cases h
  directories := by
    refine ⟨fun h => (by cases h), ?_⟩
    rintro ⟨cs, hne, -, h⟩
    rw [node_emptyDesktop hne] at h
    cases h
  files := by
    refine ⟨fun h => (by cases h), ?_⟩
    rintro ⟨cs, hne, -, h⟩
    rw [node_emptyDesktop hne] at h
    cases h

/-- The directories of the layout, and two files. -/
def furnishing : List StorageOp :=
  Vfs.layout.map .createDirAll ++
    [.write "user/a".toList [1], .write "user/b".toList [2]]

def furnishedDesktop : DesktopPlatform :=
  (runFrom StorageOp.runBoth (emptyDesktop, diskless FileTree.empty []) furnishing).1

def furnishedMachine : BareMetalPlatform NoDisk Keyboard :=
  (runFrom StorageOp.runBoth (emptyDesktop, diskless FileTree.empty []) furnishing).2

theorem mirrors_furnished :
    Mirrors furnishedDesktop furnishedMachine.tree ∧ furnishedMachine.persistence = none := by
  have hcalls : ∀ op ∈ furnishing, op.renames = false ∧ ∀ q ∈ op.paths, Canonical q := by decide
  rw [furnishedDesktop, furnishedMachine]
  refine StorageOp.mirrors_run (Along.of_mem (fun op hop s => ?_) _) mirrors_empty rfl
  exact ⟨StorageOp.not_differs_of_renames (hcalls op hop).1, (hcalls op hop).2⟩

namespace StorageOp

/-- Of two files, the desktop renames the one to the other and the bare machine refuses. -/
theorem rename_replaces_on_desktop :
    Mirrors furnishedDesktop furnishedMachine.tree ∧ furnishedMachine.tree.HasLayout ∧
      furnishedMachine.persistence = none ∧ Canonical "user/a".toList ∧ Canonical "user/b".toList ∧
      ((rename "user/a".toList "user/b".toList).onDesktop furnishedDesktop).1 = .ok () ∧
      ((rename "user/a".toList "user/b".toList).run furnishedMachine).1 =
        .error (.alreadyExists "user/b".toList) ∧
      ¬ (rename "user/a".toList "user/b".toList).Agrees furnishedDesktop furnishedMachine := by
  obtain ⟨hm, hdisk⟩ := mirrors_furnished
  have ha : furnishedMachine.tree.files.contains "user/a".toList = true := by decide +kernel
  have hb : furnishedMachine.tree.files.contains "user/b".toList = true := by decide +kernel
  have hex : furnishedMachine.tree.existsAt "user/b".toList = true := by decide +kernel
  have hlayout : ∀ q ∈ Vfs.layout, furnishedMachine.tree.directories.contains q = true := by
    decide +kernel
  have hca : Canonical "user/a".toList := by decide
  have hcb : Canonical "user/b".toList := by decide
  have hne : "user/a".toList ≠ "user/b".toList := by decide
  have hr : Replaces furnishedMachine.tree "user/a".toList "user/b".toList :=
    ⟨hne, hm.wellFormed.not_below_file (by decide) ha hex, Or.inl ⟨ha, hb⟩⟩
  have hdesk : ((rename "user/a".toList "user/b".toList).onDesktop furnishedDesktop).1 = .ok () :=
    ((onDesktop_rename_existing hm hca hcb hne hex).resolve_right fun h => h.1 hr).2
  have hbare := run_rename_of_existing hne hex
  refine ⟨hm, hlayout, hdisk, hca, hcb, hdesk, congrArg Prod.fst hbare, ?_⟩
  rintro ⟨hok, -⟩
  rw [hdesk, hbare] at hok
  cases hok

/-- A file is moved to another directory and what is left is removed. -/
theorem moved_file_agrees :
    Along runBoth (fun s op => op.Agrees s.1 s.2) (furnishedDesktop, furnishedMachine)
      [rename "user/a".toList "apps/c".toList, remove "user/b".toList,
        write "user/saves/x/y".toList [3]] := by
  have hsource : furnishedMachine.tree.existsAt "user/a".toList = true := by decide +kernel
  have htarget : furnishedMachine.tree.existsAt "apps/c".toList = false := by decide +kernel
  have hfile : furnishedMachine.tree.directories.contains "user/a".toList = false := by
    decide +kernel
  obtain ⟨hf, hd⟩ := FileTree.existsAt_eq_false_iff.mp htarget
  have hno : ¬ (rename "user/a".toList "apps/c".toList).Differs furnishedMachine.tree := by
    rintro (⟨heq, -⟩ | ⟨-, -, ⟨-, h⟩ | ⟨-, h, -⟩⟩ | ⟨h, -⟩ | h)
    · exact absurd heq (by decide)
    · rw [hf] at h; cases h
    · rw [hd] at h; cases h
    · rw [hfile] at h; cases h
    · rw [h.2.1] at hsource; cases hsource
  have hc : ∀ op ∈ [rename "user/a".toList "apps/c".toList, remove "user/b".toList,
      write "user/saves/x/y".toList [3]], ∀ q ∈ op.paths, Canonical q := by decide
  exact (backends_agree_iff mirrors_furnished.1
    mirrors_furnished.2 _ hc).mpr
    ⟨hno, not_differs_of_renames rfl, not_differs_of_renames rfl, trivial⟩

end StorageOp

end Afos
