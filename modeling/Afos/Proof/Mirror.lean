import Afos.Desktop
import Afos.Lib.Confined
import Afos.Proof.Containment
import Afos.Proof.Path

/-!
# A tree, and the same tree on a host

`Mirrors` relates the two storage backends: below the desktop platform's root there are just the
directories and files of the bare-metal platform's tree, and no links. A path of the tree is the
names from the root down, joined by slashes. Each change of a tree that a storage call makes has its
counterpart on the host, and the relation is kept by making both.
-/

set_option autoImplicit false

namespace Afos

open Lib

/-- A relative path as the filesystem hands it to a platform. -/
def Canonical (q : Str) : Prop := ∃ cs, cs ≠ [] ∧ (∀ c ∈ cs, Plain c) ∧ q = join cs

theorem canonical_iff {q : Str} :
    Canonical q ↔ names q ≠ [] ∧ (∀ c ∈ names q, Plain c) ∧ q = join (names q) := by
  constructor
  · rintro ⟨cs, hne, hp, rfl⟩
    rw [names_join (isName_of_plain hp)]
    exact ⟨hne, hp, rfl⟩
  · rintro ⟨hne, hp, hq⟩
    exact ⟨names q, hne, hp, hq⟩

instance (q : Str) : Decidable (Canonical q) := decidable_of_iff' _ canonical_iff

/-- Below the root of the desktop platform there is what the tree has, and nothing else: no links, no names with a
    slash in them, and the root itself is a directory. What there is outside of the root is not said, so a step that
    leaves it alone there keeps the relation. -/
structure Mirrors (P : DesktopPlatform) (t : FileTree) : Prop where
  root : P.host.node P.root = some .dir
  nul : HostPath.hasNul ⟨P.root, .plain⟩ = false
  inside : ∀ {cs n}, cs ≠ [] → P.host.node (P.root ++ cs) = some n →
    (∀ c ∈ cs, IsName c) ∧ n.isLink = false
  directories : ∀ {p}, t.directories.contains p = true ↔
    ∃ cs, cs ≠ [] ∧ p = join cs ∧ P.host.node (P.root ++ cs) = some .dir
  files : ∀ {p data}, t.files.lookup p = some data ↔
    ∃ cs, cs ≠ [] ∧ p = join cs ∧ P.host.node (P.root ++ cs) = some (.file data)

namespace Mirrors

variable {P : DesktopPlatform} {t : FileTree} (hm : Mirrors P t) {cs : List Str}
include hm

section Lookup

variable (hne : cs ≠ []) (hn : ∀ c ∈ cs, IsName c)
include hne hn

theorem directory_iff :
    t.directories.contains (join cs) = true ↔ P.host.node (P.root ++ cs) = some .dir := by
  rw [hm.directories]
  constructor
  · rintro ⟨cs', hne', heq, hd⟩
    rw [join_injective hn (hm.inside hne' hd).1 heq]
    exact hd
  · exact fun hd => ⟨cs, hne, rfl, hd⟩

theorem file_iff {data : Bytes} :
    t.files.lookup (join cs) = some data ↔ P.host.node (P.root ++ cs) = some (.file data) := by
  rw [hm.files]
  constructor
  · rintro ⟨cs', hne', heq, hd⟩
    rw [join_injective hn (hm.inside hne' hd).1 heq]
    exact hd
  · exact fun hd => ⟨cs, hne, rfl, hd⟩

theorem contains_file_iff :
    t.files.contains (join cs) = true ↔ ∃ data, P.host.node (P.root ++ cs) = some (.file data) := by
  rw [OrdMap.contains_iff]
  exact exists_congr fun data => hm.file_iff hne hn

theorem existsAt_iff : t.existsAt (join cs) = true ↔ ∃ n, P.host.node (P.root ++ cs) = some n := by
  rw [FileTree.existsAt_iff, hm.contains_file_iff hne hn, hm.directory_iff hne hn]
  constructor
  · rintro (⟨data, h⟩ | h)
    · exact ⟨_, h⟩
    · exact ⟨_, h⟩
  · rintro ⟨n, h⟩
    cases n with
    | file data => exact Or.inl ⟨data, h⟩
    | dir => exact Or.inr h
    | link target => cases (hm.inside hne h).2

theorem node_eq_none_iff : P.host.node (P.root ++ cs) = none ↔ t.existsAt (join cs) = false := by
  rw [← Bool.not_eq_true, hm.existsAt_iff hne hn, Option.eq_none_iff_forall_ne_some]
  exact ⟨fun h ⟨n, hn⟩ => h n hn, fun h n hn => h ⟨n, hn⟩⟩

end Lookup

/-- A host mirrors one tree only, so that what two calls have done to the tree can be compared on the host. -/
theorem unique {t' : FileTree} (hm' : Mirrors P t') : t = t' := by
  have hf : t.files = t'.files := by
    refine OrdMap.ext_lookup fun k => Option.ext fun v => ?_
    rw [hm.files, hm'.files]
  have hd : t.directories = t'.directories := by
    refine OrdMap.ext_lookup fun k => Option.ext fun v => ?_
    have hk : t.directories.contains k = true ↔ t'.directories.contains k = true := by
      rw [hm.directories, hm'.directories]
    rw [OrdMap.contains_iff, OrdMap.contains_iff] at hk
    exact ⟨fun hv => (hk.mp ⟨v, hv⟩).elim fun _ hx => hx, fun hv => (hk.mpr ⟨v, hv⟩).elim fun _ hx => hx⟩
  cases t
  cases t'
  simp only [FileTree.mk.injEq]
  exact ⟨hf, hd⟩

/-- A path in the tree is that of something on the host. -/
theorem exists_names {q : Str} (hq : t.existsAt q = true) :
    ∃ cs n, cs ≠ [] ∧ q = join cs ∧ P.host.node (P.root ++ cs) = some n := by
  rcases FileTree.existsAt_iff.mp hq with hf | hd
  · obtain ⟨data, hl⟩ := OrdMap.contains_iff.mp hf
    obtain ⟨cs, hne, heq, hn⟩ := hm.files.mp hl
    exact ⟨cs, _, hne, heq, hn⟩
  · obtain ⟨cs, hne, heq, hn⟩ := hm.directories.mp hd
    exact ⟨cs, _, hne, heq, hn⟩

/-- A tree that is on a host is a hierarchy, because a host is one. -/
theorem wellFormed : t.WellFormed where
  disjoint {p} hf := by
    obtain ⟨data, hl⟩ := OrdMap.contains_iff.mp hf
    obtain ⟨cs, hne, rfl, hfile⟩ := hm.files.mp hl
    refine Bool.eq_false_iff.mpr fun hd => ?_
    rw [hm.directory_iff hne (hm.inside hne hfile).1, hfile] at hd
    cases hd
  parents {p q} hq hp hb := by
    obtain ⟨cs, n, hne, rfl, hn⟩ := hm.exists_names hq
    obtain ⟨a, b, ha, rfl, rfl⟩ := (leads_join_iff (hm.inside hne hn).1).mp ⟨hp, Or.inr hb⟩
    have hb' : b ≠ [] := by
      rintro rfl
      rw [List.append_nil] at hb
      exact hb.ne rfl
    rw [← List.append_assoc] at hn
    exact hm.directories.mpr ⟨a, ha, rfl, P.host.node_above hb' hn⟩

end Mirrors

/-! ## Directories -/

/-- The directories from `root` down to `ps` are there, and everything else is as it was. It is what
    `create_dir_all` of the host leaves when it succeeds, and the counterpart of `Entered` on a tree. -/
def Dug (root ps : List Str) (h h' : Host) : Prop :=
  ∀ q, h'.node q = if root <+: q ∧ q <+: root ++ ps then some .dir else h.node q

namespace Dug

variable {root ps : List Str} {h h' : Host}

theorem node_append (hdug : Dug root ps h h') (cs : List Str) :
    h'.node (root ++ cs) = if cs <+: ps then some .dir else h.node (root ++ cs) := by
  rw [hdug]
  refine if_congr ⟨fun hq => ?_, fun hq => ⟨List.prefix_append _ _, ?_⟩⟩ rfl rfl
  · exact (List.prefix_append_right_inj root).mp hq.2
  · exact (List.prefix_append_right_inj root).mpr hq

/-- Where they all were there, nothing has changed. -/
theorem eq_self (hdug : Dug root ps h h') (hd : h.node (root ++ ps) = some .dir) : h' = h := by
  refine Host.ext_node fun q => ?_
  rw [hdug]
  split
  case isFalse => rfl
  case isTrue hq => rw [h.node_of_prefix hq.2 hd]

/-- Digging further. -/
theorem trans {h'' : Host} {c : Str} (hdug : Dug root ps h h') (hdug' : Dug root (ps ++ [c]) h' h'') :
    Dug root (ps ++ [c]) h h'' := by
  intro q
  rw [hdug' q]
  split
  case isTrue => rfl
  case isFalse hq =>
    rw [hdug q, if_neg]
    rintro ⟨hle, hge⟩
    refine hq ⟨hle, hge.trans ?_⟩
    rw [← List.append_assoc]
    exact List.prefix_append _ _

end Dug

namespace Mirrors

variable {P : DesktopPlatform} {t t' : FileTree} (hm : Mirrors P t) {ps : List Str} {h' : Host}
include hm

/-- Entering directories in the tree, and digging them on the host. Both change nothing at a path that is not on the
    way; on the way, `Entered` says that there was no file, and `Dug` that there is a directory now. -/
theorem entered (hps : ∀ c ∈ ps, IsName c) (he : FileTree.Entered t (join ps) t')
    (hdug : Dug P.root ps P.host h') : Mirrors { P with host := h' } t' where
  root := by
    have hroot := hdug.node_append []
    rw [if_pos List.nil_prefix, List.append_nil] at hroot
    exact hroot
  nul := hm.nul
  inside {cs n} hne hn := by
    have hn' : h'.node (P.root ++ cs) = some n := hn
    rw [hdug.node_append] at hn'
    split at hn'
    case isTrue hle => exact ⟨fun c hc => hps c (hle.subset hc), by cases hn'; rfl⟩
    case isFalse => exact hm.inside hne hn'
  directories {p} := by
    rw [he.directories, leads_join_iff hps]
    constructor
    · rintro (hd | ⟨a, b, ha, rfl, rfl⟩)
      · obtain ⟨cs, hne, rfl, hn⟩ := hm.directories.mp hd
        refine ⟨cs, hne, rfl, ?_⟩
        show h'.node (P.root ++ cs) = _
        rw [hdug.node_append, hn, ite_self]
      · refine ⟨a, ha, rfl, ?_⟩
        show h'.node (P.root ++ a) = _
        rw [hdug.node_append, if_pos (List.prefix_append a b)]
    · rintro ⟨cs, hne, rfl, hn⟩
      have hn' : h'.node (P.root ++ cs) = some .dir := hn
      rw [hdug.node_append] at hn'
      split at hn'
      case isTrue hle =>
        obtain ⟨b, rfl⟩ := hle
        exact Or.inr ⟨cs, b, hne, rfl, rfl⟩
      case isFalse => exact Or.inl (hm.directories.mpr ⟨cs, hne, rfl, hn'⟩)
  files {p data} := by
    rw [he.files, hm.files]
    refine exists_congr fun cs => and_congr_right fun hne => and_congr_right fun hp => ?_
    show _ ↔ h'.node (P.root ++ cs) = _
    rw [hdug.node_append]
    split
    case isFalse => exact Iff.rfl
    case isTrue hle =>
      -- no file is in the way of what was entered
      refine ⟨fun hf => ?_, fun hf => by cases hf⟩
      obtain ⟨b, rfl⟩ := hle
      have hfree := he.clear ((leads_join_iff hps).mpr ⟨cs, b, hne, rfl, rfl⟩)
      rw [(hm.contains_file_iff hne (hm.inside hne hf).1).mpr ⟨data, hf⟩] at hfree
      cases hfree

/-- The ways down a path: to a directory, to a missing name, or to a file. There are no others, as there are no
    links. -/
theorem dig (ps : List Str) :
    P.host.node (P.root ++ ps) = some .dir ∨
      (∃ a c post, ps = a ++ c :: post ∧ P.host.node (P.root ++ a) = some .dir ∧
        P.host.node (P.root ++ a ++ [c]) = none) ∨
      ∃ a b data, a ≠ [] ∧ ps = a ++ b ∧ P.host.node (P.root ++ a) = some (.file data) := by
  induction ps using List.reverseRecOn with
  | nil => exact Or.inl (by rw [List.append_nil]; exact hm.root)
  | append_singleton ps x ih =>
    rcases ih with hd | ⟨a, c, post, rfl, ha, hc⟩ | ⟨a, b, data, ha, rfl, hf⟩
    · cases hn : P.host.node (P.root ++ (ps ++ [x])) with
      | none => exact Or.inr (Or.inl ⟨ps, x, [], rfl, hd, by rw [List.append_assoc, hn]⟩)
      | some n =>
        cases n with
        | dir => exact Or.inl rfl
        | file data => exact Or.inr (Or.inr ⟨ps ++ [x], [], data, by simp, by simp, hn⟩)
        | link target => cases (hm.inside (by simp) hn).2
    · exact Or.inr (Or.inl ⟨a, c, post ++ [x], by simp, ha, hc⟩)
    · exact Or.inr (Or.inr ⟨a, b ++ [x], data, ha, by simp, hf⟩)

variable (hnul : HostPath.hasNul ⟨P.root ++ ps, .plain⟩ = false)
include hnul

/-- Where no file is in the way, the directories are made. Either they all are there, or the way stops at the first
    that is not, and that one and those below it are put in. -/
theorem createDirAll_dug
    (hclear : ∀ a b, a ≠ [] → ps = a ++ b → ∀ data, P.host.node (P.root ++ a) ≠ some (.file data)) :
    ∃ h', Host.createDirAll ⟨P.root ++ ps, .plain⟩ P.host = (.ok (), h') ∧
      Dug P.root ps P.host h' := by
  have hcr : P.host.Created (P.root ++ ps) (Host.createDirAll ⟨P.root ++ ps, .plain⟩ P.host) :=
    Host.createDirAll_created hnul
  generalize Host.createDirAll ⟨P.root ++ ps, .plain⟩ P.host = out at hcr
  -- the host's own account of the call (`Created`) has the same three cases, and they have to agree
  rcases hm.dig ps with hd | ⟨a, c, post, rfl, ha, hc⟩ | ⟨a, b, data, ha, hps, hf⟩
  · have hr := Host.resolve_real hd rfl
    cases hcr with
    | there d hr' hd' =>
      refine ⟨P.host, rfl, fun q => ?_⟩
      split
      case isFalse => rfl
      case isTrue hq => rw [P.host.node_of_prefix hq.2 hd]
    | made d c post hs => rw [hs.resolve_eq] at hr; cases hr
    | failed e hdir hs => exact absurd hd (hdir _ hr)
  · have hst : P.host.StopsAt (P.root ++ (a ++ c :: post)) (P.root ++ a) c post :=
      ⟨P.root ++ a, by simp, Host.resolve_real ha rfl, ha, hc⟩
    cases hcr with
    | there d hr' hd' => rw [hst.resolve_eq] at hr'; cases hr'
    | made d c' post' hs =>
      obtain ⟨rfl, rfl, rfl⟩ := hs.unique hst
      refine ⟨_, rfl, fun q => ?_⟩
      rw [Host.node_putDirs ha hc, ← List.append_assoc]
      by_cases hq : P.root <+: q ∧ q <+: P.root ++ a ++ c' :: post'
      · rw [if_pos hq]
        split
        case isTrue => rfl
        case isFalse hnot =>
          -- not among those made, so above them
          have hle : q <+: P.root ++ a := by
            have hlast : P.root ++ a ++ [c'] <+: P.root ++ a ++ c' :: post' := ⟨post', by simp⟩
            rcases List.prefix_or_prefix_of_prefix hq.2 hlast with hle | hle
            · rcases List.prefix_concat_iff.mp hle with heq | hle
              · exact absurd ⟨heq ▸ List.prefix_refl _, hq.2⟩ hnot
              · exact hle
            · exact absurd ⟨hle, hq.2⟩ hnot
          exact P.host.node_of_prefix hle ha
      · rw [if_neg hq, if_neg]
        rintro ⟨hle, hge⟩
        refine hq ⟨List.IsPrefix.trans ?_ hle, hge⟩
        rw [List.append_assoc]
        exact List.prefix_append _ _
    | failed e hdir hs => exact absurd hst (hs _ _ _)
  · exact absurd hf (hclear a b ha hps data)

omit hm in
/-- Where a file is in the way, the call fails and leaves the host as it was. -/
theorem createDirAll_blocked {a b : List Str} {data : Bytes} (hps : ps = a ++ b)
    (hf : P.host.node (P.root ++ a) = some (.file data)) :
    ∃ e, Host.createDirAll ⟨P.root ++ ps, .plain⟩ P.host = (.error e, P.host) := by
  have hcr : P.host.Created (P.root ++ ps) (Host.createDirAll ⟨P.root ++ ps, .plain⟩ P.host) :=
    Host.createDirAll_created hnul
  generalize Host.createDirAll ⟨P.root ++ ps, .plain⟩ P.host = out at hcr
  have hra := Host.resolve_real hf rfl
  have hnot : P.host.node (P.root ++ a) ≠ some .dir := by rw [hf]; exact fun h => by cases h
  have hr : P.host.resolve ((P.root ++ ps).map .name) = .ok (P.root ++ a) ∨
      P.host.resolve ((P.root ++ ps).map .name) = .error .notDirectory := by
    rw [hps, ← List.append_assoc]
    cases b with
    | nil => rw [List.append_nil]; exact Or.inl hra
    | cons x b => rw [List.map_append]; exact Or.inr (Host.resolve_append_not_dir hra hnot _ _)
  cases hcr with
  | there d hr' hd' =>
    rw [hr'] at hr
    rcases hr with hr | hr
    · rw [Except.ok.inj hr] at hd'; exact absurd hd' hnot
    · cases hr
  | made d c post hs =>
    rw [hs.resolve_eq] at hr
    rcases hr with hr | hr <;> cases hr
  | failed e hdir hs => exact ⟨e, rfl⟩

end Mirrors

/-! ## Files and subtrees -/

theorem at_join_iff {a b : List Str} (ha : ∀ c ∈ a, IsName c) (hb : ∀ c ∈ b, IsName c) (hne : a ≠ []) :
    FileTree.At (join a) (join b) ↔ a <+: b := by
  rw [FileTree.At, below_join_iff ha hb hne]
  constructor
  · rintro (heq | ⟨d, -, rfl⟩)
    · rw [join_injective hb ha heq]
    · exact List.prefix_append a d
  · rintro ⟨d, rfl⟩
    cases d with
    | nil => exact Or.inl (by rw [List.append_nil])
    | cons x d => exact Or.inr ⟨x :: d, by simp, rfl⟩

theorem rebased_join {ss ts : List Str} (hs : ss ≠ []) (ht : ts ≠ []) (r : List Str) :
    rebased (join (ss ++ r)) (join ss) (join ts) = join (ts ++ r) := by
  cases r with
  | nil =>
    rw [List.append_nil, List.append_nil]
    have h := FileTree.rebased_append (join ss) (join ts) []
    rwa [List.append_nil, List.append_nil] at h
  | cons x r =>
    rw [join_append hs (by simp), FileTree.rebased_append, join_append ht (by simp)]

namespace Mirrors

variable {P : DesktopPlatform} {t : FileTree} (hm : Mirrors P t)
include hm

/-- A file is written into a directory that is there, in place of a file or of nothing. -/
theorem insertFile {ps : List Str} {c : Str} (hn : ∀ x ∈ ps ++ [c], IsName x)
    (hd : P.host.node (P.root ++ ps) = some .dir)
    (hfree : P.host.node (P.root ++ ps ++ [c]) ≠ some .dir) (data : Bytes) :
    Mirrors { P with host := P.host.put (P.root ++ ps) c (.file data) }
      (t.insertFile (join (ps ++ [c])) data) := by
  -- one path below the root has changed, and the four fields are read off from that
  have hnode : ∀ cs, (P.host.put (P.root ++ ps) c (.file data)).node (P.root ++ cs) =
      if cs = ps ++ [c] then some (.file data) else P.host.node (P.root ++ cs) := by
    intro cs
    rw [Host.node_put hd hfree, List.append_assoc]
    exact if_congr (List.append_cancel_left_eq ..).to_iff rfl rfl
  refine ⟨?_, hm.nul, ?_, ?_, ?_⟩
  · have hroot := hnode []
    rw [if_neg (by simp), List.append_nil, hm.root] at hroot
    exact hroot
  · intro cs n hne hcs
    have hcs' : (P.host.put (P.root ++ ps) c (.file data)).node (P.root ++ cs) = some n := hcs
    rw [hnode] at hcs'
    split at hcs'
    case isTrue heq => exact ⟨heq ▸ hn, by cases hcs'; rfl⟩
    case isFalse => exact hm.inside hne hcs'
  · intro p
    show t.directories.contains p = true ↔ ∃ cs, cs ≠ [] ∧ p = join cs ∧
      (P.host.put (P.root ++ ps) c (.file data)).node (P.root ++ cs) = some .dir
    rw [hm.directories]
    refine exists_congr fun cs => and_congr_right fun _ => and_congr_right fun _ => ?_
    rw [hnode]
    split
    case isFalse => exact Iff.rfl
    case isTrue heq =>
      rw [List.append_assoc, ← heq] at hfree
      exact ⟨fun hdir => absurd hdir hfree, fun hdir => by cases hdir⟩
  · intro p bytes
    show (t.files.insert (join (ps ++ [c])) data).lookup p = some bytes ↔ ∃ cs, cs ≠ [] ∧
      p = join cs ∧ (P.host.put (P.root ++ ps) c (.file data)).node (P.root ++ cs) = some (.file bytes)
    rw [OrdMap.lookup_insert]
    split
    case isTrue heq =>
      constructor
      · rintro hb
        refine ⟨ps ++ [c], by simp, heq.symm, ?_⟩
        rw [hnode, if_pos rfl, ← Option.some.inj hb]
      · rintro ⟨cs, hne, hp, hf⟩
        rw [hnode] at hf
        split at hf
        case isTrue => cases hf; rfl
        case isFalse hcs =>
          exact absurd (join_injective (hm.inside hne hf).1 hn (hp.symm.trans heq.symm)) hcs
    case isFalse heq =>
      rw [hm.files]
      refine exists_congr fun cs => and_congr_right fun _ => and_congr_right fun hp => ?_
      rw [hnode, if_neg]
      rintro rfl
      exact heq hp.symm

section Remove

variable {cs : List Str} (hne : cs ≠ []) (hn : ∀ c ∈ cs, IsName c)
include hne

omit hm in
theorem node_prune_append (ds : List Str) :
    (P.host.prune (P.root ++ cs)).node (P.root ++ ds) =
      if cs <+: ds then none else P.host.node (P.root ++ ds) := by
  rw [Host.node_prune (by simp [hne])]
  exact if_congr (List.prefix_append_right_inj P.root) rfl rfl

/-- What is left of the host's side when something is taken away. -/
theorem pruned_inside :
    (P.host.prune (P.root ++ cs)).node P.root = some .dir ∧
      ∀ ds n, ds ≠ [] → (P.host.prune (P.root ++ cs)).node (P.root ++ ds) = some n →
        (∀ c ∈ ds, IsName c) ∧ n.isLink = false := by
  constructor
  · have hroot := node_prune_append hne (P := P) []
    rw [List.append_nil, if_neg (by simpa using hne), hm.root] at hroot
    exact hroot
  · intro ds n hds hnode
    rw [node_prune_append hne] at hnode
    split at hnode
    case isTrue => cases hnode
    case isFalse => exact hm.inside hds hnode

include hn

/-- A directory goes with all that is below it, on both sides. The tree drops the paths that begin with it and a slash,
    the host those whose names begin with its names. -/
theorem removeSubtree (hd : P.host.node (P.root ++ cs) = some .dir) :
    Mirrors { P with host := P.host.prune (P.root ++ cs) } (t.removeSubtree (join cs)) := by
  refine ⟨(hm.pruned_inside hne).1, hm.nul, fun {ds n} => (hm.pruned_inside hne).2 ds n, ?_, ?_⟩
  · intro p
    show _ ↔ ∃ ds, ds ≠ [] ∧ p = join ds ∧
      (P.host.prune (P.root ++ cs)).node (P.root ++ ds) = some .dir
    rw [FileTree.contains_removeSubtree_directories, hm.directories]
    constructor
    · rintro ⟨⟨ds, hds, rfl, hdir⟩, hat⟩
      refine ⟨ds, hds, rfl, ?_⟩
      rw [node_prune_append hne, if_neg, hdir]
      exact fun hle => hat ((at_join_iff hn (hm.inside hds hdir).1 hne).mpr hle)
    · rintro ⟨ds, hds, rfl, hdir⟩
      rw [node_prune_append hne] at hdir
      split at hdir
      case isTrue => cases hdir
      case isFalse hle =>
        exact ⟨⟨ds, hds, rfl, hdir⟩,
          fun hat => hle ((at_join_iff hn (hm.inside hds hdir).1 hne).mp hat)⟩
  · intro p bytes
    show (t.files.retain fun name _ => !startsWith (join cs ++ ['/']) name).lookup p = some bytes ↔
      ∃ ds, ds ≠ [] ∧ p = join ds ∧
        (P.host.prune (P.root ++ cs)).node (P.root ++ ds) = some (.file bytes)
    rw [OrdMap.lookup_retain, Option.filter_eq_some_iff, hm.files, Bool.not_eq_true',
      Bool.eq_false_iff, ne_eq, FileTree.startsWith_slash_iff]
    constructor
    · rintro ⟨⟨ds, hds, rfl, hf⟩, hb⟩
      refine ⟨ds, hds, rfl, ?_⟩
      rw [node_prune_append hne, if_neg, hf]
      intro hle
      rcases (at_join_iff hn (hm.inside hds hf).1 hne).mpr hle with heq | hbelow
      · rw [join_injective (hm.inside hds hf).1 hn heq, hd] at hf
        cases hf
      · exact hb hbelow
    · rintro ⟨ds, hds, rfl, hf⟩
      rw [node_prune_append hne] at hf
      split at hf
      case isTrue => cases hf
      case isFalse hle =>
        exact ⟨⟨ds, hds, rfl, hf⟩,
          fun hb => hle ((at_join_iff hn (hm.inside hds hf).1 hne).mp (Or.inr hb))⟩

/-- A file is removed. The host prunes at its path, which takes away no more than the file. -/
theorem removeFile {data : Bytes} (hf : P.host.node (P.root ++ cs) = some (.file data)) :
    Mirrors { P with host := P.host.prune (P.root ++ cs) } (t.removeFile (join cs)) := by
  -- nothing is below a file
  have hbelow : ∀ ds n, P.host.node (P.root ++ ds) = some n → cs <+: ds → ds = cs := by
    rintro _ n hds ⟨r, rfl⟩
    cases r with
    | nil => rw [List.append_nil]
    | cons x r =>
      rw [← List.append_assoc,
        P.host.node_below (by rw [hf]; exact fun h => by cases h) (by simp)] at hds
      cases hds
  refine ⟨(hm.pruned_inside hne).1, hm.nul, fun {ds n} => (hm.pruned_inside hne).2 ds n, ?_, ?_⟩
  · intro p
    show t.directories.contains p = true ↔ ∃ ds, ds ≠ [] ∧ p = join ds ∧
      (P.host.prune (P.root ++ cs)).node (P.root ++ ds) = some .dir
    rw [hm.directories]
    refine exists_congr fun ds => and_congr_right fun _ => and_congr_right fun _ => ?_
    rw [node_prune_append hne]
    split
    case isFalse => exact Iff.rfl
    case isTrue hle =>
      refine ⟨fun hd => ?_, fun hd => by cases hd⟩
      rw [hbelow ds _ hd hle, hf] at hd
      cases hd
  · intro p bytes
    show (t.files.remove (join cs)).lookup p = some bytes ↔ ∃ ds, ds ≠ [] ∧ p = join ds ∧
      (P.host.prune (P.root ++ cs)).node (P.root ++ ds) = some (.file bytes)
    rw [OrdMap.lookup_remove]
    split
    case isTrue heq =>
      refine ⟨fun hb => (by cases hb), ?_⟩
      rintro ⟨ds, hds, rfl, hfile⟩
      rw [node_prune_append hne] at hfile
      split at hfile
      case isTrue => cases hfile
      case isFalse hle =>
        exact absurd (join_injective hn (hm.inside hds hfile).1 heq ▸ List.prefix_refl _) hle
    case isFalse heq =>
      rw [hm.files]
      refine exists_congr fun ds => and_congr_right fun _ => and_congr_right fun hp => ?_
      rw [node_prune_append hne]
      split
      case isFalse => exact Iff.rfl
      case isTrue hle =>
        refine ⟨fun hfile => ?_, fun hfile => by cases hfile⟩
        rw [hbelow ds _ hfile hle] at hp
        exact absurd hp.symm heq

end Remove

section Move

variable {ss tp : List Str} {c : Str} (hss : ∀ x ∈ ss, IsName x) (hne : ss ≠ [])
  (hts : ∀ x ∈ tp ++ [c], IsName x) (hd : P.host.node (P.root ++ tp) = some .dir)
  (hfree : P.host.node (P.root ++ (tp ++ [c])) = none) (hout : ¬ ss <+: tp ++ [c]) {n : Inode}
  (hsrc : P.host.node (P.root ++ ss) = some n)

include hfree

omit hm in
/-- Nothing is at or below a path that is free. -/
theorem not_prefix_of_free {ds : List Str} {k : Inode} (hk : P.host.node (P.root ++ ds) = some k) :
    ¬ tp ++ [c] <+: ds := by
  rintro ⟨r, rfl⟩
  rw [← List.append_assoc] at hk
  cases r with
  | nil => rw [List.append_nil, hfree] at hk; cases hk
  | cons x r =>
    rw [P.host.node_below (by rw [hfree]; exact fun h => by cases h) (by simp)] at hk
    cases hk

theorem existsAt_of_free (hts : ∀ x ∈ tp ++ [c], IsName x) {p : Str}
    (hp : FileTree.At (join (tp ++ [c])) p) : t.existsAt p = false := by
  refine Bool.eq_false_iff.mpr fun hex => ?_
  obtain ⟨ds, k, hds, rfl, hk⟩ := hm.exists_names hex
  exact not_prefix_of_free hfree hk ((at_join_iff hts (hm.inside hds hk).1 (by simp)).mp hp)

include hout hsrc

omit hm in
theorem apart_of_free : Host.Apart (P.root ++ ss) (P.root ++ tp ++ [c]) := by
  rw [List.append_assoc]
  refine ⟨fun hle => hout ((List.prefix_append_right_inj _).mp hle), fun hle => ?_⟩
  exact not_prefix_of_free hfree hsrc ((List.prefix_append_right_inj _).mp hle)

include hd

omit hm in
/-- The host's side after a move to a free path: below the target there is what was below the source, and elsewhere,
    except at the source, what there was. -/
theorem node_relocate_append {ds : List Str} {k : Inode} :
    (P.host.relocate (P.root ++ ss) (P.root ++ tp) c).node (P.root ++ ds) = some k ↔
      (∃ r, ds = tp ++ [c] ++ r ∧ P.host.node (P.root ++ (ss ++ r)) = some k) ∨
        ¬ ss <+: ds ∧ P.host.node (P.root ++ ds) = some k := by
  rw [Host.node_relocate (apart_of_free hfree hout hsrc) hd]
  constructor
  · rintro (⟨r, hr, hk⟩ | ⟨ht, hs, hk⟩)
    · refine Or.inl ⟨r, ?_, by rw [← List.append_assoc]; exact hk⟩
      rw [List.append_assoc, List.append_assoc] at hr
      rw [List.append_assoc]
      exact List.append_cancel_left hr
    · exact Or.inr ⟨fun hle => hs ((List.prefix_append_right_inj _).mpr hle), hk⟩
  · rintro (⟨r, rfl, hk⟩ | ⟨hs, hk⟩)
    · exact Or.inl ⟨r, by simp, by rw [List.append_assoc]; exact hk⟩
    · refine Or.inr ⟨fun hle => ?_, fun hle => hs ((List.prefix_append_right_inj _).mp hle), hk⟩
      rw [List.append_assoc] at hle
      exact not_prefix_of_free hfree hk ((List.prefix_append_right_inj _).mp hle)

include hne hts

theorem relocated_inside :
    (P.host.relocate (P.root ++ ss) (P.root ++ tp) c).node P.root = some .dir ∧
      ∀ ds k, ds ≠ [] →
        (P.host.relocate (P.root ++ ss) (P.root ++ tp) c).node (P.root ++ ds) = some k →
          (∀ x ∈ ds, IsName x) ∧ k.isLink = false := by
  constructor
  · have hroot : (P.host.relocate (P.root ++ ss) (P.root ++ tp) c).node (P.root ++ []) = some .dir := by
      refine (node_relocate_append hd hfree hout hsrc).mpr (Or.inr ⟨by simpa using hne, ?_⟩)
      rw [List.append_nil]
      exact hm.root
    rwa [List.append_nil] at hroot
  · intro ds k hds hk
    rcases (node_relocate_append hd hfree hout hsrc).mp hk with ⟨r, rfl, hold⟩ | ⟨-, hold⟩
    · obtain ⟨hnames, hl⟩ := hm.inside (by simp [hne]) hold
      refine ⟨fun x hx => ?_, hl⟩
      rcases List.mem_append.mp hx with hx | hx
      · exact hts x hx
      · exact hnames x (List.mem_append_right _ hx)
    · exact hm.inside hds hold

include hss

/-- A directory is moved with all that is below it. On the tree each path is rewritten as text (`rebased`); on the host
    the names after those of the source are put after those of the target. -/
theorem moveSubtree (hdir : n = .dir) :
    Mirrors { P with host := P.host.relocate (P.root ++ ss) (P.root ++ tp) c }
      (t.moveSubtree (join ss) (join (tp ++ [c]))) := by
  subst hdir
  obtain ⟨hroot, hinside⟩ := hm.relocated_inside hne hts hd hfree hout hsrc
  have hnone : ∀ {p}, FileTree.At (join (tp ++ [c])) p →
      t.files.contains p = false ∧ t.directories.contains p = false :=
    fun hp => FileTree.existsAt_eq_false_iff.mp (hm.existsAt_of_free hfree hts hp)
  refine ⟨hroot, hm.nul, fun {ds k} => hinside ds k, ?_, ?_⟩
  · -- a directory of the new tree was moved, or was not below the source
    intro q
    show _ ↔ ∃ ds, ds ≠ [] ∧ q = join ds ∧
      (P.host.relocate (P.root ++ ss) (P.root ++ tp) c).node (P.root ++ ds) = some .dir
    rw [FileTree.contains_moveSubtree_directories (join ss) fun hp => (hnone hp).2]
    constructor
    · rintro (⟨p, hat, hp, rfl⟩ | ⟨hat, hq⟩)
      · obtain ⟨ds, hds, rfl, hk⟩ := hm.directories.mp hp
        obtain ⟨r, rfl⟩ := (at_join_iff hss (hm.inside hds hk).1 hne).mp hat
        refine ⟨tp ++ [c] ++ r, by simp, rebased_join hne (by simp) r, ?_⟩
        exact (node_relocate_append hd hfree hout hsrc).mpr (Or.inl ⟨r, rfl, hk⟩)
      · obtain ⟨ds, hds, rfl, hk⟩ := hm.directories.mp hq
        refine ⟨ds, hds, rfl, (node_relocate_append hd hfree hout hsrc).mpr (Or.inr ⟨fun hle => ?_, hk⟩)⟩
        exact hat ((at_join_iff hss (hm.inside hds hk).1 hne).mpr hle)
    · rintro ⟨ds, hds, rfl, hk⟩
      rcases (node_relocate_append hd hfree hout hsrc).mp hk with ⟨r, rfl, hold⟩ | ⟨hle, hold⟩
      · refine Or.inl ⟨join (ss ++ r), ?_, hm.directories.mpr ⟨ss ++ r, by simp [hne], rfl, hold⟩,
          rebased_join hne (by simp) r⟩
        exact (at_join_iff hss (hm.inside (by simp [hne]) hold).1 hne).mpr (List.prefix_append ss r)
      · refine Or.inr ⟨fun hat => hle ?_, hm.directories.mpr ⟨ds, hds, rfl, hold⟩⟩
        exact (at_join_iff hss (hm.inside hds hold).1 hne).mp hat
  · -- the same for files, except that the source itself is none
    intro q bytes
    show _ ↔ ∃ ds, ds ≠ [] ∧ q = join ds ∧
      (P.host.relocate (P.root ++ ss) (P.root ++ tp) c).node (P.root ++ ds) = some (.file bytes)
    rw [FileTree.lookup_moveSubtree_files (join ss) fun hp => (hnone hp).1]
    constructor
    · rintro (⟨p, hb, hp, rfl⟩ | ⟨hb, hq⟩)
      · obtain ⟨ds, hds, rfl, hk⟩ := hm.files.mp hp
        obtain ⟨r, rfl⟩ := (at_join_iff hss (hm.inside hds hk).1 hne).mp (Or.inr hb)
        refine ⟨tp ++ [c] ++ r, by simp, rebased_join hne (by simp) r, ?_⟩
        exact (node_relocate_append hd hfree hout hsrc).mpr (Or.inl ⟨r, rfl, hk⟩)
      · obtain ⟨ds, hds, rfl, hk⟩ := hm.files.mp hq
        refine ⟨ds, hds, rfl, (node_relocate_append hd hfree hout hsrc).mpr (Or.inr ⟨fun hle => ?_, hk⟩)⟩
        rcases (at_join_iff hss (hm.inside hds hk).1 hne).mpr hle with heq | hbelow
        · rw [join_injective (hm.inside hds hk).1 hss heq, hsrc] at hk
          cases hk
        · exact hb hbelow
    · rintro ⟨ds, hds, rfl, hk⟩
      rcases (node_relocate_append hd hfree hout hsrc).mp hk with ⟨r, rfl, hold⟩ | ⟨hle, hold⟩
      · refine Or.inl ⟨join (ss ++ r), ?_, hm.files.mpr ⟨ss ++ r, by simp [hne], rfl, hold⟩,
          rebased_join hne (by simp) r⟩
        refine (below_join_iff hss (hm.inside (by simp [hne]) hold).1 hne).mpr ⟨r, ?_, rfl⟩
        rintro rfl
        rw [List.append_nil, hsrc] at hold
        cases hold
      · refine Or.inr ⟨fun hb => hle ?_, hm.files.mpr ⟨ds, hds, rfl, hold⟩⟩
        exact (at_join_iff hss (hm.inside hds hold).1 hne).mp (Or.inr hb)

/-- A file is moved: on the tree it is taken out and put in again, on the host the entry goes as it is. -/
theorem moveFile {data : Bytes} (hfile : n = .file data) :
    Mirrors { P with host := P.host.relocate (P.root ++ ss) (P.root ++ tp) c }
      ((t.removeFile (join ss)).insertFile (join (tp ++ [c])) data) := by
  subst hfile
  have hap : Host.Apart (P.root ++ ss) (P.root ++ tp ++ [c]) := apart_of_free hfree hout hsrc
  rw [Host.relocate_file hap hd hsrc (by rw [List.append_assoc]; exact hfree)]
  have hkeep : ∀ ds, ¬ ss <+: ds → (P.host.prune (P.root ++ ss)).node (P.root ++ ds) =
      P.host.node (P.root ++ ds) := fun ds hle => by rw [node_prune_append hne, if_neg hle]
  refine (hm.removeFile hne hss hsrc).insertFile hts ?_ ?_ data
  · show (P.host.prune (P.root ++ ss)).node (P.root ++ tp) = some .dir
    rw [hkeep tp fun hle => hout (hle.trans (List.prefix_append tp [c])), hd]
  · show (P.host.prune (P.root ++ ss)).node (P.root ++ tp ++ [c]) ≠ some .dir
    rw [List.append_assoc, hkeep _ hout, hfree]
    exact fun hf => by cases hf

end Move

end Mirrors

end Afos
