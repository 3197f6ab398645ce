import Afos.Lib.OrdMap
import Afos.Lib.Text

/-!
# A hierarchical file system

Files, directories and symbolic links under one root, as a map from *real* paths: a real path is
the list of names from the root down, with no link and no dot in it. That every entry lies in a
directory is a field, so nothing can be found below a file, below a link or below a name that is
not there.

There are three ways to change such a file system, and each says what it does by the entry at an
arbitrary path afterwards: `put` sets one entry of a directory, `prune` takes away an entry with
everything below it, `relocate` moves one. A change that would break the field is not made.
-/

set_option autoImplicit false

namespace Afos.Lib

/-- What an entry is. A link holds the text of the path it stands for, which need not lead anywhere. -/
inductive Inode where
  | file (data : Bytes)
  | dir
  | link (target : Str)
  deriving DecidableEq

def Inode.isLink : Inode → Bool
  | .link _ => true
  | _ => false

structure Host where
  nodes : OrdMap (List Str) Inode
  root : nodes.lookup [] = some .dir
  closed : ∀ {p c}, nodes.contains (p ++ [c]) = true → nodes.lookup p = some .dir

namespace Host

/-- The entry at a real path, one that no link is followed for. The root is the empty path. -/
def node (h : Host) (p : List Str) : Option Inode := h.nodes.lookup p

instance : DecidableEq Host := fun g h =>
  decidable_of_iff (g.nodes = h.nodes) (by cases g; cases h; simp)

theorem ext_node {g h : Host} (heq : ∀ p, g.node p = h.node p) : g = h := by
  have hn : g.nodes = h.nodes := OrdMap.ext_lookup heq
  cases g
  cases h
  simpa using hn

theorem node_parent (h : Host) {p : List Str} {c : Str} {n : Inode} (hn : h.node (p ++ [c]) = some n) :
    h.node p = some .dir := h.closed (OrdMap.contains_iff.mpr ⟨n, hn⟩)

/-- What something is below is a directory, at every height, by induction on the way down to it. -/
theorem node_above (h : Host) {p r : List Str} (hne : r ≠ []) {n : Inode}
    (hn : h.node (p ++ r) = some n) : h.node p = some .dir := by
  induction r using List.reverseRecOn generalizing n with
  | nil => exact absurd rfl hne
  | append_singleton r c ih =>
    rw [← List.append_assoc] at hn
    have hp := h.node_parent hn
    cases r with
    | nil => simpa using hp
    | cons x xs => exact ih (by simp) hp

theorem node_of_prefix (h : Host) {p q : List Str} (hle : q <+: p) (hp : h.node p = some .dir) :
    h.node q = some .dir := by
  obtain ⟨r, rfl⟩ := hle
  cases r with
  | nil => rwa [List.append_nil] at hp
  | cons c r => exact h.node_above (by simp) hp

/-- There is nothing below what is not a directory, be it a file, a link or nothing at all. -/
theorem node_below (h : Host) {p r : List Str} (hp : h.node p ≠ some .dir) (hne : r ≠ []) :
    h.node (p ++ r) = none := by
  cases hn : h.node (p ++ r) with
  | none => rfl
  | some n => exact absurd (h.node_above hne hn) hp

/-- The file system with nothing in it but its root, which every one has. -/
def bare : Host where
  nodes := OrdMap.empty.insert [] .dir
  root := by rw [OrdMap.lookup_insert, if_pos rfl]
  closed := by
    intro p c h
    rw [OrdMap.contains_insert] at h
    simp at h

theorem node_bare {p : List Str} (hp : p ≠ []) : bare.node p = none := by
  rw [node, bare, OrdMap.lookup_insert, if_neg hp.symm, OrdMap.lookup_empty]

/-! ## One entry -/

/-- Make `n` the entry `c` of the directory `d`; a directory is not overwritten. Where that cannot be done nothing is,
    so that the result is a file system in any case. -/
def put (h : Host) (d : List Str) (c : Str) (n : Inode) : Host :=
  if hc : h.node d = some .dir ∧ h.node (d ++ [c]) ≠ some .dir then
    { nodes := h.nodes.insert (d ++ [c]) n
      root := by
        rw [OrdMap.lookup_insert, if_neg (by simp)]
        exact h.root
      closed := by
        intro p x hx
        obtain ⟨m, hm⟩ := OrdMap.contains_iff.mp hx
        rw [OrdMap.lookup_insert] at hm ⊢
        by_cases heq : d ++ [c] = p ++ [x]
        · obtain ⟨rfl, -⟩ := List.append_inj' heq rfl
          rw [if_neg (by simp)]
          exact hc.1
        · rw [if_neg heq] at hm
          have hp : h.node p = some .dir := h.node_parent hm
          rw [if_neg fun hdir => hc.2 (by rw [hdir]; exact hp)]
          exact hp }
  else h

theorem node_put {h : Host} {d : List Str} {c : Str} (hd : h.node d = some .dir)
    (hfree : h.node (d ++ [c]) ≠ some .dir) (n : Inode) (p : List Str) :
    (h.put d c n).node p = if p = d ++ [c] then some n else h.node p := by
  rw [put, dif_pos ⟨hd, hfree⟩, node, OrdMap.lookup_insert]
  by_cases hp : p = d ++ [c]
  · rw [if_pos hp, if_pos hp.symm]
  · rw [if_neg hp, if_neg (Ne.symm hp)]
    rfl

/-! ## What lies below -/

/-- Take away what is at `p` and below it. The root stays: a file system without one cannot be built. -/
def prune (h : Host) (p : List Str) : Host :=
  if hp : p ≠ [] then
    { nodes := h.nodes.retain fun k _ => !p.isPrefixOf k
      root := by
        rw [OrdMap.lookup_retain, h.root]
        cases p with
        | nil => exact absurd rfl hp
        | cons c cs => rfl
      closed := by
        intro q c hq
        obtain ⟨n, hn⟩ := OrdMap.contains_iff.mp hq
        rw [OrdMap.lookup_retain, Option.filter_eq_some_iff] at hn
        have hd := h.node_parent hn.1
        rw [OrdMap.lookup_retain]
        refine Option.filter_eq_some_iff.mpr ⟨hd, ?_⟩
        rw [Bool.not_eq_true', Bool.eq_false_iff] at hn ⊢
        refine fun hpre => hn.2 ?_
        rw [List.isPrefixOf_iff_prefix] at hpre ⊢
        exact hpre.trans (List.prefix_append q [c]) }
  else h

theorem node_prune {h : Host} {p : List Str} (hp : p ≠ []) (q : List Str) :
    (h.prune p).node q = if p <+: q then none else h.node q := by
  rw [prune, dif_pos hp, node, OrdMap.lookup_retain]
  by_cases hpre : p <+: q
  · rw [if_pos hpre, List.isPrefixOf_iff_prefix.mpr hpre]
    cases h.nodes.lookup q <;> rfl
  · have hf : p.isPrefixOf q = false :=
      Bool.eq_false_iff.mpr fun ht => hpre (List.isPrefixOf_iff_prefix.mp ht)
    rw [if_neg hpre, hf]
    cases hn : h.nodes.lookup q <;> simp [node, hn]

/-- Take away everything strictly below `p`, and leave what is at `p` itself. -/
def clear (h : Host) (p : List Str) : Host where
  nodes := h.nodes.retain fun k _ => k == p || !p.isPrefixOf k
  root := by
    rw [OrdMap.lookup_retain, h.root]
    cases p <;> rfl
  closed := by
    intro q c hq
    obtain ⟨n, hn⟩ := OrdMap.contains_iff.mp hq
    rw [OrdMap.lookup_retain, Option.filter_eq_some_iff] at hn
    rw [OrdMap.lookup_retain]
    refine Option.filter_eq_some_iff.mpr ⟨h.node_parent hn.1, ?_⟩
    have hkeep := hn.2
    simp only [Bool.or_eq_true, beq_iff_eq, Bool.not_eq_true', Bool.eq_false_iff, ne_eq,
      List.isPrefixOf_iff_prefix] at hkeep ⊢
    rcases hkeep with rfl | hpre
    · exact Or.inr fun hle => by simpa using hle.length_le
    · exact Or.inr fun hle => hpre (hle.trans (List.prefix_append q [c]))

theorem node_clear (h : Host) (p q : List Str) :
    (h.clear p).node q = if p <+: q ∧ q ≠ p then none else h.node q := by
  rw [node, clear, OrdMap.lookup_retain]
  by_cases hq : p <+: q ∧ q ≠ p
  · rw [if_pos hq, List.isPrefixOf_iff_prefix.mpr hq.1, beq_eq_false_iff_ne.mpr hq.2]
    cases h.nodes.lookup q <;> rfl
  · have ht : (q == p || !p.isPrefixOf q) = true := by
      simp only [Bool.or_eq_true, beq_iff_eq, Bool.not_eq_true', Bool.eq_false_iff, ne_eq,
        List.isPrefixOf_iff_prefix]
      by_cases heq : q = p
      · exact Or.inl heq
      · exact Or.inr fun hpre => hq ⟨hpre, heq⟩
    rw [if_neg hq, ht]
    cases hn : h.nodes.lookup q <;> simp [node, hn]

/-! ## Moving -/

/-- The path of something below `source` once `source` is `target`: the rest of the path under another beginning. -/
def moved (source target p : List Str) : List Str := target ++ p.drop source.length

@[simp] theorem moved_append (source target r : List Str) :
    moved source target (source ++ r) = target ++ r := by
  rw [moved, List.drop_left]

/-- The entries with those at and below `source` under `target`, in place of what was there. What is neither at nor
    below one of the two is as it was. -/
def relocated (h : Host) (source target : List Str) : OrdMap (List Str) Inode :=
  let kept := h.nodes.retain fun k _ => !target.isPrefixOf k
  (kept.entries.filter fun e => source.isPrefixOf e.1).foldl (OrdMap.rekey (moved source target)) kept

/-- Neither path leads to the other. Moving one to the other is only done then, since a directory cannot be moved into
    itself. -/
def Apart (p q : List Str) : Prop := ¬ p <+: q ∧ ¬ q <+: p

instance (p q : List Str) : Decidable (Apart p q) :=
  decidable_of_iff ((!p.isPrefixOf q && !q.isPrefixOf p) = true) (by
    simp [Apart, Bool.eq_false_iff, List.isPrefixOf_iff_prefix])

theorem Apart.not_prefix_append {p q : List Str} (h : Apart p q) (r : List Str) : ¬ p <+: q ++ r := by
  intro hp
  rcases List.prefix_or_prefix_of_prefix hp (List.prefix_append q r) with hle | hle
  · exact h.1 hle
  · exact h.2 hle

theorem Apart.symm {p q : List Str} (h : Apart p q) : Apart q p := ⟨h.2, h.1⟩

theorem lookup_relocated (h : Host) {source target : List Str} (hap : Apart source target)
    {j : List Str} {v : Inode} :
    (h.relocated source target).lookup j = some v ↔
      (∃ r, j = target ++ r ∧ h.node (source ++ r) = some v) ∨
        ¬ target <+: j ∧ ¬ source <+: j ∧ h.node j = some v := by
  -- what was at or below the target is gone first, and that is nothing of the source's
  have hkept : ∀ {k n}, (h.nodes.retain fun k _ => !target.isPrefixOf k).lookup k = some n ↔
      h.node k = some n ∧ ¬ target <+: k := by
    intro k n
    rw [OrdMap.lookup_retain, Option.filter_eq_some_iff, Bool.not_eq_true', Bool.eq_false_iff, ne_eq,
      List.isPrefixOf_iff_prefix]
    exact Iff.rfl
  have hsel : ∀ {e : List Str × Inode}, e ∈ ((h.nodes.retain fun k _ =>
      !target.isPrefixOf k).entries.filter fun e => source.isPrefixOf e.1) ↔
        ∃ r, e.1 = source ++ r ∧ h.node (source ++ r) = some e.2 := by
    intro e
    rw [List.mem_filter, ← OrdMap.lookup_eq_some_iff, hkept, List.isPrefixOf_iff_prefix]
    constructor
    · rintro ⟨⟨hn, -⟩, r, hr⟩
      exact ⟨r, hr.symm, hr ▸ hn⟩
    · rintro ⟨r, hr, hn⟩
      exact ⟨⟨hr ▸ hn, hr ▸ hap.symm.not_prefix_append r⟩, r, hr.symm⟩
  rw [relocated]
  rw [OrdMap.lookup_foldl_rekey]
  · constructor
    · rintro (⟨e, he, rfl, rfl⟩ | ⟨hno, hnot, hl⟩)
      · obtain ⟨r, hr, hn⟩ := hsel.mp he
        exact Or.inl ⟨r, by rw [hr, moved_append], hn⟩
      · obtain ⟨hn, ht⟩ := hkept.mp hl
        refine Or.inr ⟨ht, ?_, hn⟩
        rintro ⟨r, rfl⟩
        exact hnot (source ++ r, v) (hsel.mpr ⟨r, rfl, hn⟩) rfl
    · rintro (⟨r, rfl, hn⟩ | ⟨ht, hs, hn⟩)
      · exact Or.inl ⟨(source ++ r, v), hsel.mpr ⟨r, rfl, hn⟩, moved_append source target r, rfl⟩
      · refine Or.inr ⟨fun e he hj => ?_, fun e he hj => ?_, hkept.mpr ⟨hn, ht⟩⟩
        · obtain ⟨r, hr, -⟩ := hsel.mp he
          rw [hr, moved_append] at hj
          exact ht ⟨r, hj⟩
        · obtain ⟨r, hr, -⟩ := hsel.mp he
          exact hs ⟨r, hr.symm.trans hj⟩
  · intro e he e' he' heq
    obtain ⟨r, hr, -⟩ := hsel.mp he
    obtain ⟨r', hr', -⟩ := hsel.mp he'
    rw [hr, moved_append, hr'] at heq
    exact hap.not_prefix_append r ⟨r', heq.symm⟩
  · refine List.Pairwise.imp_of_mem ?_ ((h.nodes.retain fun k _ =>
      !target.isPrefixOf k).ascending.filter fun e => source.isPrefixOf e.1)
    intro e e' he he' hlt heq
    obtain ⟨r, hr, -⟩ := hsel.mp he
    obtain ⟨r', hr', -⟩ := hsel.mp he'
    rw [hr, hr', moved_append, moved_append] at heq
    obtain ⟨-, rfl⟩ := List.append_inj heq rfl
    exact absurd hlt (by rw [hr, hr']; exact lt_irrefl _)

/-- Put what is at `source`, with everything below it, in place of what is the entry `c` of the
    directory `d`. Nothing is moved below itself, or over what it is in. -/
def relocate (h : Host) (source d : List Str) (c : Str) : Host :=
  if hc : Apart source (d ++ [c]) ∧ h.node d = some .dir then
    { nodes := h.relocated source (d ++ [c])
      root := by
        refine (lookup_relocated h hc.1).mpr (Or.inr ⟨fun ht => ?_, fun hs => ?_, h.root⟩)
        · simp at ht
        · exact hc.1.1 (hs.trans List.nil_prefix)
      closed := by
        intro q x hq
        obtain ⟨n, hn⟩ := OrdMap.contains_iff.mp hq
        rw [lookup_relocated h hc.1] at hn ⊢
        rcases hn with ⟨r, hr, hn⟩ | ⟨ht, hs, hn⟩
        · induction r using List.reverseRecOn with
          | nil =>
            rw [List.append_nil] at hr
            obtain ⟨rfl, -⟩ := List.append_inj' hr rfl
            refine Or.inr ⟨fun ht => ?_, fun hs => hc.1.1 (hs.trans (List.prefix_append q [c])), hc.2⟩
            simpa using ht.length_le
          | append_singleton r y _ =>
            rw [← List.append_assoc] at hr hn
            obtain ⟨rfl, -⟩ := List.append_inj' hr rfl
            exact Or.inl ⟨r, rfl, h.node_parent hn⟩
        · have hpre := List.prefix_append q [x]
          exact Or.inr ⟨fun hle => ht (hle.trans hpre), fun hle => hs (hle.trans hpre),
            h.node_parent hn⟩ }
  else h

theorem node_relocate {h : Host} {source d : List Str} {c : Str} (hap : Apart source (d ++ [c]))
    (hd : h.node d = some .dir) {j : List Str} {v : Inode} :
    (h.relocate source d c).node j = some v ↔
      (∃ r, j = d ++ [c] ++ r ∧ h.node (source ++ r) = some v) ∨
        ¬ d ++ [c] <+: j ∧ ¬ source <+: j ∧ h.node j = some v := by
  rw [relocate, dif_pos ⟨hap, hd⟩]
  exact lookup_relocated h hap

/-- A file that is moved to a free path is taken away and put there, so that results about putting apply to it. -/
theorem relocate_file {h : Host} {source d : List Str} {c : Str} {data : Bytes}
    (hap : Apart source (d ++ [c])) (hd : h.node d = some .dir)
    (hs : h.node source = some (.file data)) (hfree : h.node (d ++ [c]) = none) :
    h.relocate source d c = (h.prune source).put d c (.file data) := by
  have hne : source ≠ [] := fun hnil => hap.1 (hnil ▸ List.nil_prefix)
  have hd' : (h.prune source).node d = some .dir := by
    rw [node_prune hne, if_neg fun hle => hap.1 (hle.trans (List.prefix_append d [c])), hd]
  have hfree' : (h.prune source).node (d ++ [c]) = none := by
    rw [node_prune hne, if_neg hap.1, hfree]
  refine ext_node fun q => Option.ext fun v => ?_
  rw [node_relocate hap hd, node_put hd' (by rw [hfree']; exact fun hf => by cases hf)]
  split
  case isTrue hq =>
    constructor
    · rintro (⟨r, hr, hn⟩ | ⟨ht, -⟩)
      · obtain rfl : r = [] := by simpa [hq] using hr
        rw [List.append_nil, hs] at hn
        exact hn
      · exact absurd (hq ▸ List.prefix_refl _) ht
    · exact fun hv => Or.inl ⟨[], by rw [List.append_nil, hq], by rw [List.append_nil, hs, hv]⟩
  case isFalse hq =>
    rw [node_prune hne]
    constructor
    · rintro (⟨r, hr, hn⟩ | ⟨-, hle, hn⟩)
      · cases r with
        | nil => exact absurd (by simpa using hr) hq
        | cons x r =>
          rw [h.node_below (by rw [hs]; exact fun hf => by cases hf) (by simp)] at hn
          cases hn
      · rw [if_neg hle, hn]
    · intro hv
      split at hv
      case isTrue => cases hv
      case isFalse hle =>
        refine Or.inr ⟨?_, hle, hv⟩
        rintro ⟨r, rfl⟩
        cases r with
        | nil => exact hq (List.append_nil _)
        | cons x r =>
          rw [h.node_below (by rw [hfree]; exact fun hf => by cases hf) (by simp)] at hv
          cases hv

/-! ## Changes in one place -/

/-- Everything that is not at or below `root` is as it was. As a relation between before and after it is a preorder,
    so it holds of a sequence if it holds of its parts. -/
def Within (root : List Str) (before after : Host) : Prop :=
  ∀ p, ¬ root <+: p → after.node p = before.node p

variable {root : List Str}

theorem Within.refl (root : List Str) (h : Host) : Within root h h := fun _ _ => rfl

/-- A further change inside makes no difference to whether there was one outside. It drops the last call of a sequence
    from the question. -/
theorem Within.trans_iff {g h k : Host} (hin : Within root h k) :
    Within root g k ↔ Within root g h :=
  ⟨fun hgk p hp => (hin p hp).symm.trans (hgk p hp), fun hgh p hp => (hin p hp).trans (hgh p hp)⟩

theorem within_put {d : List Str} (hd : root <+: d) (h : Host) (c : Str) (n : Inode) :
    Within root h (h.put d c n) := by
  intro p hp
  by_cases hc : h.node d = some .dir ∧ h.node (d ++ [c]) ≠ some .dir
  · rw [node_put hc.1 hc.2, if_neg]
    rintro rfl
    exact hp (hd.trans (List.prefix_append d [c]))
  · rw [put, dif_neg hc]

theorem within_prune {q : List Str} (hq : root <+: q) (h : Host) : Within root h (h.prune q) := by
  intro p hp
  by_cases hne : q ≠ []
  · rw [node_prune hne, if_neg fun hle => hp (hq.trans hle)]
  · rw [prune, dif_neg hne]

theorem within_clear {q : List Str} (hq : root <+: q) (h : Host) : Within root h (h.clear q) := by
  intro p hp
  rw [node_clear, if_neg fun hle => hp (hq.trans hle.1)]

theorem within_relocate {source d : List Str} (hs : root <+: source) (hd : root <+: d) (h : Host)
    (c : Str) : Within root h (h.relocate source d c) := by
  intro p hp
  by_cases hc : Apart source (d ++ [c]) ∧ h.node d = some .dir
  · refine Option.ext fun v => ?_
    have ht : ¬ d ++ [c] <+: p := fun hle => hp ((hd.trans (List.prefix_append d [c])).trans hle)
    rw [node_relocate hc.1 hc.2]
    constructor
    · rintro (⟨r, hr, -⟩ | ⟨-, -, hn⟩)
      · exact absurd ⟨r, hr.symm⟩ ht
      · exact hn
    · exact fun hn => Or.inr ⟨ht, fun hle => hp (hs.trans hle), hn⟩
  · rw [relocate, dif_neg hc]

/-! ## What a directory holds -/

/-- The last name of a path of an entry of `d`, and nothing for a path anywhere else. -/
def childOf (d p : List Str) : Option Str :=
  if p.dropLast = d then p.getLast? else none

theorem childOf_eq_some_iff {d p : List Str} {c : Str} : childOf d p = some c ↔ p = d ++ [c] := by
  unfold childOf
  constructor
  · intro h
    split at h
    case isTrue hd =>
      obtain ⟨init, rfl⟩ := List.getLast?_eq_some_iff.mp h
      rw [List.dropLast_concat] at hd
      rw [hd]
    case isFalse => cases h
  · rintro rfl
    rw [List.dropLast_concat, if_pos rfl, List.getLast?_concat]

/-- The entries of a directory, in the order of their names, each with what it is. -/
def children (h : Host) (d : List Str) : List (Str × Inode) :=
  h.nodes.entries.filterMap fun e => (childOf d e.1).map fun c => (c, e.2)

theorem mem_children_iff {h : Host} {d : List Str} {c : Str} {n : Inode} :
    (c, n) ∈ h.children d ↔ h.node (d ++ [c]) = some n := by
  simp only [children, List.mem_filterMap, Option.map_eq_some_iff, Prod.mk.injEq,
    childOf_eq_some_iff, node, OrdMap.lookup_eq_some_iff]
  constructor
  · rintro ⟨⟨p, m⟩, he, x, rfl, rfl, rfl⟩
    exact he
  · exact fun he => ⟨(d ++ [c], n), he, c, rfl, rfl, rfl⟩

theorem isEmpty_children_iff {h : Host} {d : List Str} :
    (h.children d).isEmpty = true ↔ ∀ c, h.node (d ++ [c]) = none := by
  rw [List.isEmpty_iff, List.eq_nil_iff_forall_not_mem]
  constructor
  · refine fun hno c => Option.eq_none_iff_forall_ne_some.mpr fun n hn => ?_
    exact hno (c, n) (mem_children_iff.mpr hn)
  · rintro hno ⟨c, n⟩ hmem
    rw [mem_children_iff, hno c] at hmem
    cases hmem

end Host

end Afos.Lib
