import Afos.Proof.StorageCalls

/-!
# What a rename and a removal leave behind

A rename takes keys out of the maps it reads them from and puts them back under other keys, one at a
time. What comes out is said here without the loop: every key at or below the source is found under
the target with the same tail, nothing is left at or below the source, and the rest is where it was,
but for the directories on the way to the target. The two maps are treated alike (`Carried`), and a
single file is the case of a subtree with one key.

The checks that the code makes first are what keeps the keys apart. The target is free, and since
every ancestor of an entry is a directory, so is everything below it; it is not below the source; and
the source is not below it, since then it would not be free.
-/

set_option autoImplicit false

namespace Afos

open Lib

namespace FileTree

/-- What follows a path in the paths at or below it: nothing, or a slash and more. -/
def IsTail (s : Str) : Prop := s = [] ∨ ∃ r, s = '/' :: r

theorem at_append {p s : Str} (h : IsTail s) : At p (p ++ s) := by
  rcases h with rfl | ⟨r, rfl⟩
  · exact Or.inl (List.append_nil p)
  · exact Or.inr ⟨r, rfl⟩

theorem At.linear {p q r : Str} (hp : At p r) (hq : At q r) : At p q ∨ At q p := by
  rcases hp with rfl | hp
  · exact Or.inr hq
  rcases hq with rfl | hq
  · exact Or.inl (Or.inr hp)
  rcases hp.linear hq with rfl | hb | hb
  · exact Or.inl (Or.inl rfl)
  · exact Or.inl (Or.inr hb)
  · exact Or.inr (Or.inr hb)

theorem At.not_below {p q : Str} (h : At p q) : ¬ Below q p := fun hb =>
  (h.below hb).ne rfl

instance (p q : Str) : Decidable (At p q) :=
  decidable_of_iff (q = p ∨ startsWith (p ++ ['/']) q = true) (or_congr Iff.rfl startsWith_slash_iff)

/-! ## One map -/

/-- The entries at or below `source` are under `target`, and no others have moved. It is said of the lookups of the
    two maps, both ways, so that it determines the second map. -/
def Carried {ν : Type} (source target : Str) (m m' : OrdMap Str ν) : Prop :=
  ∀ {q v}, m'.lookup q = some v ↔
    (∃ p, At source p ∧ m.lookup p = some v ∧ rebased p source target = q) ∨
      (¬ At source q ∧ m.lookup q = some v)

section Carried

variable {ν : Type} {source target : Str} {m m' : OrdMap Str ν}

/-- With nothing to move, nothing moves. It is the case of the directories when what is moved is a file. -/
theorem carried_self (hnone : ∀ {q}, At source q → m.lookup q = none) :
    Carried source target m m := by
  intro q v
  constructor
  · refine fun hv => Or.inr ⟨fun hq => ?_, hv⟩
    rw [hnone hq] at hv
    cases hv
  · rintro (⟨p, hp, hv, -⟩ | ⟨-, hv⟩)
    · rw [hnone hp] at hv
      cases hv
    · exact hv

/-- A key with nothing below it: it is taken out and put in under its new name. -/
theorem carried_single {v : ν} (hsource : m.lookup source = some v)
    (hbelow : ∀ {q}, Below source q → m.lookup q = none) (hne : source ≠ target)
    (htarget : m.lookup target = none) :
    Carried source target m ((m.remove source).insert target v) := by
  -- the key itself has no tail, and comes to be the target
  have hplace : rebased source source target = target := by
    have h := rebased_append source target []
    rwa [List.append_nil, List.append_nil] at h
  have honly : ∀ {p w}, At source p → m.lookup p = some w → p = source := by
    rintro p w (rfl | hp) hw
    · rfl
    · rw [hbelow hp] at hw
      cases hw
  intro q w
  rw [OrdMap.lookup_insert, OrdMap.lookup_remove]
  -- the target, the source, and any other key
  by_cases hq : target = q
  · rw [if_pos hq]
    constructor
    · exact fun hw => Or.inl ⟨source, Or.inl rfl, hsource.trans hw, hplace.trans hq⟩
    · rintro (⟨p, hp, hw, -⟩ | ⟨-, hw⟩)
      · rw [← hw, honly hp hw, hsource]
      · rw [← hq, htarget] at hw
        cases hw
  · rw [if_neg hq]
    by_cases hs : source = q
    · rw [if_pos hs]
      refine iff_of_false (fun hw => by cases hw) ?_
      rintro (⟨p, hp, hw, hpq⟩ | ⟨hout, -⟩)
      · rw [honly hp hw, hplace] at hpq
        exact hq hpq
      · exact hout (Or.inl hs.symm)
    · rw [if_neg hs]
      constructor
      · refine fun hw => Or.inr ⟨?_, hw⟩
        exact fun hat => hs (honly hat hw).symm
      · rintro (⟨p, hp, hw, hpq⟩ | ⟨-, hw⟩)
        · rw [honly hp hw, hplace] at hpq
          exact absurd hpq hq
        · exact hw

/-- Where a path is afterwards: in the same place, unless it moves with the source. -/
def place (source target q : Str) : Str := if At source q then rebased q source target else q

theorem place_injective {a b : Str} (ha : ¬ At target a) (hb : ¬ At target b)
    (h : place source target a = place source target b) : a = b := by
  rw [place, place] at h
  by_cases hsa : At source a <;> by_cases hsb : At source b
  · rw [if_pos hsa, if_pos hsb] at h
    exact rebased_injective hsa hsb h
  · rw [if_pos hsa, if_neg hsb] at h
    exact absurd (h ▸ rebased_at target hsa) hb
  · rw [if_neg hsa, if_pos hsb] at h
    exact absurd (h ▸ rebased_at target hsb) ha
  · rwa [if_neg hsa, if_neg hsb] at h

theorem not_at_of_free (hfree : ∀ {q}, At target q → m.lookup q = none) {e : Str × ν}
    (he : e ∈ m.entries) : ¬ At target e.1 := fun hat => by
  have hv := OrdMap.lookup_eq_some_iff.mpr he
  rw [hfree hat] at hv
  cases hv

variable (h : Carried source target m m') (hfree : ∀ {q}, At target q → m.lookup q = none)
include h

theorem Carried.at_target {s : Str} (hs : IsTail s) (hfree : m.lookup (target ++ s) = none) :
    m'.lookup (target ++ s) = m.lookup (source ++ s) := by
  refine Option.ext fun v => h.trans ⟨?_, fun hv => ?_⟩
  · rintro (⟨p, hp, hv, hq⟩ | ⟨-, hv⟩)
    · obtain ⟨u, rfl⟩ := hp.exists_suffix
      rw [rebased_append, List.append_cancel_left_eq] at hq
      rwa [← hq]
    · rw [hfree] at hv
      cases hv
  · exact Or.inl ⟨source ++ s, at_append hs, hv, rebased_append source target s⟩

theorem Carried.elsewhere {q : Str} (hs : ¬ At source q) (ht : ¬ At target q) :
    m'.lookup q = m.lookup q := by
  refine Option.ext fun v => h.trans ⟨?_, fun hv => Or.inr ⟨hs, hv⟩⟩
  rintro (⟨p, hp, -, rfl⟩ | ⟨-, hv⟩)
  · exact absurd (rebased_at target hp) ht
  · exact hv

theorem Carried.at_source {q : Str} (hs : At source q) (ht : ¬ At target q) : m'.lookup q = none := by
  refine Option.eq_none_iff_forall_ne_some.mpr fun v hv => ?_
  rcases h.mp hv with ⟨p, hp, -, rfl⟩ | ⟨hout, -⟩
  · exact ht (rebased_at target hp)
  · exact hout hs

include hfree

/-- No value is lost and none is doubled. Two keys do not come to be the same, since nothing was at or below the
    target. -/
theorem Carried.values_perm : (m'.entries.map Prod.snd).Perm (m.entries.map Prod.snd) := by
  have hentries : m'.entries.Perm (m.entries.map fun e => (place source target e.1, e.2)) := by
    -- the entries of one map are those of the other, each in its place
    refine (List.perm_ext_iff_of_nodup m'.nodup_entries ?_).mpr fun ⟨q, v⟩ => ?_
    · refine m.nodup_entries.map_on fun a ha b hb hab => ?_
      have hkeys : a.1 = b.1 := place_injective (not_at_of_free hfree ha) (not_at_of_free hfree hb)
        (Prod.mk.inj hab).1
      exact Prod.ext hkeys (Prod.mk.inj hab).2
    · rw [← OrdMap.lookup_eq_some_iff, h, List.mem_map]
      constructor
      · rintro (⟨p, hp, hv, rfl⟩ | ⟨hq, hv⟩)
        · exact ⟨(p, v), OrdMap.lookup_eq_some_iff.mp hv, Prod.ext (if_pos hp) rfl⟩
        · exact ⟨(q, v), OrdMap.lookup_eq_some_iff.mp hv, Prod.ext (if_neg hq) rfl⟩
      · rintro ⟨⟨p, w⟩, hp, heq⟩
        obtain ⟨hq, rfl⟩ := Prod.mk.inj heq
        have hw := OrdMap.lookup_eq_some_iff.mpr hp
        by_cases hsp : At source p
        · exact Or.inl ⟨p, hsp, hw, (if_pos hsp).symm.trans hq⟩
        · obtain rfl : p = q := (if_neg hsp).symm.trans hq
          exact Or.inr ⟨hsp, hw⟩
  refine (hentries.map Prod.snd).trans (List.Perm.of_eq ?_)
  rw [List.map_map]
  rfl

end Carried

/-! ## The tree -/

/-- `t'` is `t` with everything at or below `source` taken to `target`. The directories on the way to the target are
    the one thing that is there now and was not before. -/
structure Renamed (source target : Str) (t t' : FileTree) : Prop where
  files_at : ∀ s, IsTail s → t'.files.lookup (target ++ s) = t.files.lookup (source ++ s)
  directories_at : ∀ s, IsTail s →
    t'.directories.contains (target ++ s) = t.directories.contains (source ++ s)
  gone : ∀ q, At source q → t'.existsAt q = false
  ancestors : ∀ q, q ≠ [] → Below q target → t'.directories.contains q = true
  files_elsewhere : ∀ q, ¬ At source q → ¬ At target q → t'.files.lookup q = t.files.lookup q
  directories_elsewhere : ∀ q, ¬ At source q → ¬ At target q → ¬ Below q target →
    t'.directories.contains q = t.directories.contains q
  contents : (t'.files.entries.map Prod.snd).Perm (t.files.entries.map Prod.snd)

/-- `t'` is `t` without what is at or below `path`: all of that is gone, and everything elsewhere is the same,
    directories included. -/
structure Removed (path : Str) (t t' : FileTree) : Prop where
  gone : ∀ q, At path q → t'.existsAt q = false
  files_elsewhere : ∀ q, ¬ At path q → t'.files.lookup q = t.files.lookup q
  directories_elsewhere : ∀ q, ¬ At path q → t'.directories.contains q = t.directories.contains q

section Tree

variable {t t₁ t' : FileTree} {source target : Str}

theorem Entered.existsAt_of_at (he : Entered t (parent target) t₁) {q : Str} (hq : At target q) :
    t₁.existsAt q = t.existsAt q := by
  rw [existsAt, existsAt, he.files, he.directories_of_not_below hq.not_below]

/-- From the two maps to the tree, with the directories on the way to the target entered first. -/
theorem renamed_of_carried (he : Entered t (parent target) t₁)
    (hfiles : Carried source target t₁.files t'.files)
    (hdirectories : Carried source target t₁.directories t'.directories)
    (hfree : ∀ {q}, At target q → t.existsAt q = false)
    (hapart : ∀ {q}, At source q → ¬ At target q) (hb : ¬ Below source target) :
    Renamed source target t t' := by
  -- entering the parents has put nothing at or below the target
  have hfreeFiles : ∀ {q}, At target q → t₁.files.lookup q = none := fun hq => by
    have hnone := existsAt_eq_false_iff.mp ((he.existsAt_of_at hq).trans (hfree hq))
    exact OrdMap.contains_eq_false_iff.mp hnone.1
  have hfreeDirectories : ∀ {q}, At target q → t₁.directories.lookup q = none := fun hq => by
    have hnone := existsAt_eq_false_iff.mp ((he.existsAt_of_at hq).trans (hfree hq))
    exact OrdMap.contains_eq_false_iff.mp hnone.2
  refine ⟨fun s hs => ?_, fun s hs => ?_, fun q hq => ?_, fun q hne hq => ?_, fun q hs ht => ?_,
    fun q hs ht hq => ?_, ?_⟩
  · rw [hfiles.at_target hs (hfreeFiles (at_append hs)), he.files]
  · rw [OrdMap.contains, hdirectories.at_target hs (hfreeDirectories (at_append hs)),
      ← OrdMap.contains, he.directories_of_not_below fun hq => hb ((at_append hs).below hq)]
  · rw [existsAt, OrdMap.contains, OrdMap.contains, hfiles.at_source hq (hapart hq),
      hdirectories.at_source hq (hapart hq)]
    rfl
  · have hout : ¬ At source q := fun hs => hb (hs.below hq)
    have hout' : ¬ At target q := fun ht => ht.not_below hq
    rw [OrdMap.contains, hdirectories.elsewhere hout hout', ← OrdMap.contains, he.directories]
    exact Or.inr ((leads_parent_iff hne).mpr hq)
  · rw [hfiles.elsewhere hs ht, he.files]
  · rw [OrdMap.contains, hdirectories.elsewhere hs ht, ← OrdMap.contains,
      he.directories_of_not_below hq]
  · rw [← he.files]
    exact hfiles.values_perm hfreeFiles

/-- The files of a directory that is moved, under their new paths. The target has to be free, or a file that was there
    would be lost. -/
theorem carried_files (hsource : t.files.contains source = false)
    (hfree : ∀ {q}, At target q → t.files.contains q = false) :
    Carried source target t.files (t.moveSubtree source target).files := by
  -- only what is below the directory is picked, and the directory itself is no file
  have hat : ∀ {p v}, t.files.lookup p = some v → (Below source p ↔ At source p) := by
    intro p v hv
    refine ⟨Or.inr, fun hp => hp.resolve_left ?_⟩
    rintro rfl
    rw [OrdMap.contains_eq_false_iff.mp hsource] at hv
    cases hv
  intro q v
  rw [lookup_moveSubtree_files source hfree]
  constructor
  · rintro (⟨p, hp, hv, hq⟩ | ⟨hq, hv⟩)
    · exact Or.inl ⟨p, Or.inr hp, hv, hq⟩
    · exact Or.inr ⟨fun h => hq ((hat hv).mpr h), hv⟩
  · rintro (⟨p, hp, hv, hq⟩ | ⟨hq, hv⟩)
    · exact Or.inl ⟨p, (hat hv).mpr hp, hv, hq⟩
    · exact Or.inr ⟨fun h => hq (Or.inr h), hv⟩

theorem carried_directories (source : Str)
    (hfree : ∀ {q}, At target q → t.directories.contains q = false) :
    Carried source target t.directories (t.moveSubtree source target).directories := by
  have hunit : ∀ {m : OrdSet Str} {q : Str} {v : Unit}, m.lookup q = some v ↔ m.contains q = true :=
    fun {m q v} => ⟨fun hv => OrdMap.contains_iff.mpr ⟨v, hv⟩, fun hc => by
      obtain ⟨⟨⟩, hv⟩ := OrdMap.contains_iff.mp hc
      exact hv⟩
  intro q v
  simp only [hunit]
  exact contains_moveSubtree_directories source hfree

end Tree

end FileTree

namespace StorageOp

open FileTree

variable {t t' : FileTree}

section Exact

variable (hdisjoint : ∀ {q}, t.files.contains q = true → t.directories.contains q = false)
  (hparents : ∀ {p q}, t.existsAt q = true → Below p q → t.directories.contains p = true)
include hdisjoint hparents

/-- A file has nothing below it, because what is above an entry is a directory, and no path is both. -/
theorem existsAt_below_file {path q : Str} (hfile : t.files.contains path = true)
    (hq : Below path q) : t.existsAt q = false := by
  refine Bool.eq_false_iff.mpr fun hex => ?_
  have hd := hparents hex hq
  rw [hdisjoint hfile] at hd
  cases hd

/-- A rename that succeeds, to another path than its source, by the two ways that it can: a file, or a directory with
    what is in it. -/
theorem Succeeds.renamed {source target : Str} (hs : (rename source target).Succeeds t t')
    (hne : source ≠ target) : Renamed source target t t' := by
  obtain ⟨hst, -⟩ | ⟨-, hex, hb, t₁, he, hmove⟩ := hs
  · exact absurd hst hne
  -- every ancestor of an entry is a directory, and the target is none
  have hfree : ∀ {q}, At target q → t.existsAt q = false := by
    rintro q (rfl | hq)
    · exact hex
    · refine Bool.eq_false_iff.mpr fun hqe => ?_
      have hd := hparents hqe hq
      rw [(existsAt_eq_false_iff.mp hex).2] at hd
      cases hd
  have hfree₁ : ∀ {q}, At target q → t₁.files.contains q = false ∧ t₁.directories.contains q = false :=
    fun hq => existsAt_eq_false_iff.mp ((he.existsAt_of_at hq).trans (hfree hq))
  have hsource : t.existsAt source = true := by
    rcases hmove with ⟨data, hdata, -⟩ | ⟨-, hd, -⟩
    · exact existsAt_iff.mpr (Or.inl (OrdMap.contains_iff.mpr ⟨data, hdata⟩))
    · exact existsAt_iff.mpr (Or.inr hd)
  -- one of two paths above a third is above the other, and neither of these two is
  have hapart : ∀ {q}, At source q → ¬ At target q := by
    intro q hsq htq
    rcases hsq.linear htq with (heq | hbelow) | hat
    · exact hne heq.symm
    · exact hb hbelow
    · rw [hfree hat] at hsource
      cases hsource
  rcases hmove with ⟨data, hdata, rfl⟩ | ⟨hnofile, hd, rfl⟩
  · -- a file: one key moves, and no directory does
    have hfile : t.files.contains source = true := OrdMap.contains_iff.mpr ⟨data, hdata⟩
    have hbelow : ∀ {q}, Below source q → t.existsAt q = false :=
      fun hq => existsAt_below_file hdisjoint hparents hfile hq
    refine renamed_of_carried he ?_ ?_ hfree hapart hb
    · refine carried_single (by rw [he.files, hdata]) (fun hq => ?_) hne ?_
      · rw [he.files]
        exact OrdMap.contains_eq_false_iff.mp (existsAt_eq_false_iff.mp (hbelow hq)).1
      · exact OrdMap.contains_eq_false_iff.mp (hfree₁ (Or.inl rfl)).1
    · refine carried_self fun {q} hq => OrdMap.contains_eq_false_iff.mp ?_
      refine (he.directories_of_not_below fun hbt => hb (hq.below hbt)).trans ?_
      rcases hq with rfl | hq
      · exact hdisjoint hfile
      · exact (existsAt_eq_false_iff.mp (hbelow hq)).2
  · -- a directory: both maps have keys at or below it
    refine renamed_of_carried he ?_ ?_ hfree hapart hb
    · exact carried_files (by rw [he.files, hnofile]) fun hq => (hfree₁ hq).1
    · exact carried_directories source fun hq => (hfree₁ hq).2

/-- A removal that succeeds, of a file or of a directory. For a file the part about what is below it is empty. -/
theorem Succeeds.removed {path : Str} (hs : (remove path).Succeeds t t') : Removed path t t' := by
  -- a file, with nothing below it, or a directory with all that is below it
  rcases hs with ⟨hfile, rfl⟩ | ⟨hnofile, -, rfl⟩
  · refine ⟨fun q hq => existsAt_eq_false_iff.mpr ?_, fun q hq => ?_, fun q hq => rfl⟩
    · have hbelow := fun hq => existsAt_eq_false_iff.mp
        (existsAt_below_file hdisjoint hparents (q := q) hfile hq)
      rw [FileTree.removeFile, OrdMap.contains_remove]
      rcases hq with rfl | hq
      · exact ⟨by simp, hdisjoint hfile⟩
      · exact ⟨by rw [(hbelow hq).1, Bool.and_false], (hbelow hq).2⟩
    · rw [FileTree.removeFile, OrdMap.lookup_remove, if_neg fun heq => hq (Or.inl heq.symm)]
  · refine ⟨fun q hq => existsAt_eq_false_iff.mpr ⟨?_, ?_⟩, fun q hq => ?_, fun q hq => ?_⟩
    · refine Bool.eq_false_iff.mpr fun hc => ?_
      obtain ⟨hfile, hout⟩ := contains_removeSubtree_files.mp hc
      rcases hq with rfl | hq
      · rw [hnofile] at hfile
        cases hfile
      · exact hout hq
    · exact Bool.eq_false_iff.mpr fun hc => (contains_removeSubtree_directories.mp hc).2 hq
    · have hout : startsWith (path ++ ['/']) q = false :=
        Bool.eq_false_iff.mpr fun hb => hq (Or.inr (startsWith_slash_iff.mp hb))
      rw [FileTree.removeSubtree, OrdMap.lookup_retain, hout]
      cases t.files.lookup q <;> rfl
    · rw [Bool.eq_iff_iff, contains_removeSubtree_directories]
      exact and_iff_left hq

end Exact

variable {D η : Type} [BlockDevice D]

/-- **Rename and remove are exact.** In a tree where no path is both a file and a directory and every
    proper ancestor of an entry is a directory, for the empty path too. -/
theorem rename_and_remove_exact (p p' : BareMetalPlatform D η) (h : p.tree.WellFormed)
    (hroot : ∀ q, p.tree.existsAt q = true → Below [] q → p.tree.directories.contains [] = true) :
    (∀ source target, IsCanonical source → IsCanonical target → source ≠ target →
      BareMetalPlatform.storageRename source target p = (.ok (), p') →
      Renamed source target p.tree p'.tree) ∧
    ∀ path, IsCanonical path → BareMetalPlatform.storageRemove path p = (.ok (), p') →
      Removed path p.tree p'.tree := by
  have hparents : ∀ {r q}, p.tree.existsAt q = true → Below r q →
      p.tree.directories.contains r = true := by
    intro r q hq hb
    by_cases hr : r = []
    · subst hr
      exact hroot q hq hb
    · exact h.parents hq hr hb
  have hsucceeds : ∀ {op : StorageOp}, op.Ending p.tree (op.run p) → op.run p = (.ok (), p') →
      op.Succeeds p.tree p'.tree := by
    intro op hend hrun
    rw [hrun] at hend
    cases hend with
    | succeeded result tree => exact tree
    | unchanged e result => cases result
    | strayed e result => cases result
  constructor
  · intro source target _ htarget hne hrun
    exact (hsucceeds (rename_cases h source htarget) hrun).renamed h.disjoint hparents hne
  · intro path _ hrun
    exact (hsucceeds (remove_cases path) hrun).removed h.disjoint hparents

/-- A directory with a file in it, and a file whose name begins with the directory's. -/
def shelf : BareMetalPlatform NoDisk Keyboard :=
  runAll [.write "user/a/f".toList [1], .write "user/ab".toList [2]] (diskless FileTree.empty [])

theorem rename_and_remove_exact_on_shelf :
    Renamed "user/a".toList "apps/b".toList shelf.tree
        (BareMetalPlatform.storageRename "user/a".toList "apps/b".toList shelf).2.tree ∧
      Removed "user/a".toList shelf.tree
        (BareMetalPlatform.storageRemove "user/a".toList shelf).2.tree := by
  have hsound : shelf.tree.Sound := runAll_sound FileTree.sound_empty (by decide)
  -- no key begins with a slash, so nothing is below the empty path
  have hkeys : ∀ q ∈ shelf.tree.files.keys ++ shelf.tree.directories.keys, q.head? ≠ some '/' := by
    decide +kernel
  have hroot : ∀ q, shelf.tree.existsAt q = true → Below [] q →
      shelf.tree.directories.contains [] = true := by
    rintro q hq ⟨s, rfl⟩
    rw [existsAt_iff, ← OrdMap.mem_keys_iff, ← OrdMap.mem_keys_iff, ← List.mem_append] at hq
    exact absurd rfl (hkeys _ hq)
  have hrename : BareMetalPlatform.storageRename "user/a".toList "apps/b".toList shelf =
      (.ok (), (BareMetalPlatform.storageRename "user/a".toList "apps/b".toList shelf).2) :=
    Prod.ext (by decide +kernel) rfl
  have hremove : BareMetalPlatform.storageRemove "user/a".toList shelf =
      (.ok (), (BareMetalPlatform.storageRemove "user/a".toList shelf).2) :=
    Prod.ext (by decide +kernel) rfl
  exact ⟨(rename_and_remove_exact shelf _ hsound.wellFormed hroot).1 _ _ (by decide) (by decide)
      (by decide) hrename,
    (rename_and_remove_exact shelf _ hsound.wellFormed hroot).2 _ (by decide) hremove⟩

end StorageOp

end Afos
