import Afos.BareMetal

/-!
# The file tree keeps its shape

A tree is two flat maps of strings. Nothing in their types says that they describe a
hierarchy; `WellFormed` does, and this file shows what each of the steps the storage calls are
made of does to it.

Everything is said about paths as text, with `Below` for the order: a path's ancestors are the
texts before its slashes. `addParents` is the one loop. What it enters is exactly what leads to
its argument, and when a file is in the way of it in a well-formed tree it has entered nothing
new by then, because the directories above a file are all there already.
-/

set_option autoImplicit false

namespace Afos

open Lib

/-! ## Parents -/

theorem leads_parent_iff {p q : Str} (hne : p ≠ []) : Leads p (parent q) ↔ Below p q := by
  unfold parent
  cases h : rsplitOnce '/' q with
  | none =>
    have hq : '/' ∉ q := rsplitOnce_eq_none_iff.mp h
    simp only [not_leads_nil, not_below_of_notMem hq]
  | some ab =>
    obtain ⟨a, b⟩ := ab
    obtain ⟨rfl, hb⟩ := rsplitOnce_eq_some_iff.mp h
    simp only [Leads, ne_eq, hne, not_false_eq_true, true_and, below_append_slash_iff hb]

theorem parent_join {ps : List Str} {c : Str} (hc : IsName c) : parent (join (ps ++ [c])) = join ps := by
  unfold parent
  cases ps with
  | nil => rw [List.nil_append, join_singleton, rsplitOnce_eq_none_iff.mpr hc.2]; rfl
  | cons x ps =>
    rw [join_append (by simp) (by simp), join_singleton, rsplitOnce_eq_some_iff.mpr ⟨rfl, hc.2⟩]

theorem isCanonical_parent {q : Str} (hq : IsCanonical q) : IsCanonical (parent q) := by
  unfold parent
  cases h : rsplitOnce '/' q with
  | none => rfl
  | some ab =>
    obtain ⟨a, b⟩ := ab
    obtain ⟨hab, -⟩ := rsplitOnce_eq_some_iff.mp h
    -- the empty path has no slash in it, so there is a name before the last
    have hne : names q ≠ [] := by
      intro hnil
      rw [IsCanonical, hnil, join_nil] at hq
      simp [← hq] at hab
    have hsplit : names q = a.splitOn '/' ++ b.splitOn '/' := by
      rw [← splitOn_join (names_isName q) hne, hq, hab, List.splitOn_append_cons_self]
    have hna : ∀ c ∈ a.splitOn '/', IsName c := fun c hc =>
      names_isName q c (hsplit ▸ List.mem_append_left _ hc)
    exact join_splitOn a ▸ isCanonical_join hna

namespace FileTree

/-! ## The loop of `addParents` -/

/-- The paths the loop passes: those that lead to its argument, from the top. -/
def walk : List Str → Str → List Str
  | [], _ => []
  | c :: cs, current => extend current c :: walk cs (extend current c)

/-- Enter several directories, in their order. This is what `addParents` comes to when it succeeds, without its
    tests. -/
def insertDirs (t : FileTree) (ps : List Str) : FileTree := ps.foldl insertDir t

@[simp] theorem insertDirs_files (ps : List Str) (t : FileTree) :
    (t.insertDirs ps).files = t.files := by
  induction ps generalizing t with
  | nil => rfl
  | cons p ps ih => exact ih (t.insertDir p)

theorem contains_insertDirs {ps : List Str} {t : FileTree} {q : Str} :
    (t.insertDirs ps).directories.contains q = true ↔
      t.directories.contains q = true ∨ q ∈ ps := by
  -- by the directories that are entered
  induction ps generalizing t with
  | nil => simp [insertDirs]
  | cons p ps ih =>
    have hstep : t.insertDirs (p :: ps) = (t.insertDir p).insertDirs ps := rfl
    rw [hstep, ih, insertDir, OrdMap.contains_insert, List.mem_cons]
    simp only [Bool.or_eq_true, decide_eq_true_eq]
    constructor
    · rintro ((rfl | h) | h)
      · exact Or.inr (Or.inl rfl)
      · exact Or.inl h
      · exact Or.inr (Or.inr h)
    · rintro (h | rfl | h)
      · exact Or.inl (Or.inr h)
      · exact Or.inl (Or.inl rfl)
      · exact Or.inr h

theorem insertDirs_eq_self {ps : List Str} {t : FileTree}
    (h : ∀ p ∈ ps, t.directories.contains p = true) : t.insertDirs ps = t := by
  induction ps with
  | nil => rfl
  | cons p ps ih =>
    have hp : t.insertDir p = t := by
      obtain ⟨⟨⟩, hv⟩ := OrdMap.contains_iff.mp (h p List.mem_cons_self)
      rw [insertDir, OrdMap.insert_eq_self hv]
    have hstep : t.insertDirs (p :: ps) = (t.insertDir p).insertDirs ps := rfl
    rw [hstep, hp]
    exact ih fun q hq => h q (List.mem_cons_of_mem _ hq)

/-- The loop enters the paths it passes, up to the first that is a file. The tree is arbitrary here, so some of them
    may have been entered when it stops. -/
theorem addParentsFrom_cases (cs : List Str) (current : Str) (t : FileTree) :
    (addParentsFrom cs current t = (.ok (), t.insertDirs (walk cs current)) ∧
        ∀ p ∈ walk cs current, t.files.contains p = false) ∨
      ∃ l p r, walk cs current = l ++ p :: r ∧ t.files.contains p = true ∧
        addParentsFrom cs current t = (.error (.notDirectory p), t.insertDirs l) := by
  induction cs generalizing current t with
  | nil => exact Or.inl ⟨rfl, by simp [walk]⟩
  | cons c cs ih =>
    cases hf : t.files.contains (extend current c) with
    | true =>
      refine Or.inr ⟨[], extend current c, _, rfl, hf, ?_⟩
      simp [addParentsFrom, Op.run_bind, hf, insertDirs]
    | false =>
      -- the rest of the walk sees the same files
      have hrun : addParentsFrom (c :: cs) current t =
          addParentsFrom cs (extend current c) (t.insertDir (extend current c)) := by
        simp [addParentsFrom, Op.run_bind, hf]
      rw [hrun]
      rcases ih (extend current c) (t.insertDir (extend current c)) with
        ⟨hrest, hnone⟩ | ⟨l, p, r, hw, hp, hrest⟩
      · refine Or.inl ⟨hrest, fun p hp => ?_⟩
        rcases List.mem_cons.mp hp with rfl | hp
        · exact hf
        · exact hnone p hp
      · exact Or.inr ⟨extend current c :: l, p, r, by simp [walk, hw], hp, hrest⟩

theorem extend_join {pre : List Str} {c : Str} (hn : ∀ d ∈ pre, IsName d) :
    extend (join pre) c = join (pre ++ [c]) := by
  by_cases hpre : pre = []
  · subst hpre
    simp [extend]
  · have hne : join pre ≠ [] := fun h => hpre ((join_eq_nil_iff hn).mp h)
    rw [extend, if_neg hne, join_append hpre (by simp), join_singleton]

/-- The paths that are passed are the beginnings of the path, with at least one name more than where it started. -/
theorem mem_walk_iff (cs pre : List Str) {p : Str} (hn : ∀ c ∈ pre ++ cs, IsName c) :
    p ∈ walk cs (join pre) ↔ ∃ a b, a ≠ [] ∧ cs = a ++ b ∧ p = join (pre ++ a) := by
  -- by the names, for any path that has been passed already
  induction cs generalizing pre with
  | nil =>
    simp only [walk, List.not_mem_nil, false_iff]
    rintro ⟨a, b, ha, hab, -⟩
    exact ha (List.append_eq_nil_iff.mp hab.symm).1
  | cons c cs ih =>
    rw [walk, extend_join fun d hd => hn d (List.mem_append_left _ hd), List.mem_cons,
      ih _ (by simpa using hn)]
    constructor
    · rintro (rfl | ⟨a, b, -, rfl, rfl⟩)
      · exact ⟨[c], cs, by simp, rfl, rfl⟩
      · exact ⟨c :: a, b, by simp, rfl, by simp⟩
    · rintro ⟨a, b, ha, hab, rfl⟩
      cases a with
      | nil => exact absurd rfl ha
      | cons d a =>
        simp only [List.cons_append, List.cons.injEq] at hab
        obtain ⟨rfl, rfl⟩ := hab
        by_cases hnil : a = []
        · subst hnil
          exact Or.inl rfl
        · exact Or.inr ⟨a, b, hnil, rfl, by simp⟩

/-- The loop passes what leads to its argument, the argument itself included. -/
theorem mem_walk_names_iff {q p : Str} (hq : IsCanonical q) :
    p ∈ walk (names q) [] ↔ Leads p q := by
  have h := mem_walk_iff (names q) [] (p := p) (by simpa using names_isName q)
  rw [join_nil] at h
  rw [h]
  conv_rhs => rw [← hq]
  rw [leads_join_iff (names_isName q)]
  simp

theorem below_of_mem_walk {cs : List Str} {current p : Str} (hne : current ≠ [])
    (hp : p ∈ walk cs current) : Below current p := by
  induction cs generalizing current with
  | nil => simp [walk] at hp
  | cons c cs ih =>
    have hext : extend current c = current ++ '/' :: c := by rw [extend, if_neg hne]
    rw [walk, hext, List.mem_cons] at hp
    rcases hp with rfl | hp
    · exact ⟨c, rfl⟩
    · have hlong : Below current (current ++ '/' :: c) := ⟨c, rfl⟩
      exact hlong.trans (ih (by simp) hp)

/-- Each path the loop passes is below the ones before it, so a file in the way of one is in the way of all that come
    after. -/
theorem pairwise_walk {cs : List Str} (hn : ∀ c ∈ cs, IsName c) (current : Str) :
    (walk cs current).Pairwise Below := by
  induction cs generalizing current with
  | nil => exact List.Pairwise.nil
  | cons c cs ih =>
    have hne : extend current c ≠ [] := by
      unfold extend
      split
      · exact (hn c List.mem_cons_self).1
      · simp
    exact List.pairwise_cons.mpr ⟨fun p hp => below_of_mem_walk hne hp,
      ih (fun d hd => hn d (List.mem_cons_of_mem _ hd)) _⟩

/-! ## Well-formed trees -/

/-- No path is both a file and a directory, and what is above an entry is a directory. The empty path is the root, and
    is not in the maps. -/
structure WellFormed (t : FileTree) : Prop where
  disjoint : ∀ {p}, t.files.contains p = true → t.directories.contains p = false
  parents : ∀ {p q}, t.existsAt q = true → p ≠ [] → Below p q → t.directories.contains p = true

theorem existsAt_iff {t : FileTree} {p : Str} :
    t.existsAt p = true ↔ t.files.contains p = true ∨ t.directories.contains p = true := by
  rw [existsAt, Bool.or_eq_true]

theorem existsAt_eq_false_iff {t : FileTree} {p : Str} :
    t.existsAt p = false ↔ t.files.contains p = false ∧ t.directories.contains p = false := by
  rw [existsAt, Bool.or_eq_false_iff]

/-- The shape of a tree can be checked on what is in it: for each entry, on the directories that lead to its parent. -/
theorem wellFormed_of_keys {t : FileTree} (hfiles : ∀ p ∈ t.files.keys, t.directories.contains p = false)
    (hparents : ∀ q ∈ t.files.keys ++ t.directories.keys, IsCanonical (parent q) ∧
      ∀ p ∈ walk (names (parent q)) [], t.directories.contains p = true) : t.WellFormed where
  disjoint hp := hfiles _ (OrdMap.mem_keys_iff.mpr hp)
  parents {p q} hq hne hbelow := by
    rw [existsAt_iff, ← OrdMap.mem_keys_iff, ← OrdMap.mem_keys_iff, ← List.mem_append] at hq
    obtain ⟨hcanonical, hwalk⟩ := hparents q hq
    exact hwalk p ((mem_walk_names_iff hcanonical).mpr ((leads_parent_iff hne).mpr hbelow))

/-- Nothing is below a file, in a tree of this shape: what is below it would need it as a directory. -/
theorem WellFormed.not_below_file {t : FileTree} (h : t.WellFormed) {p q : Str} (hne : p ≠ [])
    (hp : t.files.contains p = true) (hq : t.existsAt q = true) : ¬ Below p q := by
  intro hb
  have hd := h.parents hq hne hb
  rw [h.disjoint hp] at hd
  cases hd

/-- Nothing is below a path where there is nothing. The other way round: whatever is there has all the directories
    above it. -/
theorem WellFormed.existsAt_of_below {t : FileTree} (h : t.WellFormed) {p q : Str} (hne : p ≠ [])
    (hb : Below p q) (hq : t.existsAt q = true) : t.existsAt p = true :=
  existsAt_iff.mpr (Or.inr (h.parents hq hne hb))

theorem wellFormed_empty : empty.WellFormed where
  disjoint h := by simp [empty] at h
  parents h := by simp [empty, existsAt] at h

/-- `t'` is `t` with what leads to `q` entered as directories, none of it being a file. This is what a call of
    `addParents` that succeeds does. -/
structure Entered (t : FileTree) (q : Str) (t' : FileTree) : Prop where
  files : t'.files = t.files
  directories : ∀ {p}, t'.directories.contains p = true ↔
    t.directories.contains p = true ∨ Leads p q
  clear : ∀ {p}, Leads p q → t.files.contains p = false

/-- Entering directories keeps the shape, since each is entered after those above it and none where a file is. -/
theorem WellFormed.entered {t t' : FileTree} {q : Str} (h : t.WellFormed)
    (he : Entered t q t') : t'.WellFormed where
  -- a file is no directory of before, nor one that leads to the argument
  disjoint {p} hp := by
    rw [he.files] at hp
    refine Bool.eq_false_iff.mpr fun hd => ?_
    rcases he.directories.mp hd with hd | hl
    · rw [h.disjoint hp] at hd
      cases hd
    · rw [he.clear hl] at hp
      cases hp
  parents {p r} hr hne hb := by
    refine he.directories.mpr ?_
    rcases existsAt_iff.mp hr with hr | hr
    · rw [he.files] at hr
      exact Or.inl (h.parents (existsAt_iff.mpr (Or.inl hr)) hne hb)
    · rcases he.directories.mp hr with hr | hl
      · exact Or.inl (h.parents (existsAt_iff.mpr (Or.inr hr)) hne hb)
      · exact Or.inr (Leads.of_below hne hb hl)

/-- `addParents` either enters what leads to its argument, or finds a file on the way and
    leaves the tree as it was. -/
theorem WellFormed.addParents_cases {t : FileTree} (h : t.WellFormed) {q : Str}
    (hq : IsCanonical q) :
    (∃ t', addParents q t = (.ok (), t') ∧ Entered t q t') ∨
      ∃ p, addParents q t = (.error (.notDirectory p), t) ∧ Leads p q ∧
        t.files.contains p = true := by
  rcases addParentsFrom_cases (names q) [] t with ⟨hrun, hnone⟩ | ⟨l, p, r, hw, hp, hrun⟩
  · refine Or.inl ⟨_, hrun, insertDirs_files _ _, ?_, fun hl => ?_⟩
    · intro p
      rw [contains_insertDirs, mem_walk_names_iff hq]
    · exact hnone _ ((mem_walk_names_iff hq).mpr hl)
  · have hmem : ∀ {d}, d ∈ l ++ p :: r → Leads d q := fun hd =>
      (mem_walk_names_iff hq).mp (hw ▸ hd)
    refine Or.inr ⟨p, ?_, hmem (by simp), hp⟩
    -- what was entered before the file is above it, hence already there
    have hpair := pairwise_walk (names_isName q) []
    rw [hw, List.pairwise_append] at hpair
    have hsame : t.insertDirs l = t := insertDirs_eq_self fun d hd =>
      h.parents (existsAt_iff.mpr (Or.inl hp)) (hmem (List.mem_append_left _ hd)).1
        (hpair.2.2 d hd p List.mem_cons_self)
    rw [hsame] at hrun
    exact hrun

/-- Entering a file keeps the shape, if the directories above it are there and it is none itself. -/
theorem WellFormed.insertFile {t : FileTree} (h : t.WellFormed) {q : Str} {data : Bytes}
    (hd : t.directories.contains q = false)
    (hp : ∀ {p}, p ≠ [] → Below p q → t.directories.contains p = true) :
    (t.insertFile q data).WellFormed where
  -- the new file, or one of before
  disjoint {p} hf := by
    simp only [FileTree.insertFile, OrdMap.contains_insert, Bool.or_eq_true,
      decide_eq_true_eq] at hf
    rcases hf with rfl | hf
    · exact hd
    · exact h.disjoint hf
  parents {p r} hr hne hb := by
    simp only [existsAt_iff, FileTree.insertFile, OrdMap.contains_insert, Bool.or_eq_true,
      decide_eq_true_eq] at hr
    rcases hr with (rfl | hr) | hr
    · exact hp hne hb
    · exact h.parents (existsAt_iff.mpr (Or.inl hr)) hne hb
    · exact h.parents (existsAt_iff.mpr (Or.inr hr)) hne hb

theorem WellFormed.removeFile {t : FileTree} (h : t.WellFormed) (q : Str) :
    (t.removeFile q).WellFormed where
  disjoint hf := by
    rw [FileTree.removeFile, OrdMap.contains_remove, Bool.and_eq_true] at hf
    exact h.disjoint hf.2
  parents hr hne hb := by
    simp only [existsAt_iff, FileTree.removeFile, OrdMap.contains_remove, Bool.and_eq_true] at hr
    refine h.parents (existsAt_iff.mpr ?_) hne hb
    exact hr.imp And.right id

/-! ## Subtrees -/

/-- At a path or below it: what goes along when the path is moved or removed. -/
def At (p q : Str) : Prop := q = p ∨ Below p q

theorem At.below {p q r : Str} (h : At p q) (hb : Below q r) : Below p r := by
  rcases h with rfl | h
  · exact hb
  · exact h.trans hb

theorem At.exists_suffix {p q : Str} (h : At p q) : ∃ u, q = p ++ u := by
  rcases h with rfl | ⟨s, rfl⟩
  · exact ⟨[], by simp⟩
  · exact ⟨'/' :: s, rfl⟩

theorem startsWith_slash_iff {p q : Str} : startsWith (p ++ ['/']) q = true ↔ Below p q := by
  rw [startsWith_iff]
  simp [Below]

theorem contains_retain {ν : Type} (m : OrdMap Str ν) (keep : Str → Bool) (p : Str) :
    (m.retain fun name _ => keep name).contains p = (keep p && m.contains p) := by
  rw [OrdMap.contains, OrdMap.lookup_retain, OrdMap.contains]
  cases m.lookup p <;> cases keep p <;> rfl

theorem contains_removeSubtree_directories {t : FileTree} {q p : Str} :
    (t.removeSubtree q).directories.contains p = true ↔
      t.directories.contains p = true ∧ ¬ At q p := by
  rw [removeSubtree, contains_retain t.directories
    (fun name => name ≠ q && !startsWith (q ++ ['/']) name)]
  simp only [Bool.and_eq_true, decide_eq_true_eq, Bool.not_eq_true', ← Bool.not_eq_true,
    startsWith_slash_iff, At, not_or, ne_eq]
  exact And.comm

theorem contains_removeSubtree_files {t : FileTree} {q p : Str} :
    (t.removeSubtree q).files.contains p = true ↔ t.files.contains p = true ∧ ¬ Below q p := by
  rw [removeSubtree, contains_retain t.files (fun name => !startsWith (q ++ ['/']) name)]
  simp only [Bool.and_eq_true, Bool.not_eq_true', ← Bool.not_eq_true, startsWith_slash_iff]
  exact And.comm

/-- Taking a subtree away keeps the shape: what is left has its directories left, because none of them is at or below
    the path. -/
theorem WellFormed.removeSubtree {t : FileTree} (h : t.WellFormed) (q : Str) :
    (t.removeSubtree q).WellFormed where
  disjoint {p} hf := by
    refine Bool.eq_false_iff.mpr fun hd => ?_
    have hd' := (contains_removeSubtree_directories.mp hd).1
    rw [h.disjoint (contains_removeSubtree_files.mp hf).1] at hd'
    cases hd'
  parents {p r} hr hne hb := by
    -- an ancestor inside the subtree would put the entry inside it too
    have hout : t.existsAt r = true ∧ ¬ Below q r := by
      rcases existsAt_iff.mp hr with hr | hr
      · have hr' := contains_removeSubtree_files.mp hr
        exact ⟨existsAt_iff.mpr (Or.inl hr'.1), hr'.2⟩
      · have hr' := contains_removeSubtree_directories.mp hr
        exact ⟨existsAt_iff.mpr (Or.inr hr'.1), fun hq => hr'.2 (Or.inr hq)⟩
    exact contains_removeSubtree_directories.mpr
      ⟨h.parents hout.1 hne hb, fun hq => hout.2 (hq.below hb)⟩

/-! ## Moving a subtree -/

theorem rebased_append (source target u : Str) : rebased (source ++ u) source target = target ++ u := by
  rw [rebased, stripPrefix_append, Option.getD_some]

theorem rebased_at {source p : Str} (target : Str) (h : At source p) :
    At target (rebased p source target) := by
  rcases h with rfl | ⟨s, rfl⟩
  · exact Or.inl (by simpa using rebased_append p target [])
  · exact Or.inr ⟨s, rebased_append source target _⟩

theorem rebased_injective {source target p q : Str} (hp : At source p) (hq : At source q)
    (h : rebased p source target = rebased q source target) : p = q := by
  obtain ⟨u, rfl⟩ := hp.exists_suffix
  obtain ⟨v, rfl⟩ := hq.exists_suffix
  rw [rebased_append, rebased_append, List.append_cancel_left_eq] at h
  rw [h]

/-- Moving the keys a test picks from under `source`, in a map with nothing under `target`. The loop takes them one at
    a time, and none that it has put in is picked again. -/
theorem lookup_move {ν : Type} (m : OrdMap Str ν) {source target j : Str} {v : ν}
    (picked : Str → Bool) (hpick : ∀ {p}, picked p = true → At source p)
    (hnone : ∀ {p}, At target p → m.contains p = false) :
    ((m.entries.filter fun e => picked e.1).foldl
        (OrdMap.rekey fun p => rebased p source target) m).lookup j = some v ↔
      (∃ p, picked p = true ∧ m.lookup p = some v ∧ rebased p source target = j) ∨
        (picked j = false ∧ m.lookup j = some v) := by
  -- what is picked is in the map and at or below the source, so its new key is free
  have hmem : ∀ {e}, e ∈ m.entries.filter (fun e => picked e.1) →
      m.lookup e.1 = some e.2 ∧ picked e.1 = true := fun {e} he => by
    rw [List.mem_filter] at he
    exact ⟨OrdMap.lookup_eq_some_iff.mpr he.1, he.2⟩
  have hnew : ∀ {e}, e ∈ m.entries.filter (fun e => picked e.1) →
      m.contains (rebased e.1 source target) = false := fun he =>
    hnone (rebased_at target (hpick (hmem he).2))
  have hold : ∀ {e}, e ∈ m.entries.filter (fun e => picked e.1) → m.contains e.1 = true :=
    fun {e} he => OrdMap.contains_iff.mpr ⟨e.2, (hmem he).1⟩
  rw [OrdMap.lookup_foldl_rekey m
    (fun e he e' he' hq => by
      have h1 := hnew he
      rw [hq, hold he'] at h1
      cases h1)
    ((m.ascending.filter _).imp_of_mem fun {e e'} he he' hlt hq =>
      absurd (rebased_injective (hpick (hmem he).2) (hpick (hmem he').2) hq) (ne_of_lt hlt))]
  constructor
  · rintro (⟨e, he, rfl, rfl⟩ | ⟨-, hne, hj⟩)
    · exact Or.inl ⟨e.1, (hmem he).2, (hmem he).1, rfl⟩
    · refine Or.inr ⟨Bool.eq_false_iff.mpr fun hp => ?_, hj⟩
      exact hne (j, v) (List.mem_filter.mpr ⟨OrdMap.lookup_eq_some_iff.mp hj, hp⟩) rfl
  · rintro (⟨p, hp, hv, rfl⟩ | ⟨hp, hj⟩)
    · exact Or.inl ⟨(p, v), List.mem_filter.mpr ⟨OrdMap.lookup_eq_some_iff.mp hv, hp⟩, rfl, rfl⟩
    · refine Or.inr ⟨fun e he hq => ?_, fun e he hq => ?_, hj⟩
      · have h1 := hnew he
        rw [hq, OrdMap.contains_iff.mpr ⟨v, hj⟩] at h1
        cases h1
      · rw [← hq, (hmem he).2] at hp
        cases hp

/-- Moving directories by their keys is moving the entries of the set, so that the lemmas about `rekey` apply to both
    of them. -/
theorem foldl_moveDir_eq (source target : Str) (directories : OrdSet Str) (picked : Str → Bool) :
    (directories.keys.filter picked).foldl (moveDir source target) directories =
      (directories.entries.filter fun e => picked e.1).foldl
        (OrdMap.rekey fun p => rebased p source target) directories := by
  rw [OrdMap.keys, List.filter_map, List.foldl_map]
  rfl

section Move

variable {t : FileTree} {source target : Str}

theorem contains_moveSubtree_directories (source : Str)
    (hnone : ∀ {p}, At target p → t.directories.contains p = false) {q : Str} :
    (t.moveSubtree source target).directories.contains q = true ↔
      (∃ p, At source p ∧ t.directories.contains p = true ∧ rebased p source target = q) ∨
        (¬ At source q ∧ t.directories.contains q = true) := by
  have hpick : ∀ {p}, (decide (p = source) || startsWith (source ++ ['/']) p) = true ↔
      At source p := fun {p} => by
    rw [Bool.or_eq_true, startsWith_slash_iff]
    simp [At]
  have hmove := fun v => lookup_move t.directories
    (fun p => decide (p = source) || startsWith (source ++ ['/']) p) hpick.mp hnone (j := q) (v := v)
  rw [OrdMap.contains_iff]
  simp only [moveSubtree, foldl_moveDir_eq, hmove]
  simp only [hpick, ← Bool.not_eq_true, OrdMap.contains_iff]
  constructor
  · rintro ⟨v, ⟨p, hp, hv, rfl⟩ | ⟨hq, hv⟩⟩
    · exact Or.inl ⟨p, hp, ⟨v, hv⟩, rfl⟩
    · exact Or.inr ⟨hq, v, hv⟩
  · rintro (⟨p, hp, ⟨v, hv⟩, rfl⟩ | ⟨hq, v, hv⟩)
    · exact ⟨v, Or.inl ⟨p, hp, hv, rfl⟩⟩
    · exact ⟨v, Or.inr ⟨hq, hv⟩⟩

theorem lookup_moveSubtree_files (source : Str)
    (hnone : ∀ {p}, At target p → t.files.contains p = false) {q : Str} {v : Bytes} :
    (t.moveSubtree source target).files.lookup q = some v ↔
      (∃ p, Below source p ∧ t.files.lookup p = some v ∧ rebased p source target = q) ∨
        (¬ Below source q ∧ t.files.lookup q = some v) := by
  have hmove := lookup_move t.files (fun p => startsWith (source ++ ['/']) p)
    (fun hp => Or.inr (startsWith_slash_iff.mp hp)) hnone (j := q) (v := v)
  have hfold : (t.moveSubtree source target).files =
      (t.files.entries.filter fun e => startsWith (source ++ ['/']) e.1).foldl
        (OrdMap.rekey fun p => rebased p source target) t.files := rfl
  rw [hfold, hmove]
  simp only [startsWith_slash_iff, ← Bool.not_eq_true]

/-- Moving a directory to a free place whose parents are there keeps the shape. The place is not inside the
    directory. -/
theorem WellFormed.moveSubtree (h : t.WellFormed) (hs : t.directories.contains source = true)
    (hfree : ∀ {p}, At target p → t.existsAt p = false)
    (hparents : ∀ {p}, p ≠ [] → Below p target → t.directories.contains p = true)
    (hout : ¬ At source target) : (t.moveSubtree source target).WellFormed := by
  have hfreeD : ∀ {p}, At target p → t.directories.contains p = false := fun hp =>
    (existsAt_eq_false_iff.mp (hfree hp)).2
  have hfreeF : ∀ {p}, At target p → t.files.contains p = false := fun hp =>
    (existsAt_eq_false_iff.mp (hfree hp)).1
  have hdirs := fun {q} => contains_moveSubtree_directories source hfreeD (q := q)
  have hfiles := fun {q v} => lookup_moveSubtree_files source hfreeF (q := q) (v := v)
  -- an entry of the new tree was moved from below `source`, or stayed, outside it
  have hentry : ∀ {q}, (t.moveSubtree source target).existsAt q = true →
      (∃ p, At source p ∧ t.existsAt p = true ∧ rebased p source target = q) ∨
        (¬ Below source q ∧ t.existsAt q = true) := by
    intro q hq
    rcases existsAt_iff.mp hq with hq | hq
    · obtain ⟨v, hv⟩ := OrdMap.contains_iff.mp hq
      rcases hfiles.mp hv with ⟨p, hp, hl, rfl⟩ | ⟨hn, hl⟩
      · exact Or.inl ⟨p, Or.inr hp, existsAt_iff.mpr (Or.inl (OrdMap.contains_iff.mpr ⟨v, hl⟩)), rfl⟩
      · exact Or.inr ⟨hn, existsAt_iff.mpr (Or.inl (OrdMap.contains_iff.mpr ⟨v, hl⟩))⟩
    · rcases hdirs.mp hq with ⟨p, hp, hl, rfl⟩ | ⟨hn, hl⟩
      · exact Or.inl ⟨p, hp, existsAt_iff.mpr (Or.inr hl), rfl⟩
      · exact Or.inr ⟨fun hb => hn (Or.inr hb), existsAt_iff.mpr (Or.inr hl)⟩
  refine ⟨fun {q} hf => Bool.eq_false_iff.mpr fun hd => ?_, fun {p q} hq hne hb => ?_⟩
  · -- a file and a directory at one path: each was moved or stayed, and in no case are they the same
    obtain ⟨v, hv⟩ := OrdMap.contains_iff.mp hf
    rcases hfiles.mp hv with ⟨p, hp, hl, rfl⟩ | ⟨-, hl⟩
    · rcases hdirs.mp hd with ⟨p', hp', hl', heq⟩ | ⟨-, hl'⟩
      · rw [rebased_injective hp' (Or.inr hp) heq, h.disjoint (OrdMap.contains_iff.mpr ⟨v, hl⟩)] at hl'
        cases hl'
      · rw [hfreeD (rebased_at target (Or.inr hp))] at hl'
        cases hl'
    · rcases hdirs.mp hd with ⟨p', hp', -, rfl⟩ | ⟨-, hl'⟩
      · have hnot := hfreeF (rebased_at target hp')
        rw [OrdMap.contains_iff.mpr ⟨v, hl⟩] at hnot
        cases hnot
      · rw [h.disjoint (OrdMap.contains_iff.mpr ⟨v, hl⟩)] at hl'
        cases hl'
  · refine hdirs.mpr ?_
    -- the directories above the target are outside the subtree that moves
    have habove : ∀ {r}, r ≠ [] → Below r target →
        ¬ At source r ∧ t.directories.contains r = true := fun hr hbr =>
      ⟨fun hat => hout (Or.inr (hat.below hbr)), hparents hr hbr⟩
    rcases hentry hq with ⟨q', hq', hex, rfl⟩ | ⟨hn, hex⟩
    · obtain ⟨u, rfl⟩ := hq'.exists_suffix
      rw [rebased_append] at hb
      rcases rebased_at target hq' with heq | hbt
      · rw [rebased_append] at heq
        rw [heq] at hb
        exact Or.inr (habove hne hb)
      · rw [rebased_append] at hbt
        rcases Below.linear hb hbt with rfl | hpt | ⟨w, rfl⟩
        · exact Or.inl ⟨source, Or.inl rfl, hs, by simpa using rebased_append source p []⟩
        · exact Or.inr (habove hne hpt)
        · -- between the target and the entry: the same text below the source
          obtain ⟨x, hx⟩ := hb
          have hu : u = '/' :: w ++ '/' :: x := by
            simpa using hx
          refine Or.inl ⟨source ++ '/' :: w, Or.inr ⟨w, rfl⟩, ?_, rebased_append _ _ _⟩
          exact h.parents hex (by simp) ⟨x, by simp [hu]⟩
    · exact Or.inr ⟨fun hat => hn (hat.below hb), h.parents hex hne hb⟩

end Move

end FileTree

end Afos
