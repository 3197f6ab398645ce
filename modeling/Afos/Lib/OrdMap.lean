import Mathlib

/-!
# Ordered maps

A map from an ordered type, kept as a list of entries in strictly ascending key order. The
order is a field, so a map with a repeated key or with its entries out of order cannot be
written down, and two maps with the same lookups are *equal* (`ext_lookup`): iterating over
a map is a function of the map and not of the insertions that built it.

A set of keys is a map to `Unit`; `contains` is membership in both readings.
-/

set_option autoImplicit false

namespace Afos.Lib

/-- Entries in strictly ascending key order. The order is a field, so two maps with the same lookups are equal, and
    listing one gives the keys sorted and each of them once. -/
structure OrdMap (κ ν : Type) [LinearOrder κ] where
  entries : List (κ × ν)
  ascending : entries.Pairwise (fun a b => a.1 < b.1)

/-- An ordered set is an ordered map that carries nothing. Every lemma about keys is then there for sets as well. -/
abbrev OrdSet (κ : Type) [LinearOrder κ] := OrdMap κ Unit

namespace OrdMap

variable {κ ν : Type} [LinearOrder κ]

instance [DecidableEq ν] : DecidableEq (OrdMap κ ν) := fun m n =>
  decidable_of_iff (m.entries = n.entries) (by cases m; cases n; simp)

def empty : OrdMap κ ν := ⟨[], List.Pairwise.nil⟩

instance : Inhabited (OrdMap κ ν) := ⟨empty⟩

/-- The value stored under a key, in an entry list. Only the first entry with the key counts; in an ascending list
    there is no second. -/
def lookupIn (k : κ) : List (κ × ν) → Option ν
  | [] => none
  | e :: rest => if e.1 = k then some e.2 else lookupIn k rest

/-- Put a value under a key, in an entry list: in place of the entry with that key, or
    before the first greater one. -/
def insertIn (k : κ) (v : ν) : List (κ × ν) → List (κ × ν)
  | [] => [(k, v)]
  | e :: rest =>
      if k < e.1 then (k, v) :: e :: rest
      else if k = e.1 then (k, v) :: rest
      else e :: insertIn k v rest

theorem fst_mem_insertIn {k : κ} {v : ν} {e : κ × ν} :
    ∀ {l : List (κ × ν)}, e ∈ insertIn k v l → e = (k, v) ∨ e ∈ l := by
  intro l
  induction l with
  | nil => intro h; exact Or.inl (by simpa [insertIn] using h)
  | cons a rest ih =>
    intro h
    simp only [insertIn] at h
    split at h
    · rcases List.mem_cons.mp h with h | h
      · exact Or.inl h
      · exact Or.inr h
    · split at h
      · rcases List.mem_cons.mp h with h | h
        · exact Or.inl h
        · exact Or.inr (List.mem_cons_of_mem _ h)
      · rcases List.mem_cons.mp h with rfl | h
        · exact Or.inr List.mem_cons_self
        · rcases ih h with h | h
          · exact Or.inl h
          · exact Or.inr (List.mem_cons_of_mem _ h)

theorem ascending_insertIn {k : κ} {v : ν} {l : List (κ × ν)}
    (h : l.Pairwise (fun a b => a.1 < b.1)) :
    (insertIn k v l).Pairwise (fun a b => a.1 < b.1) := by
  induction l with
  | nil => simp [insertIn]
  | cons a rest ih =>
    rw [List.pairwise_cons] at h
    simp only [insertIn]
    split
    case isTrue hlt =>
      refine List.pairwise_cons.mpr ⟨fun b hb => ?_, List.pairwise_cons.mpr h⟩
      rcases List.mem_cons.mp hb with rfl | hb
      · exact hlt
      · exact lt_trans hlt (h.1 b hb)
    case isFalse hge =>
      split
      case isTrue heq =>
        refine List.pairwise_cons.mpr ⟨fun b hb => ?_, h.2⟩
        simpa [heq] using h.1 b hb
      case isFalse hne =>
        refine List.pairwise_cons.mpr ⟨fun b hb => ?_, ih h.2⟩
        rcases fst_mem_insertIn hb with rfl | hb
        · exact lt_of_le_of_ne (not_lt.mp hge) (Ne.symm hne)
        · exact h.1 b hb

def lookup (m : OrdMap κ ν) (k : κ) : Option ν := lookupIn k m.entries

def contains (m : OrdMap κ ν) (k : κ) : Bool := (m.lookup k).isSome

def insert (m : OrdMap κ ν) (k : κ) (v : ν) : OrdMap κ ν :=
  ⟨insertIn k v m.entries, ascending_insertIn m.ascending⟩

/-- Keep the entries that satisfy a test on key and value. The order is that of a sublist, so there is nothing to
    sort. -/
def retain (m : OrdMap κ ν) (p : κ → ν → Bool) : OrdMap κ ν :=
  ⟨m.entries.filter (fun e => p e.1 e.2), m.ascending.filter _⟩

def remove (m : OrdMap κ ν) (k : κ) : OrdMap κ ν := m.retain (fun k' _ => k' ≠ k)

def keys (m : OrdMap κ ν) : List κ := m.entries.map Prod.fst

def isEmpty (m : OrdMap κ ν) : Bool := m.entries.isEmpty

/-! ## Lookups decide the map -/

theorem lookupIn_eq_some_iff {k : κ} {v : ν} : ∀ {l : List (κ × ν)},
    l.Pairwise (fun a b => a.1 < b.1) → (lookupIn k l = some v ↔ (k, v) ∈ l) := by
  intro l
  induction l with
  | nil => intro _; simp [lookupIn]
  | cons a rest ih =>
    intro h
    rw [List.pairwise_cons] at h
    simp only [lookupIn]
    split
    case isTrue heq =>
      -- a later entry with the same key would be strictly greater than this one
      constructor
      · intro hv
        simp only [Option.some.injEq] at hv
        subst heq; subst hv
        exact List.mem_cons_self
      · intro hm
        rcases List.mem_cons.mp hm with rfl | hm
        · rfl
        · exact absurd (h.1 _ hm) (by simp [heq])
    case isFalse hne =>
      rw [ih h.2, List.mem_cons]
      constructor
      · exact Or.inr
      · rintro (rfl | hm)
        · exact absurd rfl hne
        · exact hm

theorem lookup_eq_some_iff {m : OrdMap κ ν} {k : κ} {v : ν} :
    m.lookup k = some v ↔ (k, v) ∈ m.entries := lookupIn_eq_some_iff m.ascending

theorem contains_iff {m : OrdMap κ ν} {k : κ} :
    m.contains k = true ↔ ∃ v, m.lookup k = some v := by
  rw [contains, Option.isSome_iff_exists]

theorem contains_eq_false_iff {m : OrdMap κ ν} {k : κ} :
    m.contains k = false ↔ m.lookup k = none := by
  rw [contains, Option.isSome_eq_false_iff, Option.isNone_iff_eq_none]

theorem mem_keys_iff {m : OrdMap κ ν} {k : κ} : k ∈ m.keys ↔ m.contains k = true := by
  rw [contains_iff, keys, List.mem_map]
  constructor
  · rintro ⟨e, he, rfl⟩
    exact ⟨e.2, lookup_eq_some_iff.mpr he⟩
  · rintro ⟨v, hv⟩
    exact ⟨(k, v), lookup_eq_some_iff.mp hv, rfl⟩

@[simp] theorem lookup_empty (k : κ) : (empty : OrdMap κ ν).lookup k = none := rfl

@[simp] theorem contains_empty (k : κ) : (empty : OrdMap κ ν).contains k = false := rfl

/-- Two ascending lists with the same members are the same list. It is what makes equality of maps a statement about
    lookups. -/
theorem entries_eq_of_mem_iff : ∀ {l l' : List (κ × ν)},
    l.Pairwise (fun a b => a.1 < b.1) → l'.Pairwise (fun a b => a.1 < b.1) →
      (∀ e, e ∈ l ↔ e ∈ l') → l = l' := by
  intro l
  induction l with
  | nil =>
    intro l' _ _ hmem
    exact (List.eq_nil_iff_forall_not_mem.mpr fun e he => by simpa using (hmem e).mpr he).symm
  | cons a rest ih =>
    intro l' h h' hmem
    cases l' with
    | nil => exact absurd ((hmem a).mp List.mem_cons_self) (by simp)
    | cons b rest' =>
      rw [List.pairwise_cons] at h h'
      -- the heads agree: each is a least key of the same set of entries
      have hab : a = b := by
        rcases List.mem_cons.mp ((hmem a).mp List.mem_cons_self) with hab | ha
        · exact hab
        · rcases List.mem_cons.mp ((hmem b).mpr List.mem_cons_self) with hba | hb
          · exact hba.symm
          · exact absurd (h.1 b hb) (not_lt_of_gt (h'.1 a ha))
      subst hab
      congr 1
      refine ih h.2 h'.2 fun e => ?_
      constructor
      · intro he
        rcases List.mem_cons.mp ((hmem e).mp (List.mem_cons_of_mem _ he)) with rfl | he'
        · exact absurd (h.1 e he) (lt_irrefl _)
        · exact he'
      · intro he
        rcases List.mem_cons.mp ((hmem e).mpr (List.mem_cons_of_mem _ he)) with rfl | he'
        · exact absurd (h'.1 e he) (lt_irrefl _)
        · exact he'

theorem ext_entries {m n : OrdMap κ ν} (h : m.entries = n.entries) : m = n := by
  cases m; cases n
  simpa using h

theorem ext_lookup {m n : OrdMap κ ν} (h : ∀ k, m.lookup k = n.lookup k) : m = n := by
  refine ext_entries (entries_eq_of_mem_iff m.ascending n.ascending fun e => ?_)
  obtain ⟨k, v⟩ := e
  rw [← lookup_eq_some_iff, ← lookup_eq_some_iff, h k]

/-! ## The operations, through lookups -/

theorem lookupIn_insertIn {k j : κ} {v : ν} : ∀ {l : List (κ × ν)},
    l.Pairwise (fun a b => a.1 < b.1) →
      lookupIn j (insertIn k v l) = if k = j then some v else lookupIn j l := by
  intro l
  induction l with
  | nil => intro _; simp [insertIn, lookupIn]
  | cons a rest ih =>
    intro h
    rw [List.pairwise_cons] at h
    simp only [insertIn]
    split
    case isTrue hlt =>
      by_cases hj : k = j
      · simp [lookupIn, hj]
      · simp [lookupIn, hj]
    case isFalse hge =>
      split
      case isTrue heq =>
        by_cases hj : k = j
        · simp [lookupIn, hj]
        · have hj' : ¬ a.1 = j := fun hq => hj (heq.trans hq)
          simp [lookupIn, hj, hj']
      case isFalse hne =>
        simp only [lookupIn, ih h.2]
        by_cases haj : a.1 = j
        · have hkj : ¬ k = j := fun hq => hne (hq.trans haj.symm)
          simp [haj, hkj]
        · simp [haj]

@[simp] theorem lookup_insert (m : OrdMap κ ν) (k j : κ) (v : ν) :
    (m.insert k v).lookup j = if k = j then some v else m.lookup j :=
  lookupIn_insertIn m.ascending

@[simp] theorem contains_insert (m : OrdMap κ ν) (k j : κ) (v : ν) :
    (m.insert k v).contains j = (decide (k = j) || m.contains j) := by
  rw [contains, lookup_insert, contains]
  by_cases h : k = j
  · simp [h]
  · simp [h]

theorem lookup_retain (m : OrdMap κ ν) (p : κ → ν → Bool) (k : κ) :
    (m.retain p).lookup k = (m.lookup k).filter (p k) := by
  apply Option.ext
  intro v
  rw [lookup_eq_some_iff, retain, List.mem_filter, ← lookup_eq_some_iff,
    Option.filter_eq_some_iff]

@[simp] theorem lookup_remove (m : OrdMap κ ν) (k j : κ) :
    (m.remove k).lookup j = if k = j then none else m.lookup j := by
  rw [remove, lookup_retain]
  by_cases h : k = j
  · subst h; cases m.lookup k <;> simp
  · have h' : ¬ j = k := fun hq => h hq.symm
    cases m.lookup j <;> simp [h, h']

@[simp] theorem contains_remove (m : OrdMap κ ν) (k j : κ) :
    (m.remove k).contains j = (decide (k ≠ j) && m.contains j) := by
  rw [contains, lookup_remove, contains]
  by_cases h : k = j
  · simp [h]
  · simp [h]

theorem insert_insert (m : OrdMap κ ν) (k : κ) (v w : ν) :
    (m.insert k v).insert k w = m.insert k w := by
  refine ext_lookup fun j => ?_
  rw [lookup_insert, lookup_insert, lookup_insert]
  by_cases h : k = j
  · rw [if_pos h, if_pos h]
  · rw [if_neg h, if_neg h, if_neg h]

theorem remove_insert {m : OrdMap κ ν} {k : κ} (h : m.contains k = false) (v : ν) :
    (m.insert k v).remove k = m := by
  refine ext_lookup fun j => ?_
  rw [lookup_remove, lookup_insert]
  by_cases hj : k = j
  · subst hj
    rw [if_pos rfl, contains_eq_false_iff.mp h]
  · rw [if_neg hj, if_neg hj]

/-- Inserting what is already there changes nothing, not even the list: the entry is replaced by itself. -/
theorem insert_eq_self {m : OrdMap κ ν} {k : κ} {v : ν} (h : m.lookup k = some v) :
    m.insert k v = m := by
  refine ext_lookup fun j => ?_
  rw [lookup_insert]
  by_cases hj : k = j
  · subst hj; simp [h]
  · simp [hj]

/-! ## Building a map from its entries -/

/-- A key above all others goes to the end. Collecting an ascending list is then appending, entry by entry. -/
theorem insertIn_of_forall_lt {k : κ} {v : ν} {l : List (κ × ν)} (h : ∀ e ∈ l, e.1 < k) :
    insertIn k v l = l ++ [(k, v)] := by
  induction l with
  | nil => rfl
  | cons a rest ih =>
    have ha : a.1 < k := h a List.mem_cons_self
    rw [insertIn, if_neg (not_lt_of_gt ha), if_neg (ne_of_gt ha),
      ih fun e he => h e (List.mem_cons_of_mem _ he)]
    rfl

theorem entries_foldl_insert {l : List (κ × ν)} (m : OrdMap κ ν)
    (h : (m.entries ++ l).Pairwise (fun a b => a.1 < b.1)) :
    (l.foldl (fun m e => m.insert e.1 e.2) m).entries = m.entries ++ l := by
  induction l generalizing m with
  | nil => simp
  | cons a l ih =>
    have ha : ∀ e ∈ m.entries, e.1 < a.1 := fun e he =>
      (List.pairwise_append.mp h).2.2 e he a List.mem_cons_self
    have hm : (m.insert a.1 a.2).entries = m.entries ++ [a] := insertIn_of_forall_lt ha
    rw [List.append_cons] at h
    rw [List.foldl_cons, ih _ (by rwa [hm]), hm, ← List.append_cons]

/-- Inserting the entries of a map one after the other gives the map. A reader that collects what a writer has listed
    gets it back by this. -/
theorem foldl_insert_entries (m : OrdMap κ ν) :
    m.entries.foldl (fun m e => m.insert e.1 e.2) empty = m :=
  ext_entries (entries_foldl_insert empty m.ascending)

theorem foldl_insert_keys (m : OrdSet κ) :
    m.keys.foldl (fun m k => m.insert k ()) empty = m := by
  rw [keys, List.foldl_map]
  exact m.foldl_insert_entries

theorem mem_foldl_insert {l : List (κ × ν)} {m : OrdMap κ ν} {e : κ × ν}
    (h : e ∈ (l.foldl (fun m e => m.insert e.1 e.2) m).entries) : e ∈ m.entries ∨ e ∈ l := by
  induction l generalizing m with
  | nil => exact Or.inl h
  | cons a l ih =>
    rcases ih h with hm | hl
    · rcases fst_mem_insertIn hm with rfl | hm
      · exact Or.inr List.mem_cons_self
      · exact Or.inl hm
    · exact Or.inr (List.mem_cons_of_mem a hl)

theorem nodup_entries (m : OrdMap κ ν) : m.entries.Nodup :=
  m.ascending.imp fun hlt heq => (heq ▸ hlt).ne rfl

theorem ascending_keys (m : OrdMap κ ν) : m.keys.Pairwise (· < ·) := List.pairwise_map.mpr m.ascending

/-- A map that is collected from a list has no entries but the list's, and none of them twice. The list need not be
    sorted, and may repeat a key. -/
theorem subperm_foldl_insert (l : List (κ × ν)) :
    (l.foldl (fun m e => m.insert e.1 e.2) empty).entries.Subperm l := by
  refine List.subperm_of_subset (nodup_entries _) fun e he => ?_
  exact (mem_foldl_insert he).resolve_left (by intro h; cases h)

theorem foldl_insert_unit (l : List κ) (m : OrdSet κ) :
    l.foldl (fun m k => m.insert k ()) m =
      (l.map fun k => (k, ())).foldl (fun m e => m.insert e.1 e.2) m := by
  rw [List.foldl_map]

theorem subperm_keys_foldl_insert (l : List κ) :
    (l.foldl (fun m k => m.insert k ()) (empty : OrdSet κ)).keys.Subperm l := by
  refine List.subperm_of_subset ((ascending_keys _).imp ne_of_lt) fun k hk => ?_
  obtain ⟨e, he, rfl⟩ := List.mem_map.mp hk
  rw [foldl_insert_unit] at he
  obtain ⟨j, hj, rfl⟩ := List.mem_map.mp ((subperm_foldl_insert _).subset he)
  exact hj

theorem keys_foldl_insert {l : List κ} (h : l.Pairwise (· < ·)) :
    (l.foldl (fun m k => m.insert k ()) (empty : OrdSet κ)).keys = l := by
  have hentries := entries_foldl_insert (l := l.map fun k => (k, ())) empty
    (List.pairwise_map.mpr (h.imp fun h => h))
  rw [keys, foldl_insert_unit, hentries, empty, List.nil_append, List.map_map]
  exact List.map_id l

/-! ## Moving entries to other keys -/

/-- Take the entry with the key of `e` out and put `e`'s value back under another key. Folding it over some of the
    entries moves them all, one at a time. -/
def rekey (f : κ → κ) (m : OrdMap κ ν) (e : κ × ν) : OrdMap κ ν :=
  (m.remove e.1).insert (f e.1) e.2

/-- Moving entries one by one, when no new key is one of the old ones and no two new keys are
    the same: a moved value is found under its new key, an old key is gone, and everything
    else is where it was. -/
theorem lookup_foldl_rekey {f : κ → κ} {l : List (κ × ν)} {j : κ} {v : ν} (m : OrdMap κ ν)
    (hfresh : ∀ e ∈ l, ∀ e' ∈ l, f e.1 ≠ e'.1)
    (hinj : l.Pairwise (fun e e' => f e.1 ≠ f e'.1)) :
    (l.foldl (rekey f) m).lookup j = some v ↔
      (∃ e ∈ l, f e.1 = j ∧ e.2 = v) ∨
        (∀ e ∈ l, f e.1 ≠ j) ∧ (∀ e ∈ l, e.1 ≠ j) ∧ m.lookup j = some v := by
  induction l generalizing m with
  | nil => simp
  | cons a l ih =>
    rw [List.pairwise_cons] at hinj
    rw [List.foldl_cons,
      ih (rekey f m a) (fun e he e' he' => hfresh e (List.mem_cons_of_mem _ he) e'
        (List.mem_cons_of_mem _ he')) hinj.2, rekey, lookup_insert, lookup_remove]
    simp only [List.mem_cons, exists_eq_or_imp, forall_eq_or_imp]
    by_cases hj : f a.1 = j
    · -- `a` is the entry that ends up here; no later step touches it
      have h1 : ¬ ∃ e ∈ l, f e.1 = j ∧ e.2 = v := by
        rintro ⟨e, he, hq, -⟩
        exact hinj.1 e he (hj.trans hq.symm)
      have h2 : ∀ e ∈ l, f e.1 ≠ j := fun e he hq => hinj.1 e he (hj.trans hq.symm)
      have h3 : ∀ e ∈ l, e.1 ≠ j := fun e he hq =>
        hfresh a List.mem_cons_self e (List.mem_cons_of_mem _ he) (hj.trans hq.symm)
      rw [if_pos hj]
      constructor
      · rintro (h | ⟨-, -, h⟩)
        · exact absurd h h1
        · exact Or.inl (Or.inl ⟨hj, Option.some.inj h⟩)
      · rintro ((⟨-, rfl⟩ | h) | ⟨⟨hne, -⟩, -⟩)
        · exact Or.inr ⟨h2, h3, rfl⟩
        · exact absurd h h1
        · exact absurd hj hne
    · rw [if_neg hj]
      by_cases ha : a.1 = j
      · rw [if_pos ha]
        simp only [hj, ne_eq, not_not.mpr ha, reduceCtorEq, false_and, and_false, false_or, or_false]
      · rw [if_neg ha]
        simp only [hj, ha, ne_eq, not_false_eq_true, true_and, false_and, false_or]

/-! ## Values under their keys

A list of values with a key each, gathered into a map one after the other. When values with the
same key are the same, it makes no difference in which order they come, or whether an earlier or
a later one stays. -/

variable {key : ν → κ} {l : List ν} {m : OrdMap κ ν}

/-- The map holds the values of the list, each under its key. Stated both ways, so that a map that has been gathered
    can be traded for the list that it was gathered from. -/
def Indexes (key : ν → κ) (l : List ν) (m : OrdMap κ ν) : Prop :=
  ∀ k a, m.lookup k = some a ↔ a ∈ l ∧ key a = k

theorem indexes_empty : Indexes key [] (empty : OrdMap κ ν) := by
  intro k a
  simp [lookup_empty]

/-- One more value, which takes its place or leaves it to one with the same key. Which of the two it is does not
    matter if values of one key are equal. -/
theorem Indexes.step (h : Indexes key l m) {m' : OrdMap κ ν} {a : ν}
    (hsame : ∀ b ∈ l, key b = key a → b = a)
    (hother : ∀ k, key a ≠ k → m'.lookup k = m.lookup k)
    (hself : m'.lookup (key a) = some a ∨
      m.contains (key a) = true ∧ m'.lookup (key a) = m.lookup (key a)) :
    Indexes key (l ++ [a]) m' := by
  have hhere : m'.lookup (key a) = some a := by
    rcases hself with hself | ⟨hcontains, heq⟩
    · exact hself
    · obtain ⟨b, hb⟩ := contains_iff.mp hcontains
      obtain ⟨hmem, hkey⟩ := (h (key a) b).mp hb
      rw [heq, hb, hsame b hmem hkey]
  intro k b
  by_cases hk : key a = k
  · rw [← hk, hhere, Option.some.injEq, List.mem_append, List.mem_singleton]
    constructor
    · rintro rfl
      exact ⟨Or.inr rfl, rfl⟩
    · rintro ⟨hmem | rfl, hkey⟩
      · exact (hsame b hmem hkey).symm
      · rfl
  · rw [hother k hk, h k b, List.mem_append, List.mem_singleton]
    constructor
    · rintro ⟨hmem, hkey⟩
      exact ⟨Or.inl hmem, hkey⟩
    · rintro ⟨hmem | rfl, hkey⟩
      · exact ⟨hmem, hkey⟩
      · exact absurd hkey hk

theorem Indexes.insert (h : Indexes key l m) {a : ν} (hsame : ∀ b ∈ l, key b = key a → b = a) :
    Indexes key (l ++ [a]) (m.insert (key a) a) :=
  h.step hsame (fun k hk => by rw [lookup_insert, if_neg hk])
    (Or.inl (by rw [lookup_insert, if_pos rfl]))

theorem Indexes.insertNew (h : Indexes key l m) {a : ν} (hsame : ∀ b ∈ l, key b = key a → b = a) :
    Indexes key (l ++ [a]) (if m.contains (key a) then m else m.insert (key a) a) := by
  by_cases hcontains : m.contains (key a) = true
  · rw [if_pos hcontains]
    exact h.step hsame (fun _ _ => rfl) (Or.inr ⟨hcontains, rfl⟩)
  · rw [if_neg hcontains]
    exact h.insert hsame

/-- Gathering a list by steps that each add one value, by induction on the list with what has been gathered so far as
    the invariant. -/
theorem indexes_foldl {step : OrdMap κ ν → ν → OrdMap κ ν} {more : List ν}
    (hstep : ∀ {l m a}, Indexes key l m → (∀ b ∈ l, key b = key a → b = a) →
      Indexes key (l ++ [a]) (step m a))
    (h : Indexes key l m) (hsame : ∀ a ∈ l ++ more, ∀ b ∈ l ++ more, key a = key b → a = b) :
    Indexes key (l ++ more) (more.foldl step m) := by
  induction more generalizing l m with
  | nil =>
    rw [List.append_nil]
    exact h
  | cons a more ih =>
    rw [List.append_cons] at hsame ⊢
    refine ih (hstep h fun b hb => hsame b ?_ a ?_) hsame
    · exact List.mem_append_left _ (List.mem_append_left _ hb)
    · exact List.mem_append_left _ (List.mem_append_right _ (List.mem_singleton.mpr rfl))

theorem Indexes.mem_values (h : Indexes key l m) {a : ν} : a ∈ m.entries.map Prod.snd ↔ a ∈ l := by
  rw [List.mem_map]
  constructor
  · rintro ⟨⟨k, b⟩, hmem, rfl⟩
    exact ((h k b).mp (lookup_eq_some_iff.mpr hmem)).1
  · intro hmem
    exact ⟨(key a, a), lookup_eq_some_iff.mp ((h (key a) a).mpr ⟨hmem, rfl⟩), rfl⟩

/-- The values come out in the order of their keys, each key once, because the entries are. -/
theorem Indexes.ascending_values (h : Indexes key l m) :
    ((m.entries.map Prod.snd).map key).Pairwise (· < ·) := by
  have hkeys : (m.entries.map Prod.snd).map key = m.entries.map Prod.fst := by
    rw [List.map_map]
    refine List.map_congr_left fun e he => ?_
    exact ((h e.1 e.2).mp (lookup_eq_some_iff.mpr he)).2
  rw [hkeys]
  exact List.pairwise_map.mpr m.ascending

theorem Indexes.eq_of_mem_iff {l' : List ν} {m' : OrdMap κ ν} (h : Indexes key l m)
    (h' : Indexes key l' m') (hmem : ∀ a, a ∈ l ↔ a ∈ l') : m = m' := by
  apply ext_lookup
  intro k
  apply Option.ext
  intro a
  rw [h k a, h' k a, hmem a]

end OrdMap

end Afos.Lib
