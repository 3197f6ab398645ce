import Mathlib.Data.List.Infix
import Mathlib.Data.List.Nodup
import Mathlib.Tactic

/-!
# Tables of tables

What an address stands for is found by a walk: a table is entered at the first of a list of indices, and its entry is
another table, to be entered at the next index, or a leaf, which ends the walk at any height, or nothing.
Tables are named by frames, and a memory of them may hold any words; `decode n` reads a word in a table that has `n`
heights of tables below it.

A leaf is entered by going down to the last table, with new ones where there are none on the way (`insert`). Where no
table is reached in two ways and the new ones are not in use, this changes the walk to the new leaf; of all others it
ends those that pass the one entry where a table had to be put in place of what was there (`walk_insert`).
-/

set_option autoImplicit false

namespace Afos.Lib

/-- What a word in a table can be: the way to another table, the end of the walk, or nothing that a walk can use. -/
inductive Entry (F R : Type) where
  | table (next : F)
  | leaf (r : R)
  | fault
  deriving DecidableEq

namespace Paging

variable {F I W R : Type} (decode : Nat → W → Entry F R)

/-- The leaf at which a walk ends, and the indices that it leaves. A leaf may come early, and then stands for all that
    the indices left over could name. -/
def walk (t : F → I → W) : F → List I → Option (R × List I)
  | _, [] => none
  | f, i :: is =>
    match decode is.length (t f i) with
    | .table next => walk t next is
    | .leaf r => some (r, is)
    | .fault => none

/-- The table to which some indices lead from one with `n` heights below it. A walk passes through such tables, and a
    change in any other one does not matter to it. -/
def reach (t : F → I → W) : Nat → F → List I → Option F
  | _, f, [] => some f
  | 0, _, _ :: _ => none
  | n + 1, f, i :: is =>
    match decode (n + 1) (t f i) with
    | .table next => reach t n next is
    | _ => none

/-- No table is reached in two ways. Without it a change for one address could show at another one that runs through
    the same table. -/
def Unshared (t : F → I → W) (n : Nat) (f : F) : Prop :=
  ∀ is js g, reach decode t n f is = some g → reach decode t n f js = some g → is = js

/-- The indices up to the first entry that is not a table, or all of them. Walks with different stems have parted
    before either ended. -/
def stem (t : F → I → W) : F → List I → List I
  | _, [] => []
  | f, i :: is =>
    match decode is.length (t f i) with
    | .table next => i :: stem t next is
    | _ => [i]

variable [DecidableEq F] [DecidableEq I]

def set (t : F → I → W) (f : F) (i : I) (w : W) : F → I → W := fun g j => if g = f ∧ j = i then w else t g j

def clear (zero : W) (t : F → I → W) (f : F) : F → I → W := fun g j => if g = f then zero else t g j

/-- Put a word where a list of indices leads, with one of the tables `fresh` at each height where there is none. -/
def insert (link : F → W) (zero : W) : (F → I → W) → F → List I → List F → W → F → I → W
  | t, f, [i], _, w => set t f i w
  | t, f, i :: is, fresh :: rest, w =>
    match decode is.length (t f i) with
    | .table next => insert link zero t next is rest w
    | _ => insert link zero (set (clear zero t fresh) f i (link fresh)) fresh is rest w
  | t, _, _, _, _ => t

/-! ## Tables that a walk does not see -/

section Walk

omit [DecidableEq F] [DecidableEq I]

variable {decode} {t t' : F → I → W} {n : Nat} {f next : F} {i : I} {is : List I}

theorem walk_table (h : decode is.length (t f i) = .table next) : walk decode t f (i :: is) = walk decode t next is := by
  rw [walk, h]

@[simp]
theorem reach_nil : reach decode t n f [] = some f := by cases n <;> rfl

theorem reach_cons_table (h : decode (n + 1) (t f i) = .table next) (js : List I) :
    reach decode t (n + 1) f (i :: js) = reach decode t n next js := by
  rw [reach, h]

/-- A table that is reached is the first one, or the entry of an index leads on to it. It is the case split of every
    induction on heights. -/
theorem reach_cases {js : List I} {g : F} (h : reach decode t (n + 1) f js = some g) :
    js = [] ∧ g = f ∨
      ∃ i is next, js = i :: is ∧ decode (n + 1) (t f i) = .table next ∧ reach decode t n next is = some g := by
  cases js with
  | nil => exact Or.inl ⟨rfl, (Option.some.inj h).symm⟩
  | cons i is =>
    rw [reach] at h
    cases hentry : decode (n + 1) (t f i) with
    | table next =>
      rw [hentry] at h
      exact Or.inr ⟨i, is, next, rfl, hentry, h⟩
    | leaf r =>
      rw [hentry] at h
      cases h
    | fault =>
      rw [hentry] at h
      cases h

theorem Unshared.table (h : Unshared decode t (n + 1) f) (hnext : decode (n + 1) (t f i) = .table next) :
    Unshared decode t n next := by
  intro js ks g hjs hks
  have hcons := h (i :: js) (i :: ks) g (by rwa [reach_cons_table hnext]) (by rwa [reach_cons_table hnext])
  exact (List.cons.inj hcons).2

/-- A walk depends on the tables that can be reached, and of the first one on one entry. What is not among them may be
    changed at will. -/
theorem walk_congr : ∀ {is : List I} {f : F}, is.length = n + 1 → (∀ i ∈ is.head?, t' f i = t f i) →
    (∀ js g, reach decode t n f js = some g → js ≠ [] → js.head? = is.head? → ∀ i, t' g i = t g i) →
      walk decode t' f is = walk decode t f is := by
  induction n with
  | zero =>
    intro is f hlength hfirst _
    obtain ⟨i, rfl⟩ := List.length_eq_one_iff.mp hlength
    rw [walk, walk, hfirst i rfl]
    rcases decode _ (t f i) with next | r | _ <;> rfl
  | succ n ih =>
    intro is f hlength hfirst hrest
    obtain ⟨i, is, rfl⟩ := List.exists_cons_of_length_eq_add_one hlength
    have hbelow : is.length = n + 1 := by simpa using hlength
    rw [walk, walk, hfirst i rfl]
    cases hentry : decode is.length (t f i) with
    | leaf r => rfl
    | fault => rfl
    | table next =>
      rw [hbelow] at hentry
      have hsame : ∀ js g, reach decode t n next js = some g → ∀ j, t' g j = t g j := fun js g hjs =>
        hrest (i :: js) g (by rwa [reach_cons_table hentry]) (List.cons_ne_nil _ _) rfl
      exact ih hbelow (fun j _ => hsame [] next reach_nil j) fun js g hjs _ _ => hsame js g hjs

/-- A walk that ends at a leaf has used the indices up to it, and leaves the others in their order. -/
theorem stem_append_of_walk {r : R} {rest : List I} : ∀ {is : List I} {f : F}, walk decode t f is = some (r, rest) →
    stem decode t f is ++ rest = is
  | [], _, h => by cases h
  | i :: is, f, h => by
    rw [walk] at h
    rw [stem]
    cases hentry : decode is.length (t f i) with
    | table next =>
      rw [hentry] at h
      exact congrArg (i :: ·) (stem_append_of_walk h)
    | leaf r =>
      rw [hentry] at h
      cases h
      rfl
    | fault =>
      rw [hentry] at h
      cases h

/-- An empty table leads nowhere, so putting one in adds itself to what can be reached and nothing more. -/
theorem reach_of_empty {zero : W} (hzero : ∀ m, decode m zero = .fault) (hf : ∀ i, t f i = zero) {js : List I} {g : F}
    (h : reach decode t n f js = some g) : js = [] ∧ g = f := by
  cases js with
  | nil => exact ⟨rfl, by simpa using h.symm⟩
  | cons j js =>
    cases n with
    | zero => cases h
    | succ n =>
      rw [reach, hf j, hzero] at h
      cases h

theorem unshared_of_empty {zero : W} (hzero : ∀ m, decode m zero = .fault) (hf : ∀ i, t f i = zero) :
    Unshared decode t n f := by
  intro js ks g hjs hks
  rw [(reach_of_empty hzero hf hjs).1, (reach_of_empty hzero hf hks).1]

theorem walk_of_empty {zero : W} (hzero : ∀ m, decode m zero = .fault) (hf : ∀ i, t f i = zero) (js : List I) :
    walk decode t f js = none := by
  cases js with
  | nil => rfl
  | cons j js => rw [walk, hf j, hzero]

end Walk

/-! ## Entering a leaf -/

/-- There are enough tables to put in, different from each other and from those in use. It is kept by putting one of
    them in, with one fewer. -/
structure Ready (link : F → W) (t : F → I → W) (n : Nat) (f : F) (fresh : List F) : Prop where
  enough : n ≤ fresh.length
  nodup : fresh.Nodup
  unused : ∀ g ∈ fresh, ∀ js, reach decode t n f js ≠ some g
  links : ∀ g ∈ fresh, ∀ m, decode (m + 1) (link g) = .table g
  unshared : Unshared decode t n f

section Insert

variable {decode} {link : F → W} {zero w : W} {r : R} {t : F → I → W} {n : Nat} {f g next : F} {i : I}
  {is js : List I} {fresh rest : List F}

omit [DecidableEq F] [DecidableEq I] in
theorem Ready.table (h : Ready decode link t (n + 1) f (g :: rest)) (hnext : decode (n + 1) (t f i) = .table next) :
    Ready decode link t n next rest where
  enough := Nat.le_of_succ_le_succ h.enough
  nodup := (List.nodup_cons.mp h.nodup).2
  unused k hk js hjs := h.unused k (List.mem_cons_of_mem _ hk) (i :: js) (by rwa [reach_cons_table hnext])
  links k hk := h.links k (List.mem_cons_of_mem _ hk)
  unshared := h.unshared.table hnext

omit [DecidableEq F] [DecidableEq I] in
theorem Ready.ne (h : Ready decode link t n f fresh) (hg : g ∈ fresh) : f ≠ g := by
  rintro rfl
  exact h.unused f hg [] reach_nil

/-- The memory with the table `g` behind an entry: the table is emptied first, so what was in its memory before does
    not become part of a walk. -/
def linked (link : F → W) (zero : W) (t : F → I → W) (f : F) (i : I) (g : F) : F → I → W :=
  set (clear zero t g) f i (link g)

theorem linked_self (hne : f ≠ g) (j : I) : linked link zero t f i g g j = zero := by
  simp [linked, set, clear, hne.symm]

theorem linked_entry : linked link zero t f i g f i = link g := by simp [linked, set]

theorem linked_of_ne {k : F} (hk : k ≠ g) (hf : k ≠ f) (j : I) : linked link zero t f i g k j = t k j := by
  simp [linked, set, clear, hk, hf]

theorem linked_other {j : I} (hne : f ≠ g) (hj : j ≠ i) : linked link zero t f i g f j = t f j := by
  simp [linked, set, clear, hne, hj]

theorem Ready.linked (hzero : ∀ m, decode m zero = .fault) (h : Ready decode link t (n + 1) f (g :: rest)) :
    Ready decode link (linked link zero t f i g) n g rest := by
  have hempty : ∀ j, Paging.linked link zero t f i g g j = zero := linked_self (h.ne List.mem_cons_self)
  refine ⟨Nat.le_of_succ_le_succ h.enough, (List.nodup_cons.mp h.nodup).2, ?_,
    fun k hk => h.links k (List.mem_cons_of_mem _ hk), unshared_of_empty hzero hempty⟩
  intro k hk js hjs
  exact (List.nodup_cons.mp h.nodup).1 ((reach_of_empty hzero hempty hjs).2 ▸ hk)

theorem insert_table (h : decode is.length (t f i) = .table next) (hne : is ≠ []) :
    insert decode link zero t f (i :: is) (g :: rest) w = insert decode link zero t next is rest w := by
  rw [insert, h]
  exact hne

theorem insert_linked (h : ∀ next, decode is.length (t f i) ≠ .table next) (hne : is ≠ []) :
    insert decode link zero t f (i :: is) (g :: rest) w =
      insert decode link zero (linked link zero t f i g) g is rest w := by
  rw [insert]
  · cases hentry : decode is.length (t f i) with
    | table next => exact absurd hentry (h next)
    | leaf r => rfl
    | fault => rfl
  · exact hne

/-- What the memory `t'` makes of walks from `f`: one is new, those that shared its last entry are ended, and the others
    are as before. Tables that are neither reached nor put in are untouched. -/
structure Entered (decode : Nat → W → Entry F R) (r : R) (t : F → I → W) (n : Nat) (f : F) (is : List I)
    (fresh : List F) (t' : F → I → W) : Prop where
  frame : ∀ g, g ∉ fresh → (∀ js, reach decode t n f js ≠ some g) → ∀ i, t' g i = t g i
  self : walk decode t' f is = some (r, [])
  other : ∀ js, js.length = n + 1 → js ≠ is →
    walk decode t' f js = if stem decode t f is <+: js then none else walk decode t f js

theorem entered_set (hw : decode 0 w = .leaf r) (i : I) : Entered decode r t 0 f [i] fresh (set t f i w) where
  frame g _ hg j := by
    have hne : g ≠ f := by
      rintro rfl
      exact hg [] reach_nil
    simp [set, hne]
  self := by simp [walk, set, hw]
  other js hlength hjs := by
    obtain ⟨j, rfl⟩ := List.length_eq_one_iff.mp hlength
    have hj : j ≠ i := by
      rintro rfl
      exact hjs rfl
    have hstem : stem decode t f [i] = [i] := by
      rw [stem]
      cases decode [].length (t f i) <;> rfl
    rw [hstem, if_neg (by simpa using hj.symm)]
    simp [walk, set, hj]

omit [DecidableEq F] in
theorem Entered.table (hready : Ready decode link t (n + 1) f (g :: rest)) (hlength : is.length = n + 1)
    (hnext : decode (n + 1) (t f i) = .table next) {t' : F → I → W} (h : Entered decode r t n next is rest t') :
    Entered decode r t (n + 1) f (i :: is) (g :: rest) t' := by
  -- what is reached at another entry, and the table itself, is not reached behind this one
  have hapart : ∀ js k, reach decode t (n + 1) f js = some k → js.head? ≠ some i → ∀ j, t' k j = t k j := by
    intro js k hk hjs
    refine h.frame k (fun hmem => hready.unused k (List.mem_cons_of_mem _ hmem) js hk) fun ks hks => ?_
    have hsame := hready.unshared js (i :: ks) k hk (by rwa [reach_cons_table hnext])
    exact hjs (by rw [hsame]; rfl)
  have hf : ∀ j, t' f j = t f j := hapart [] f reach_nil (by simp)
  have hentry : decode is.length (t f i) = .table next := by rw [hlength, hnext]
  have hentry' : decode is.length (t' f i) = .table next := by rw [hf, hentry]
  refine ⟨fun k hk hreach => h.frame k (fun hmem => hk (List.mem_cons_of_mem _ hmem)) fun js hjs =>
    hreach (i :: js) (by rwa [reach_cons_table hnext]), ?_, ?_⟩
  · rw [walk_table hentry', h.self]
  · intro js hjs hne
    obtain ⟨j, js, rfl⟩ := List.exists_cons_of_length_eq_add_one hjs
    have hbelow : js.length = n + 1 := by simpa using hjs
    have hstem : stem decode t f (i :: is) = i :: stem decode t next is := by rw [stem, hentry]
    by_cases hj : j = i
    · subst hj
      rw [walk_table (by rw [hf, hbelow, hnext]), walk_table (by rw [hbelow, hnext]),
        h.other js hbelow (fun hsame => hne (by rw [hsame])), hstem]
      simp only [List.cons_prefix_cons, true_and]
    · rw [hstem, if_neg (fun hp => hj (List.cons_prefix_cons.mp hp).1.symm)]
      refine walk_congr hjs (fun k _ => hf k) fun ks k hk _ hhead => hapart ks k hk ?_
      rw [hhead]
      simpa using hj

theorem Entered.linked (hzero : ∀ m, decode m zero = .fault) (hready : Ready decode link t (n + 1) f (g :: rest))
    (hlength : is.length = n + 1) (hnone : ∀ next, decode (n + 1) (t f i) ≠ .table next) {t' : F → I → W}
    (h : Entered decode r (Paging.linked link zero t f i g) n g is rest t') :
    Entered decode r t (n + 1) f (i :: is) (g :: rest) t' := by
  have hne : f ≠ g := hready.ne List.mem_cons_self
  have hempty : ∀ j, Paging.linked link zero t f i g g j = zero := linked_self hne
  have hframe : ∀ k, k ∉ g :: rest → ∀ j, t' k j = Paging.linked link zero t f i g k j := by
    intro k hk
    refine h.frame k (fun hmem => hk (List.mem_cons_of_mem _ hmem)) fun js hjs => ?_
    exact hk ((reach_of_empty hzero hempty hjs).2 ▸ List.mem_cons_self)
  have hold : ∀ js k, reach decode t (n + 1) f js = some k → k ∉ g :: rest := fun js k hk hmem =>
    hready.unused k hmem js hk
  -- nothing below the new table reaches the one above it, so its entry is the link until the end
  have hf := hframe f (hold [] f reach_nil)
  have hentry' : decode is.length (t' f i) = .table g := by
    rw [hf, linked_entry, hlength, hready.links g List.mem_cons_self]
  refine ⟨fun k hk hreach j => ?_, ?_, ?_⟩
  · have hkf : k ≠ f := by
      rintro rfl
      exact hreach [] reach_nil
    have hkg : k ≠ g := by
      rintro rfl
      exact hk List.mem_cons_self
    rw [hframe k hk, linked_of_ne hkg hkf]
  · rw [walk_table hentry', h.self]
  · intro js hjs hjsne
    obtain ⟨j, js, rfl⟩ := List.exists_cons_of_length_eq_add_one hjs
    have hbelow : js.length = n + 1 := by simpa using hjs
    -- what was a block up to here is lost as a whole: the new table is empty beside the leaf
    have hstem : stem decode t f (i :: is) = [i] := by
      rw [stem, hlength]
      cases hentry : decode (n + 1) (t f i) with
      | table next => exact absurd hentry (hnone next)
      | leaf r => rfl
      | fault => rfl
    by_cases hj : j = i
    · subst hj
      rw [hstem, if_pos (List.cons_prefix_cons.mpr ⟨rfl, List.nil_prefix⟩), walk_table (by rw [hbelow, ← hlength, hentry']),
        h.other js hbelow (fun hsame => hjsne (by rw [hsame])), walk_of_empty hzero hempty, ite_self]
    · rw [hstem, if_neg (fun hp => hj (List.cons_prefix_cons.mp hp).1.symm)]
      refine walk_congr hjs (fun k hk => ?_) fun ks k hk hks hhead => ?_
      · obtain rfl : j = k := by simpa using hk
        rw [hf, linked_other hne hj]
      · have hkf : k ≠ f := by
          rintro rfl
          exact hks (hready.unshared ks [] k hk reach_nil)
        have hkg : k ≠ g := by
          rintro rfl
          exact hold ks k hk List.mem_cons_self
        intro j'
        rw [hframe k (hold ks k hk), linked_of_ne hkg hkf]

theorem walk_insert (hzero : ∀ m, decode m zero = .fault) (hw : decode 0 w = .leaf r) :
    ∀ {n : Nat} {t : F → I → W} {f : F} {is : List I} {fresh : List F}, Ready decode link t n f fresh →
      is.length = n + 1 → Entered decode r t n f is fresh (insert decode link zero t f is fresh w) := by
  intro n
  induction n with
  | zero =>
    intro t f is fresh _ hlength
    obtain ⟨i, rfl⟩ := List.length_eq_one_iff.mp hlength
    rw [insert]
    exact entered_set hw i
  | succ n ih =>
    intro t f is fresh hready hlength
    obtain ⟨i, is, rfl⟩ := List.exists_cons_of_length_eq_add_one hlength
    have hbelow : is.length = n + 1 := by simpa using hlength
    have hne : is ≠ [] := List.ne_nil_of_length_eq_add_one hbelow
    obtain ⟨g, rest, rfl⟩ : ∃ g rest, fresh = g :: rest :=
      List.exists_cons_of_ne_nil (List.ne_nil_of_length_pos (Nat.lt_of_lt_of_le n.succ_pos hready.enough))
    by_cases hnext : ∃ next, decode is.length (t f i) = .table next
    · obtain ⟨next, hnext⟩ := hnext
      rw [insert_table hnext hne]
      rw [hbelow] at hnext
      exact (ih (hready.table hnext) hbelow).table hready hbelow hnext
    · have hnone : ∀ next, decode is.length (t f i) ≠ .table next := fun next h => hnext ⟨next, h⟩
      rw [insert_linked hnone hne]
      rw [hbelow] at hnone
      exact (ih (hready.linked hzero) hbelow).linked hzero hready hbelow hnone

omit [DecidableEq F] [DecidableEq I] in
/-- A walk that ends in nothing ends so for all that begin as it does, up to the entry where it ends. -/
theorem walk_of_stem : ∀ {is : List I} {f : F} {js : List I}, walk decode t f is = none → is ≠ [] →
    js.length = is.length → stem decode t f is <+: js → walk decode t f js = none
  | [], _, _, _, hne, _, _ => absurd rfl hne
  | i :: is, f, js, hnone, _, hlength, hstem => by
    rw [walk] at hnone
    rw [stem] at hstem
    cases hentry : decode is.length (t f i) with
    | leaf r =>
      rw [hentry] at hnone
      cases hnone
    | fault =>
      rw [hentry] at hstem
      obtain ⟨js, rfl⟩ := hstem
      have hbelow : js.length = is.length := by simpa using hlength
      rw [List.singleton_append, walk, hbelow, hentry]
    | table next =>
      rw [hentry] at hstem hnone
      obtain ⟨j, js, rfl⟩ := List.exists_cons_of_length_eq_add_one hlength
      obtain ⟨rfl, hrest⟩ := List.cons_prefix_cons.mp hstem
      have hbelow : js.length = is.length := by simpa using hlength
      rw [walk_table (by rw [hbelow, hentry])]
      by_cases hnil : is = []
      · subst hnil
        rw [List.length_eq_zero_iff.mp hbelow]
        rfl
      · exact walk_of_stem hnone hnil hbelow hrest

omit [DecidableEq F] in
/-- Where there was nothing on the way, all other walks are as before. Otherwise the entry that gives way to a table
    may have been the end for other addresses as well. -/
theorem Entered.other_of_none {t' : F → I → W} (h : Entered decode r t n f is fresh t')
    (hnone : walk decode t f is = none) (his : is.length = n + 1) {js : List I} (hjs : js.length = n + 1)
    (hne : js ≠ is) : walk decode t' f js = walk decode t f js := by
  rw [h.other js hjs hne]
  split
  · exact (walk_of_stem hnone (List.ne_nil_of_length_eq_add_one his) (hjs.trans his.symm) ‹_›).symm
  · rfl

end Insert

end Paging

end Afos.Lib
