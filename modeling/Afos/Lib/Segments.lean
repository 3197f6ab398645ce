import Afos.Lib.Text

/-!
# Paths as lists of names

A path is written as names with slashes between them, and compared as text. `join` is the
writing; this file says that on lists of names it loses nothing (`join_injective`), and that
the textual test "starts with `p/`" *is* the test "has the names of `p` as a proper prefix"
(`join_eq_join_slash_iff`). The second is the one that fails without the hypothesis that
names are free of slashes and not empty, and everything above that compares paths as
strings rests on it.

`Below p q` is the textual relation itself, read off the strings alone: `q` is `p`, a slash
and something more.
-/

set_option autoImplicit false

namespace Afos.Lib

/-- What may stand between two slashes: a text that is not empty and has no slash itself. Dots are names here. -/
def IsName (c : Str) : Prop := c ≠ [] ∧ '/' ∉ c

/-- A name that stands for itself: neither the current directory nor its parent. Paths of such names mean what they
    say. -/
def IsOrdinary (c : Str) : Prop := IsName c ∧ c ≠ ".".toList ∧ c ≠ "..".toList

instance (c : Str) : Decidable (IsName c) := inferInstanceAs (Decidable (_ ∧ _))

instance (c : Str) : Decidable (IsOrdinary c) := inferInstanceAs (Decidable (_ ∧ _))

/-- Names with slashes between them, and none at either end. On names it can be undone, by `names`. -/
def join (cs : List Str) : Str := List.intercalate ['/'] cs

/-- The names of a path: what stands between its slashes, doubled ones counted once, and those at the ends not at
    all. -/
def names (s : Str) : List Str := (s.splitOn '/').filter (· ≠ [])

@[simp] theorem join_nil : join [] = [] := rfl

@[simp] theorem join_singleton (c : Str) : join [c] = c := List.intercalate_singleton

theorem join_cons_cons (c d : Str) (cs : List Str) :
    join (c :: d :: cs) = c ++ '/' :: join (d :: cs) := by
  simp [join, List.intercalate_cons_cons]

theorem join_cons {c : Str} {cs : List Str} (h : cs ≠ []) :
    join (c :: cs) = c ++ '/' :: join cs := by
  cases cs with
  | nil => exact absurd rfl h
  | cons d cs => exact join_cons_cons c d cs

theorem join_append {a b : List Str} (ha : a ≠ []) (hb : b ≠ []) :
    join (a ++ b) = join a ++ '/' :: join b := by
  induction a with
  | nil => exact absurd rfl ha
  | cons c a ih =>
    cases a with
    | nil => simpa using join_cons hb
    | cons d a =>
      have h := ih (by simp)
      simp only [List.cons_append] at h
      simp only [List.cons_append]
      rw [join_cons_cons, join_cons_cons, h]
      simp

theorem splitOn_join {cs : List Str} (hn : ∀ c ∈ cs, IsName c) (hne : cs ≠ []) :
    (join cs).splitOn '/' = cs :=
  List.splitOn_intercalate '/' (fun c hc => (hn c hc).2) hne

theorem splitOn_of_isName {c : Str} (h : IsName c) : c.splitOn '/' = [c] := by
  have hc : ∀ d ∈ [c], IsName d := fun d hd => List.mem_singleton.mp hd ▸ h
  have hsplit := splitOn_join hc (List.cons_ne_nil _ _)
  rwa [join_singleton] at hsplit

theorem join_splitOn (s : Str) : join (s.splitOn '/') = s := List.intercalate_splitOn '/'

theorem filter_names {cs : List Str} (hn : ∀ c ∈ cs, IsName c) :
    cs.filter (fun c => decide (c ≠ [])) = cs :=
  List.filter_eq_self.mpr fun c hc => by simpa using (hn c hc).1

@[simp] theorem names_join {cs : List Str} (hn : ∀ c ∈ cs, IsName c) : names (join cs) = cs := by
  by_cases hne : cs = []
  · subst hne; rfl
  · rw [names, splitOn_join hn hne, filter_names hn]

theorem names_slash (s : Str) : names ('/' :: s) = names s := by
  have h : ('/' :: s).splitOn '/' = [] :: s.splitOn '/' :=
    List.splitOn_append_cons_self (a := '/') [] s
  simp [names, h]

theorem slash_notMem_of_mem_splitOn {s c : Str} (h : c ∈ s.splitOn '/') : '/' ∉ c := by
  induction s generalizing c with
  | nil =>
    rw [List.splitOn_nil, List.mem_singleton] at h
    subst h
    simp
  | cons x s ih =>
    rw [List.splitOn_cons_eq_if_modifyHead] at h
    split at h
    case isTrue =>
      rcases List.mem_cons.mp h with rfl | h
      · simp
      · exact ih h
    case isFalse hx =>
      cases hs : s.splitOn '/' with
      | nil => exact absurd hs (List.splitOn_ne_nil _ _)
      | cons d ds =>
        rw [hs, List.modifyHead_cons] at h
        rcases List.mem_cons.mp h with rfl | h
        · have hd : '/' ∉ d := ih (by rw [hs]; exact List.mem_cons_self)
          have hx' : '/' ≠ x := fun hq => hx (by simp [← hq])
          simp [hd, hx']
        · exact ih (by rw [hs]; exact List.mem_cons_of_mem _ h)

theorem names_isName (s : Str) : ∀ c ∈ names s, IsName c := by
  intro c hc
  rw [names, List.mem_filter] at hc
  exact ⟨by simpa using hc.2, slash_notMem_of_mem_splitOn hc.1⟩

theorem join_injective {a b : List Str} (ha : ∀ c ∈ a, IsName c) (hb : ∀ c ∈ b, IsName c)
    (h : join a = join b) : a = b := by
  rw [← names_join ha, ← names_join hb, h]

theorem join_eq_nil_iff {cs : List Str} (hn : ∀ c ∈ cs, IsName c) : join cs = [] ↔ cs = [] := by
  constructor
  · intro h
    exact join_injective hn (by simp) (h.trans join_nil.symm)
  · rintro rfl
    rfl

theorem head?_join_ne_slash {cs : List Str} (hn : ∀ c ∈ cs, IsName c) :
    (join cs).head? ≠ some '/' := by
  cases cs with
  | nil => simp
  | cons c cs =>
    have hc := hn c List.mem_cons_self
    cases c with
    | nil => exact absurd rfl hc.1
    | cons x c =>
      have hx : x ≠ '/' := fun hq => hc.2 (hq ▸ List.mem_cons_self)
      by_cases hcs : cs = []
      · subst hcs; simpa using hx
      · rw [join_cons hcs]; simpa using hx

/-- A path that reads `p`, a slash and more, where `p` is written from names, has those names first. It turns a
    comparison of texts into one of lists, where prefixes compose. -/
theorem join_eq_join_slash_iff {a b : List Str} (ha : ∀ c ∈ a, IsName c)
    (hb : ∀ c ∈ b, IsName c) (hne : a ≠ []) {s : Str} :
    join b = join a ++ '/' :: s ↔ ∃ d, d ≠ [] ∧ b = a ++ d ∧ s = join d := by
  constructor
  · intro h
    have hbne : b ≠ [] := by
      rintro rfl
      simp at h
    refine ⟨s.splitOn '/', List.splitOn_ne_nil _ _, ?_, (join_splitOn s).symm⟩
    rw [← splitOn_join hb hbne, h, List.splitOn_append_cons_self, splitOn_join ha hne]
  · rintro ⟨d, hd, rfl, rfl⟩
    exact join_append hne hd

/-! ## Below, as text -/

/-- Strictly below: `p`, a slash and something more. It is about the text alone and does not ask whether the paths are
    well formed. -/
def Below (p q : Str) : Prop := ∃ s, q = p ++ '/' :: s

theorem Below.trans {p q r : Str} (h1 : Below p q) (h2 : Below q r) : Below p r := by
  obtain ⟨s, rfl⟩ := h1
  obtain ⟨t, rfl⟩ := h2
  exact ⟨s ++ '/' :: t, by simp⟩

theorem Below.length_lt {p q : Str} (h : Below p q) : p.length < q.length := by
  obtain ⟨s, rfl⟩ := h
  simp

theorem Below.ne {p q : Str} (h : Below p q) : p ≠ q := by
  rintro rfl
  exact absurd h.length_lt (Nat.lt_irrefl _)

/-- Two paths above one path are above one another, or the same: the paths above a path form a chain. -/
theorem Below.linear {p q r : Str} (hp : Below p r) (hq : Below q r) :
    p = q ∨ Below p q ∨ Below q p := by
  obtain ⟨s, rfl⟩ := hp
  obtain ⟨t, ht⟩ := hq
  rcases List.append_eq_append_iff.mp ht with ⟨x, hx1, hx2⟩ | ⟨x, hx1, hx2⟩
  · -- `q` is longer: it is `p` and `x`, and `x` begins with the slash after `p`
    cases x with
    | nil => exact Or.inl (by simpa using hx1.symm)
    | cons c x =>
      simp only [List.cons_append, List.cons.injEq] at hx2
      exact Or.inr (Or.inl ⟨x, by rw [hx1, hx2.1]⟩)
  · cases x with
    | nil => exact Or.inl (by simpa using hx1)
    | cons c x =>
      simp only [List.cons_append, List.cons.injEq] at hx2
      exact Or.inr (Or.inr ⟨x, by rw [hx1, hx2.1]⟩)

theorem below_iff_stripPrefix {p q : Str} :
    (stripPrefix p q).any (fun suffix => suffix.head? == some '/') = true ↔ Below p q := by
  cases h : stripPrefix p q with
  | none =>
    simp only [Option.any_none, Bool.false_eq_true, false_iff]
    rintro ⟨s, hs⟩
    rw [stripPrefix_eq_some_iff.mpr hs] at h
    cases h
  | some r =>
    rw [stripPrefix_eq_some_iff] at h
    subst h
    cases r with
    | nil =>
      simp only [Option.any_some, List.head?_nil]
      constructor
      · intro hf; exact absurd hf (by decide)
      · rintro ⟨s, hs⟩; simp at hs
    | cons c r =>
      simp only [Option.any_some, List.head?_cons, beq_iff_eq, Option.some.injEq]
      constructor
      · rintro rfl; exact ⟨r, rfl⟩
      · rintro ⟨s, hs⟩
        simp only [List.append_cancel_left_eq, List.cons.injEq] at hs
        exact hs.1

theorem below_join_iff {a b : List Str} (ha : ∀ c ∈ a, IsName c) (hb : ∀ c ∈ b, IsName c)
    (hne : a ≠ []) : Below (join a) (join b) ↔ ∃ d, d ≠ [] ∧ b = a ++ d := by
  constructor
  · rintro ⟨s, hs⟩
    obtain ⟨d, hd, hbd, _⟩ := (join_eq_join_slash_iff ha hb hne).mp hs
    exact ⟨d, hd, hbd⟩
  · rintro ⟨d, hd, rfl⟩
    exact ⟨join d, join_append hne hd⟩

/-! ## Canonical relative paths, and what leads to them -/

/-- Written from names: no slash at either end and none doubled. On such paths equality of texts is equality of the
    places they name. -/
def IsCanonical (q : Str) : Prop := join (names q) = q

instance (q : Str) : Decidable (IsCanonical q) := inferInstanceAs (Decidable (_ = _))

theorem isCanonical_join {cs : List Str} (hn : ∀ c ∈ cs, IsName c) : IsCanonical (join cs) := by
  rw [IsCanonical, names_join hn]

/-- `p` is passed on the way from the root to `q`, `q` included and the root not. These are the directories that have
    to be there for `q`. -/
def Leads (p q : Str) : Prop := p ≠ [] ∧ (p = q ∨ Below p q)

theorem not_leads_nil (p : Str) : ¬ Leads p [] := by
  rintro ⟨hne, rfl | ⟨s, hs⟩⟩
  · exact hne rfl
  · simp at hs

theorem Leads.of_below {p q r : Str} (hne : p ≠ []) (h : Below p q) (hq : Leads q r) :
    Leads p r := by
  rcases hq with ⟨_, rfl | hb⟩
  · exact ⟨hne, Or.inr h⟩
  · exact ⟨hne, Or.inr (h.trans hb)⟩

theorem leads_join_iff {p : Str} {cs : List Str} (hn : ∀ c ∈ cs, IsName c) :
    Leads p (join cs) ↔ ∃ a b, a ≠ [] ∧ cs = a ++ b ∧ p = join a := by
  constructor
  · rintro ⟨hne, rfl | ⟨s, hs⟩⟩
    · refine ⟨cs, [], ?_, by simp, rfl⟩
      rintro rfl
      exact hne rfl
    · have hcs : cs ≠ [] := by
        rintro rfl
        simp at hs
      -- splitting the whole path at its slashes splits `p` at its own
      have hsplit : cs = p.splitOn '/' ++ s.splitOn '/' := by
        rw [← splitOn_join hn hcs, hs, List.splitOn_append_cons_self]
      exact ⟨p.splitOn '/', s.splitOn '/', List.splitOn_ne_nil _ _, hsplit, (join_splitOn p).symm⟩
  · rintro ⟨a, b, ha, rfl, rfl⟩
    have hna : ∀ c ∈ a, IsName c := fun c hc => hn c (List.mem_append_left _ hc)
    refine ⟨fun h => ha ((join_eq_nil_iff hna).mp h), ?_⟩
    by_cases hb : b = []
    · subst hb
      exact Or.inl (by simp)
    · exact Or.inr ⟨join b, join_append ha hb⟩

/-- Below a path with a last slash is below what stands before it, or that itself. It peels off the last name, which
    is how the parents of a path are walked through. -/
theorem below_append_slash_iff {p a b : Str} (hb : '/' ∉ b) :
    Below p (a ++ '/' :: b) ↔ p = a ∨ Below p a := by
  constructor
  · rintro ⟨s, hs⟩
    rcases List.append_eq_append_iff.mp hs with ⟨x, hx1, hx2⟩ | ⟨x, hx1, hx2⟩
    · cases x with
      | nil => exact Or.inl (by simpa using hx1)
      | cons c x =>
        simp only [List.cons_append, List.cons.injEq] at hx2
        exact absurd (hx2.2 ▸ List.mem_append_right x List.mem_cons_self) hb
    · cases x with
      | nil => exact Or.inl (by simpa using hx1.symm)
      | cons c x =>
        simp only [List.cons_append, List.cons.injEq] at hx2
        exact Or.inr ⟨x, by rw [hx1, hx2.1]⟩
  · rintro (rfl | ⟨s, rfl⟩)
    · exact ⟨b, rfl⟩
    · exact ⟨s ++ '/' :: b, by simp⟩

theorem not_below_of_notMem {p q : Str} (h : '/' ∉ q) : ¬ Below p q := by
  rintro ⟨s, rfl⟩
  simp at h

end Afos.Lib
