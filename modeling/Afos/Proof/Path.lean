import Afos.Session

/-!
# Normal paths

A path that has been normalized against a normal directory is normal: a slash and then plain
names, `Rooted`. On such paths the second normalization, the one inside the filesystem, does
nothing (`normalizePath_self`), and each of the string tests the source uses is the test on
lists of names it is meant to be (`pathPrefix_iff`, `isPathPrefix_iff`).

The hypothesis on the directory is needed. `normalizePath` resolves the dots of its input but
copies the directory's names as they stand, so a directory with a dot name in it comes out
with the dot name still there.
-/

set_option autoImplicit false

namespace Afos

open Lib

/-- A name that a path may contain after normalization: not empty, no dots, and without slash, backslash and the null
    character. -/
def Plain (c : Str) : Prop := IsOrdinary c ∧ '\x00' ∉ c ∧ '\\' ∉ c

instance (c : Str) : Decidable (Plain c) := inferInstanceAs (Decidable (_ ∧ _ ∧ _))

/-- A slash and then plain names. The shell's current directory is of this form, and so is whatever is resolved
    against it. -/
def Rooted (p : Str) : Prop := ∃ cs, (∀ c ∈ cs, Plain c) ∧ p = '/' :: join cs

theorem Plain.isName {c : Str} (h : Plain c) : IsName c := h.1.1

theorem isName_of_plain {cs : List Str} (h : ∀ c ∈ cs, Plain c) : ∀ c ∈ cs, IsName c :=
  fun c hc => (h c hc).isName

/-! ## Characters of a path and of its names -/

theorem mem_join_of_mem {cs : List Str} {c : Str} {x : Char} (hc : c ∈ cs) (hx : x ∈ c) :
    x ∈ join cs := by
  -- by the names: the first one, or behind its slash
  induction cs with
  | nil => cases hc
  | cons d cs ih =>
    by_cases hnil : cs = []
    · subst hnil
      rw [List.mem_singleton] at hc
      rw [join_singleton, ← hc]
      exact hx
    · rw [join_cons hnil, List.mem_append]
      rcases List.mem_cons.mp hc with rfl | hc
      · exact Or.inl hx
      · exact Or.inr (List.mem_cons_of_mem _ (ih hc))

theorem exists_mem_of_mem_join {cs : List Str} {x : Char} (hx : x ∈ join cs) :
    x = '/' ∨ ∃ c ∈ cs, x ∈ c := by
  -- by the names: in the first one, the slash behind it, or further on
  induction cs with
  | nil => simp at hx
  | cons d cs ih =>
    by_cases hnil : cs = []
    · subst hnil
      rw [join_singleton] at hx
      exact Or.inr ⟨d, List.mem_cons_self, hx⟩
    · rw [join_cons hnil, List.mem_append, List.mem_cons] at hx
      rcases hx with hx | rfl | hx
      · exact Or.inr ⟨d, List.mem_cons_self, hx⟩
      · exact Or.inl rfl
      · rcases ih hx with h | ⟨c, hc, hxc⟩
        · exact Or.inl h
        · exact Or.inr ⟨c, List.mem_cons_of_mem _ hc, hxc⟩

theorem mem_of_mem_splitOn {s c : Str} {x : Char} (hc : c ∈ s.splitOn '/') (hx : x ∈ c) :
    x ∈ s := by
  have h := mem_join_of_mem hc hx
  rwa [join_splitOn] at h

/-! ## The loop of `normalizePath` -/

theorem pushComponent_ordinary {stack : List Str} {c : Str} (hc : IsOrdinary c) :
    pushComponent stack c = .ok (stack ++ [c]) := by
  unfold pushComponent
  rw [if_neg (by rintro (h | h); exacts [hc.1.1 h, hc.2.1 h]), if_neg hc.2.2]

theorem foldlM_pushComponent_ordinary {cs : List Str} (hn : ∀ c ∈ cs, IsOrdinary c)
    (stack : List Str) : cs.foldlM pushComponent stack = .ok (stack ++ cs) := by
  induction cs generalizing stack with
  | nil => simp [pure, Except.pure]
  | cons c cs ih =>
    rw [List.foldlM_cons, pushComponent_ordinary (hn c List.mem_cons_self)]
    have h := ih (fun d hd => hn d (List.mem_cons_of_mem _ hd)) (stack ++ [c])
    simpa [bind, Except.bind] using h

/-- What is on the stack afterwards was there before, or was pushed, and then it is no dot. -/
theorem mem_of_pushComponent {stack stack' : List Str} {c d : Str}
    (h : pushComponent stack c = .ok stack') (hd : d ∈ stack') :
    d ∈ stack ∨ d = c ∧ c ≠ [] ∧ c ≠ ".".toList ∧ c ≠ "..".toList := by
  -- an empty or single dot is skipped, a double dot takes the last name away, anything else is pushed
  unfold pushComponent at h
  split at h
  · cases h
    exact Or.inl hd
  case isFalse hdot =>
    split at h
    · split at h
      · cases h
      · cases h
        exact Or.inl (List.mem_of_mem_dropLast hd)
    case isFalse hdots =>
      cases h
      rcases List.mem_append.mp hd with hd | hd
      · exact Or.inl hd
      · rw [List.mem_singleton] at hd
        exact Or.inr ⟨hd, fun he => hdot (Or.inl he), fun he => hdot (Or.inr he), hdots⟩

theorem mem_of_foldlM_pushComponent {cs stack out : List Str} {d : Str}
    (h : cs.foldlM pushComponent stack = .ok out) (hd : d ∈ out) :
    d ∈ stack ∨ d ∈ cs ∧ d ≠ [] ∧ d ≠ ".".toList ∧ d ≠ "..".toList := by
  -- by the components, the stack being whatever the ones before have left
  induction cs generalizing stack with
  | nil =>
    cases h
    exact Or.inl hd
  | cons c cs ih =>
    rw [List.foldlM_cons] at h
    cases hp : pushComponent stack c with
    | error e =>
      rw [hp] at h
      cases h
    | ok stack' =>
      rw [hp] at h
      rcases ih h with hd' | ⟨hd', hrest⟩
      · rcases mem_of_pushComponent hp hd' with hd' | ⟨rfl, hrest⟩
        · exact Or.inl hd'
        · exact Or.inr ⟨List.mem_cons_self, hrest⟩
      · exact Or.inr ⟨List.mem_cons_of_mem _ hd', hrest⟩

/-- The directory names a relative input starts from; an absolute one starts from none. -/
def startNames (cwd input : Str) : List Str := if input.head? = some '/' then [] else names cwd

/-- `normalizePath` in two parts, what it refuses at once and what the loop over the components comes to. -/
theorem normalizePath_ok_iff {cwd input p : Str} :
    normalizePath cwd input = .ok p ↔
      ('\x00' ∉ input ∧ '\\' ∉ input) ∧
        ∃ out, (input.splitOn '/').foldlM pushComponent (startNames cwd input) = .ok out ∧
          p = '/' :: join out := by
  unfold normalizePath startNames
  -- a forbidden character is looked for before anything else
  by_cases hbad : '\x00' ∈ input ∨ '\\' ∈ input
  · rw [if_pos (by simpa [List.contains_iff_mem] using hbad)]
    constructor
    · intro h
      cases h
    · rintro ⟨⟨h1, h2⟩, -⟩
      exact absurd hbad (by simp [h1, h2])
  · rw [if_neg (by simpa [List.contains_iff_mem] using hbad)]
    rw [not_or] at hbad
    cases hfold : (input.splitOn '/').foldlM pushComponent
        (if input.head? = some '/' then [] else names cwd) with
    | error e =>
      simp only [hfold, Except.map, reduceCtorEq, false_and, exists_false, and_false]
    | ok out =>
      simp only [hfold, Except.map, Except.ok.injEq, hbad, not_false_eq_true, and_self, true_and,
        exists_eq_left', eq_comm]

/-- The names that an input without forbidden characters is resolved to. Those of the directory are copied, hence the
    assumption on it. -/
theorem plain_of_foldlM {cwd input : Str} {out : List Str} (hcwd : Rooted cwd)
    (hclean : '\x00' ∉ input ∧ '\\' ∉ input)
    (h : (input.splitOn '/').foldlM pushComponent (startNames cwd input) = .ok out) :
    ∀ c ∈ out, Plain c := by
  obtain ⟨ds, hds, rfl⟩ := hcwd
  intro d hd
  -- a name is from the directory, or from the input and then no dot
  rcases mem_of_foldlM_pushComponent h hd with hd | ⟨hd, hne, hdot, hdots⟩
  · unfold startNames at hd
    split at hd
    · cases hd
    · rw [names_slash, names_join (isName_of_plain hds)] at hd
      exact hds d hd
  · exact ⟨⟨⟨hne, slash_notMem_of_mem_splitOn hd⟩, hdot, hdots⟩,
      fun hx => hclean.1 (mem_of_mem_splitOn hd hx), fun hx => hclean.2 (mem_of_mem_splitOn hd hx)⟩

theorem Rooted.normalizePath {cwd input p : Str} (hcwd : Rooted cwd)
    (h : normalizePath cwd input = .ok p) : Rooted p := by
  obtain ⟨hclean, out, hfold, rfl⟩ := normalizePath_ok_iff.mp h
  exact ⟨out, plain_of_foldlM hcwd hclean hfold, rfl⟩

theorem rooted_root : Rooted "/".toList := ⟨[], by simp, rfl⟩

/-- Splitting a normal path: an empty piece before its slash, then its names. -/
theorem splitOn_slash_join {cs : List Str} (hn : ∀ c ∈ cs, IsName c) (hne : cs ≠ []) :
    ('/' :: join cs).splitOn '/' = [] :: cs := by
  have h : ('/' :: join cs).splitOn '/' = [] :: (join cs).splitOn '/' :=
    List.splitOn_append_cons_self (a := '/') [] (join cs)
  rw [h, splitOn_join hn hne]

/-- Normalizing an absolute path of ordinary names that has no forbidden character changes nothing, whatever the
    directory. -/
theorem normalizePath_slash_join {cs : List Str} (hn : ∀ c ∈ cs, Plain c) (cwd : Str) :
    normalizePath cwd ('/' :: join cs) = .ok ('/' :: join cs) := by
  -- a character that is not a slash would have to be in one of the names
  have hclean : ∀ x, x ≠ '/' → (∀ c ∈ cs, x ∉ c) → x ∉ '/' :: join cs := by
    intro x hx hcs hmem
    rcases List.mem_cons.mp hmem with h | h
    · exact hx h
    · rcases exists_mem_of_mem_join h with h | ⟨c, hc, hxc⟩
      · exact hx h
      · exact hcs c hc hxc
  refine normalizePath_ok_iff.mpr ⟨⟨hclean _ (by decide) fun c hc => (hn c hc).2.1,
    hclean _ (by decide) fun c hc => (hn c hc).2.2⟩, cs, ?_, rfl⟩
  have hstart : startNames cwd ('/' :: join cs) = [] := by simp [startNames]
  rw [hstart]
  -- the root has no names, and splitting it gives two empty pieces
  by_cases hne : cs = []
  · subst hne
    rfl
  · rw [splitOn_slash_join (isName_of_plain hn) hne]
    exact foldlM_pushComponent_ordinary (fun c hc => (hn c hc).1) []

theorem normalizePath_self {p : Str} (h : Rooted p) (cwd : Str) :
    normalizePath cwd p = .ok p := by
  obtain ⟨cs, hcs, rfl⟩ := h
  exact normalizePath_slash_join hcs cwd

/-! ## The prefix tests -/

theorem slash_join_injective {a b : List Str} (ha : ∀ c ∈ a, IsName c) (hb : ∀ c ∈ b, IsName c)
    (h : '/' :: join a = '/' :: join b) : a = b :=
  join_injective ha hb (List.cons.inj h).2

/-- A path with a name after it resolves to the names of the path and this one. -/
theorem normalizePath_child {path n : Str} {cs : List Str} (hcs : ∀ c ∈ cs, Plain c)
    (hn : normalizePath "/".toList path = .ok ('/' :: join cs)) (hplain : Plain n) :
    normalizePath "/".toList (path ++ '/' :: n) = .ok ('/' :: join (cs ++ [n])) := by
  have hstart : ∀ input, startNames "/".toList input = [] := by
    intro input
    unfold startNames
    split
    · rfl
    · decide
  obtain ⟨⟨hnul, hback⟩, out, hfold, heq⟩ := normalizePath_ok_iff.mp hn
  rw [hstart] at hfold
  -- what comes out of the loop are names, so the list of them is determined by the path
  have hout : ∀ d ∈ out, IsName d := by
    intro d hd
    rcases mem_of_foldlM_pushComponent hfold hd with hnil | ⟨hmem, hne, -⟩
    · cases hnil
    · exact ⟨hne, slash_notMem_of_mem_splitOn hmem⟩
  obtain rfl := slash_join_injective (isName_of_plain hcs) hout heq
  refine normalizePath_ok_iff.mpr ⟨⟨?_, ?_⟩, cs ++ [n], ?_, rfl⟩
  · simp only [List.mem_append, List.mem_cons, not_or]
    exact ⟨hnul, by decide, hplain.2.1⟩
  · simp only [List.mem_append, List.mem_cons, not_or]
    exact ⟨hback, by decide, hplain.2.2⟩
  · rw [hstart, List.splitOn_append_cons_self, splitOn_of_isName hplain.isName, List.foldlM_append,
      hfold]
    exact foldlM_pushComponent_ordinary (by simpa using hplain.1) cs

theorem below_slash_iff {p q : Str} : Below ('/' :: p) ('/' :: q) ↔ Below p q := by
  simp [Below]

/-- The test for mounts, on names. Without names on the left it would ask for a second slash, so that case is
    excluded. -/
theorem isPathPrefix_slash_iff {a b : List Str} (ha : ∀ c ∈ a, IsName c)
    (hb : ∀ c ∈ b, IsName c) (hne : a ≠ []) :
    isPathPrefix ('/' :: join a) ('/' :: join b) = true ↔ a <+: b := by
  rw [isPathPrefix, Bool.or_eq_true, beq_iff_eq, below_iff_stripPrefix, below_slash_iff,
    below_join_iff ha hb hne]
  -- the path itself, or something with a slash behind it
  constructor
  · rintro (h | ⟨d, -, rfl⟩)
    · exact slash_join_injective hb ha h ▸ List.prefix_refl b
    · exact List.prefix_append a d
  · rintro ⟨d, rfl⟩
    by_cases hd : d = []
    · subst hd
      exact Or.inl (by simp)
    · exact Or.inr ⟨d, hd, rfl⟩

theorem isPathPrefix_iff {a b : List Str} (ha : ∀ c ∈ a, IsName c) (hb : ∀ c ∈ b, IsName c)
    (hne : a ≠ []) : isPathPrefix (join a) (join b) = true ↔ a <+: b := by
  rw [← isPathPrefix_slash_iff ha hb hne, isPathPrefix, isPathPrefix, Bool.or_eq_true,
    Bool.or_eq_true, below_iff_stripPrefix, below_iff_stripPrefix, below_slash_iff, beq_iff_eq,
    beq_iff_eq, List.cons.injEq, eq_self_iff_true, true_and]

/-- The test for capabilities and application data: a prefix of names, the root included. It is not the test of
    `isPathPrefix`, which has no case for the root. -/
theorem pathPrefix_iff {a b : List Str} (ha : ∀ c ∈ a, IsName c) (hb : ∀ c ∈ b, IsName c) :
    pathPrefix ('/' :: join a) ('/' :: join b) = true ↔ a <+: b := by
  by_cases hne : a = []
  · subst hne
    exact ⟨fun _ => List.nil_prefix, fun _ => rfl⟩
  · rw [← isPathPrefix_slash_iff ha hb hne, isPathPrefix, pathPrefix, Bool.or_assoc]
    have hroot : ('/' :: join a == "/".toList) = false := by
      refine beq_eq_false_iff_ne.mpr fun h => hne ((join_eq_nil_iff ha).mp ?_)
      exact (List.cons.inj h).2
    rw [hroot, Bool.false_or]

/-! ## The mounts -/

namespace Vfs

/-- A path is handed to the backend, without its slash, exactly if its first name is that of a persistent mount. -/
theorem persistentPath_ok_iff {cs : List Str} (hn : ∀ c ∈ cs, IsName c) {q : Str} :
    persistentPath ('/' :: join cs) = .ok q ↔
      q = join cs ∧ (["apps".toList] <+: cs ∨ ["user".toList] <+: cs) := by
  have hstrip : stripPrefix ['/'] ('/' :: join cs) = some (join cs) :=
    stripPrefix_append ['/'] (join cs)
  have happs : isPathPrefix "apps".toList (join cs) = true ↔ ["apps".toList] <+: cs :=
    isPathPrefix_iff (a := ["apps".toList]) (by decide) hn (by simp)
  have huser : isPathPrefix "user".toList (join cs) = true ↔ ["user".toList] <+: cs :=
    isPathPrefix_iff (a := ["user".toList]) (by decide) hn (by simp)
  simp only [persistentPath, hstrip]
  -- the mount is there and the path is not empty, or neither test succeeds
  by_cases hin : ["apps".toList] <+: cs ∨ ["user".toList] <+: cs
  · have hne : join cs ≠ [] := by
      intro h
      rw [(join_eq_nil_iff hn).mp h] at hin
      rcases hin with h | h <;> cases List.prefix_nil.mp h
    have hor := (Bool.or_eq_true _ _).mpr (hin.imp happs.mpr huser.mpr)
    have hcond : ¬ (join cs = [] ∨
        (!(isPathPrefix "apps".toList (join cs) || isPathPrefix "user".toList (join cs))) = true) := by
      rw [hor]
      rintro (h | h)
      · exact hne h
      · cases h
    rw [if_neg hcond, Except.ok.injEq, eq_comm]
    exact ⟨fun h => ⟨h, hin⟩, And.left⟩
  · have hcond : join cs = [] ∨
        (!(isPathPrefix "apps".toList (join cs) || isPathPrefix "user".toList (join cs))) = true := by
      refine Or.inr (Bool.not_eq_true' _ ▸ Bool.eq_false_iff.mpr fun h => hin ?_)
      exact ((Bool.or_eq_true _ _).mp h).imp happs.mp huser.mp
    rw [if_pos hcond]
    constructor
    · intro h
      cases h
    · rintro ⟨-, h⟩
      exact absurd h hin

/-- What the filesystem accepts as a storage path is its argument without the slash. -/
theorem eq_slash_of_persistentPath {p q : Str} (h : persistentPath p = .ok q) : p = '/' :: q := by
  unfold persistentPath at h
  cases hs : stripPrefix ['/'] p with
  | none =>
    rw [hs] at h
    cases h
  | some relative =>
    rw [hs] at h
    simp only at h
    split at h
    · cases h
    · cases h
      exact stripPrefix_eq_some_iff.mp hs

end Vfs

end Afos
