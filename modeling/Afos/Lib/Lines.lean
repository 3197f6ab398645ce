import Afos.Lib.Text

/-!
# Lines and trimming

What `lines`, `trim` and `splitOn` do to a text that was put together from pieces.
-/

set_option autoImplicit false

namespace Afos.Lib

theorem splitOn_of_notMem {c : Char} {s : Str} (h : c ∉ s) : s.splitOn c = [s] := by
  have hone : (List.intercalate [c] [s]).splitOn c = [s] :=
    List.splitOn_intercalate c (by simpa using h) (List.cons_ne_nil _ _)
  rwa [List.intercalate_singleton] at hone

theorem lines_nil : lines [] = [] := by
  simp [lines]

/-- A text that begins with a line that is ended: the line comes out, without its carriage return if it has one, and
    the rest is read by itself. -/
theorem lines_append_newline {line : Str} (h : '\n' ∉ line) (rest : Str) :
    lines (line ++ '\n' :: rest) = stripCr line :: lines rest := by
  have hpieces : (line ++ '\n' :: rest).splitOn '\n' = line :: rest.splitOn '\n' := by
    rw [List.splitOn_append_cons_self, splitOn_of_notMem h, List.singleton_append]
  have hne := List.splitOn_ne_nil '\n' rest
  simp only [lines, hpieces]
  rw [List.getLast_cons hne, List.dropLast_cons_of_ne_nil hne, List.map_cons, List.cons_append]

/-- A text that begins with lines that are all ended, by taking off one after the other. -/
theorem lines_flatMap {ls : List Str} (h : ∀ line ∈ ls, '\n' ∉ line ∧ stripCr line = line) (rest : Str) :
    lines (ls.flatMap (· ++ ['\n']) ++ rest) = ls ++ lines rest := by
  induction ls with
  | nil => rfl
  | cons line ls ih =>
    obtain ⟨hline, hcr⟩ := h line List.mem_cons_self
    rw [List.flatMap_cons, List.append_assoc, List.append_assoc, List.singleton_append,
      lines_append_newline hline, hcr, ih fun l hl => h l (List.mem_cons_of_mem line hl), List.cons_append]

theorem stripCr_of_getLast? {line : Str} (h : line.getLast? ≠ some '\r') : stripCr line = line := if_neg h

/-- Nothing to trim at either end. The empty text is trimmed, so what is said about ends is said of those that are
    there. -/
def IsTrimmed (s : Str) : Prop :=
  (∀ c ∈ s.head?, isWhitespace c = false) ∧ ∀ c ∈ s.getLast?, isWhitespace c = false

theorem dropWhile_eq_self {p : Char → Bool} {s : Str} (h : ∀ c ∈ s.head?, p c = false) :
    s.dropWhile p = s := by
  cases s with
  | nil => rfl
  | cons c s => rw [List.dropWhile_cons, h c rfl, if_neg Bool.false_ne_true]

theorem IsTrimmed.trim {s : Str} (h : IsTrimmed s) : trim s = s := by
  rw [Lib.trim, dropWhile_eq_self h.1, dropWhile_eq_self, List.reverse_reverse]
  rw [List.head?_reverse]
  exact h.2

/-- The ends of a text put together from two are an end of each, and the first must not be empty or it would have none
    to give. -/
theorem IsTrimmed.append {s t : Str} (hs : IsTrimmed s) (ht : IsTrimmed t) (hne : s ≠ []) :
    IsTrimmed (s ++ t) := by
  refine ⟨?_, ?_⟩
  · rw [List.head?_append_of_ne_nil _ hne]
    exact hs.1
  · rw [List.getLast?_append]
    cases hlast : t.getLast? with
    | none => exact hs.2
    | some c =>
      intro d hd
      exact ht.2 d (by rw [hlast]; exact hd)

theorem isTrimmed_of_ends {s : Str} {a b : Char} (ha : s.head? = some a) (hb : s.getLast? = some b)
    (hfirst : isWhitespace a = false) (hlast : isWhitespace b = false) : IsTrimmed s := by
  refine ⟨fun c hc => ?_, fun c hc => ?_⟩
  · obtain rfl := Option.some.inj (ha.symm.trans hc)
    exact hfirst
  · obtain rfl := Option.some.inj (hb.symm.trans hc)
    exact hlast

theorem isTrimmed_of_no_whitespace {s : Str} (h : ∀ c ∈ s, isWhitespace c = false) : IsTrimmed s :=
  ⟨fun c hc => h c (List.mem_of_mem_head? hc), fun c hc => h c (List.mem_of_mem_getLast? hc)⟩

theorem isTrimmed_singleton {c : Char} (h : isWhitespace c = false) : IsTrimmed [c] :=
  isTrimmed_of_ends rfl rfl h h

/-- Trimmed texts with a separator between them are trimmed as a whole, since the ends are those of the first and the
    last text. -/
theorem isTrimmed_intercalate {sep : Char} (hsep : isWhitespace sep = false) {ls : List Str}
    (h : ∀ s ∈ ls, IsTrimmed s) (hne : ∀ s ∈ ls, s ≠ []) : IsTrimmed (List.intercalate [sep] ls) := by
  induction ls with
  | nil => exact ⟨fun c hc => (by cases hc), fun c hc => (by cases hc)⟩
  | cons s ls ih =>
    have hs := h s List.mem_cons_self
    have hrest := ih (fun t ht => h t (List.mem_cons_of_mem s ht)) fun t ht =>
      hne t (List.mem_cons_of_mem s ht)
    cases ls with
    | nil =>
      rw [List.intercalate_singleton]
      exact hs
    | cons t ls =>
      rw [List.intercalate_cons_cons, List.append_assoc]
      exact hs.append ((isTrimmed_singleton hsep).append hrest (List.cons_ne_nil _ _))
        (hne s List.mem_cons_self)

theorem notMem_intercalate {sep x : Char} (hx : x ≠ sep) {ls : List Str} (h : ∀ s ∈ ls, x ∉ s) :
    x ∉ List.intercalate [sep] ls := by
  induction ls with
  | nil => exact List.not_mem_nil
  | cons s ls ih =>
    have hrest := ih fun t ht => h t (List.mem_cons_of_mem s ht)
    cases ls with
    | nil =>
      rw [List.intercalate_singleton]
      exact h s List.mem_cons_self
    | cons t ls =>
      rw [List.intercalate_cons_cons, List.mem_append, List.mem_append, List.mem_singleton]
      rintro ((hin | hin) | hin)
      · exact h s List.mem_cons_self hin
      · exact hx hin
      · exact hrest hin

/-- A line of trimmed text does not end in a carriage return, which is white space, so reading lines leaves it as it
    is. -/
theorem IsTrimmed.stripCr {s : Str} (h : IsTrimmed s) : stripCr s = s := by
  refine stripCr_of_getLast? fun hcr => ?_
  have hspace := h.2 _ hcr
  exact absurd hspace (by decide)

end Afos.Lib
