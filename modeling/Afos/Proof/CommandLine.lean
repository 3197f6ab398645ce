import Afos.Lib.Run
import Afos.Shell

/-!
# Command lines

The tokenizer is a machine over characters with four variables. Two facts carry what is said about it.
It never looks at the words it has put out (`step_under`), so that a line can be cut wherever the machine
is between two words: what follows runs as if from the start. And white space, outside of quotes and not
after a backslash, brings it there from wherever it was (`foldl_gap`).

From these, a line is split at white space like the lists it is split into (`separable_at_whitespace`);
and since each of the three ways of writing a word adds exactly that word to the one being read
(`foldl_write`), every list of words is what some line is split into (`words_can_be_typed`).
-/

set_option autoImplicit false

namespace Afos

open Lib

def IsBlank (s : Str) : Prop := ∀ c ∈ s, isWhitespace c = true

instance (s : Str) : Decidable (IsBlank s) := List.decidableBAll (isWhitespace · = true) s

/-- The last character is a backslash that no other one escapes: an odd number of them at the end. -/
def EndsInBackslash (s : Str) : Prop := Odd (s.rtakeWhile (· == '\\')).length

instance (s : Str) : Decidable (EndsInBackslash s) := inferInstanceAs (Decidable (Odd _))

namespace Splitter

/-! ## One character -/

/-- The words put out, with the one being read if there is one. An empty word is never put out, so quotes around
    nothing are nothing. -/
def flush (output : List Str) (current : Str) : List Str :=
  if current = [] then output else output ++ [current]

section Step

variable (output : List Str) (current : Str) (quote : Option Char) {c : Char}

/-- A character after a backslash stands for itself, inside of quotes and outside. -/
theorem step_literal (c : Char) :
    step ⟨output, current, quote, true⟩ c = ⟨output, current ++ [c], quote, false⟩ := rfl

theorem step_backslash :
    step ⟨output, current, quote, false⟩ '\\' = ⟨output, current, quote, true⟩ := rfl

theorem step_quoted (hc : c ≠ '\\') (active : Char) :
    step ⟨output, current, some active, false⟩ c =
      if c = active then ⟨output, current, none, false⟩
      else ⟨output, current ++ [c], some active, false⟩ :=
  if_neg hc

theorem step_bare (hc : c ≠ '\\') :
    step ⟨output, current, none, false⟩ c =
      if c = '\'' ∨ c = '"' then ⟨output, current, some c, false⟩
      else if isWhitespace c then ⟨flush output current, [], none, false⟩
      else ⟨output, current ++ [c], none, false⟩ := by
  have hflush : (if current = [] then (⟨output, current, none, false⟩ : Splitter)
      else ⟨output ++ [current], [], none, false⟩) = ⟨flush output current, [], none, false⟩ := by
    rw [flush]
    split
    · rename_i hnil
      rw [hnil]
    · rfl
  rw [← hflush]
  exact if_neg hc

/-- White space is neither a backslash nor a quote, so outside of quotes it does nothing but end the word. -/
theorem step_blank (hc : isWhitespace c = true) :
    step ⟨output, current, none, false⟩ c = ⟨flush output current, [], none, false⟩ := by
  have hne : ∀ d, isWhitespace d = false → c ≠ d := by
    rintro d hd rfl
    rw [hc] at hd
    cases hd
  rw [step_bare _ _ (hne '\\' (by decide)),
    if_neg fun h => h.elim (hne '\'' (by decide)) (hne '"' (by decide)), if_pos hc]

end Step

/-- Whether a backslash has just been read: it was, and it was not itself escaped. -/
theorem step_escaped (s : Splitter) (c : Char) : (s.step c).escaped = (!s.escaped && c == '\\') := by
  obtain ⟨output, current, quote, escaped⟩ := s
  -- a literal, a backslash, a character in quotes, and one outside of them
  cases escaped with
  | true => rfl
  | false =>
    by_cases hc : c = '\\'
    · subst hc
      rfl
    rw [beq_false_of_ne hc, Bool.and_false]
    cases quote with
    | some active =>
      rw [step_quoted _ _ hc]
      split
      · rfl
      · rfl
    | none =>
      rw [step_bare _ _ hc]
      split
      · rfl
      split
      · rfl
      · rfl

/-- Words that have been put out before, in front of those that are. The loop never looks at them, so they can be
    taken out of it. -/
def under (words : List Str) (s : Splitter) : Splitter := { s with output := words ++ s.output }

theorem flush_append (words output : List Str) (current : Str) :
    flush (words ++ output) current = words ++ flush output current := by
  rw [flush, flush]
  split
  · rfl
  · rw [List.append_assoc]

/-- They are not looked at. So the machine between two words is as good as at the start. -/
theorem step_under (words : List Str) (s : Splitter) (c : Char) :
    (s.under words).step c = (s.step c).under words := by
  obtain ⟨output, current, quote, escaped⟩ := s
  -- the same cases; only at white space is there a word to put out
  cases escaped with
  | true => rfl
  | false =>
    by_cases hc : c = '\\'
    · subst hc
      rfl
    cases quote with
    | some active =>
      rw [step_quoted _ _ hc, under, step_quoted _ _ hc]
      split
      · rfl
      · rfl
    | none =>
      rw [step_bare _ _ hc, under, step_bare _ _ hc]
      split
      · rfl
      split
      · rw [flush_append]
        rfl
      · rfl

theorem finish_under (words : List Str) (s : Splitter) :
    (s.under words).finish = s.finish.map (words ++ ·) := by
  obtain ⟨output, current, quote, escaped⟩ := s
  cases quote with
  | some active => rfl
  | none => exact congrArg Except.ok (flush_append words output _)

/-! ## A text -/

theorem foldl_under (words : List Str) (text : Str) (s : Splitter) :
    text.foldl step (s.under words) = (text.foldl step s).under words := by
  induction text generalizing s with
  | nil => rfl
  | cons c text ih => rw [List.foldl_cons, List.foldl_cons, step_under, ih]

theorem foldl_blank {gap : Str} (hgap : IsBlank gap) (output : List Str) :
    gap.foldl step ⟨output, [], none, false⟩ = ⟨output, [], none, false⟩ := by
  induction gap with
  | nil => rfl
  | cons c gap ih =>
    rw [List.foldl_cons, step_blank _ _ (hgap c List.mem_cons_self)]
    exact ih fun d hd => hgap d (List.mem_cons_of_mem c hd)

/-- White space ends the word being read, however much of it there is: after the first blank there is no word to
    end. -/
theorem foldl_gap {gap : Str} (hgap : IsBlank gap) (hne : gap ≠ []) (output : List Str) (current : Str) :
    gap.foldl step ⟨output, current, none, false⟩ = ⟨flush output current, [], none, false⟩ := by
  cases gap with
  | nil => exact absurd rfl hne
  | cons c gap =>
    rw [List.foldl_cons, step_blank _ _ (hgap c List.mem_cons_self)]
    exact foldl_blank (fun d hd => hgap d (List.mem_cons_of_mem c hd)) _

theorem foldl_escaped_iff (text : Str) :
    (text.foldl step {}).escaped = true ↔ EndsInBackslash text := by
  induction text using List.reverseRecOn with
  | nil => exact iff_of_false Bool.false_ne_true (by simp [EndsInBackslash])
  | append_singleton text c ih =>
    rw [List.foldl_concat, step_escaped, EndsInBackslash]
    by_cases hc : c = '\\'
    · rw [List.rtakeWhile_concat_pos (· == '\\') text c (beq_iff_eq.mpr hc), List.length_append, List.length_singleton,
        Nat.odd_add_one, ← EndsInBackslash, ← ih, beq_iff_eq.mpr hc, Bool.and_true, Bool.not_eq_true,
        Bool.not_eq_eq_eq_not, Bool.not_true]
    · rw [List.rtakeWhile_concat_neg (· == '\\') text c (by simpa using hc), beq_false_of_ne hc, Bool.and_false]
      exact iff_of_false Bool.false_ne_true (by simp)

end Splitter

open Splitter

/-! ## Cutting a line -/

/-- A line that was split, and does not end in the middle of an escape, leaves the machine with no more than a word in
    hand. A backslash at the very end is dropped, and the line is still split. -/
theorem foldl_of_splitCommandLine {line : Str} {words : List Str} (h : splitCommandLine line = .ok words)
    (hend : ¬ EndsInBackslash line) : ∃ output current,
      line.foldl step {} = ⟨output, current, none, false⟩ ∧ words = flush output current := by
  have hescaped := mt (foldl_escaped_iff line).mp hend
  rw [splitCommandLine] at h
  generalize line.foldl step {} = s at h hescaped
  obtain ⟨output, current, quote, escaped⟩ := s
  obtain rfl : escaped = false := Bool.eq_false_iff.mpr hescaped
  cases quote with
  | some active => cases h
  | none => exact ⟨output, current, rfl, (Except.ok.inj h).symm⟩

/-- A line that is continued after white space is split by itself, as is what comes before it. A backslash at the end
    would take the first blank away. -/
theorem splitCommandLine_gap {line gap : Str} {words : List Str} (h : splitCommandLine line = .ok words)
    (hend : ¬ EndsInBackslash line) (hgap : IsBlank gap) (hne : gap ≠ []) (rest : Str) :
    splitCommandLine (line ++ gap ++ rest) = (splitCommandLine rest).map (words ++ ·) := by
  obtain ⟨output, current, hrun, rfl⟩ := foldl_of_splitCommandLine h hend
  have hstart : (⟨flush output current, [], none, false⟩ : Splitter) = under (flush output current) {} := by
    rw [under, List.append_nil]
  rw [splitCommandLine, List.foldl_append, List.foldl_append, hrun, foldl_gap hgap hne, hstart,
    foldl_under, finish_under, splitCommandLine]

/-! ## No empty words -/

theorem nil_notMem_flush {output : List Str} (h : [] ∉ output) (current : Str) :
    [] ∉ flush output current := by
  rw [flush]
  split
  · exact h
  · rename_i hne
    rw [List.mem_append, List.mem_singleton]
    exact fun hin => hin.elim h fun heq => hne heq.symm

theorem nil_notMem_step {s : Splitter} (h : [] ∉ s.output) (c : Char) : [] ∉ (s.step c).output := by
  obtain ⟨output, current, quote, escaped⟩ := s
  -- a word is put out at white space only, and then it is not empty
  cases escaped with
  | true => exact h
  | false =>
    by_cases hc : c = '\\'
    · subst hc
      exact h
    cases quote with
    | some active =>
      rw [step_quoted _ _ hc]
      split
      · exact h
      · exact h
    | none =>
      rw [step_bare _ _ hc]
      split
      · exact h
      split
      · exact nil_notMem_flush h current
      · exact h

theorem nil_notMem_splitCommandLine {line : Str} {words : List Str}
    (h : splitCommandLine line = .ok words) : [] ∉ words := by
  have hrun : [] ∉ (runFrom step {} line).output :=
    Along.invariant (fun s : Splitter => [] ∉ s.output) (fun _ c hs _ => nil_notMem_step hs c)
      (Along.of_forall (fun _ _ => trivial) _ line) List.not_mem_nil
  rw [splitCommandLine, ← runFrom] at h
  generalize runFrom step {} line = s at h hrun
  obtain ⟨output, current, quote, escaped⟩ := s
  cases quote with
  | some active => cases h
  | none =>
    rw [← Except.ok.inj h]
    exact nil_notMem_flush hrun _

/-- **Lines are split at white space.** A line that is split, and does not end in an unescaped backslash,
    can be continued after white space: the words of the rest come after its own, and if the rest lacks a
    quote, so does the whole. And no word that is returned is empty. -/
theorem separable_at_whitespace :
    (∀ line gap rest words, gap ≠ [] → IsBlank gap → splitCommandLine line = .ok words →
      ¬ EndsInBackslash line →
      (∀ words', splitCommandLine rest = .ok words' →
        splitCommandLine (line ++ gap ++ rest) = .ok (words ++ words')) ∧
        (splitCommandLine rest = .error (.invalidInput "unterminated quote".toList) →
          splitCommandLine (line ++ gap ++ rest) =
            .error (.invalidInput "unterminated quote".toList))) ∧
      ∀ line words, splitCommandLine line = .ok words → ∀ word ∈ words, word ≠ [] := by
  refine ⟨fun line gap rest words hne hgap h hend => ?_, fun line words h word hword hnil => ?_⟩
  · have hcut := splitCommandLine_gap h hend hgap hne rest
    refine ⟨fun words' hrest => ?_, fun hrest => ?_⟩
    · rw [hcut, hrest]
      rfl
    · rw [hcut, hrest]
      rfl
  · exact nil_notMem_splitCommandLine h (hnil ▸ hword)

/-- A line that ends in a word in quotes, continued. -/
theorem separable_at_whitespace_echo :
    splitCommandLine ("echo 'a b'".toList ++ " \t".toList ++ "c".toList) =
      .ok (["echo".toList, "a b".toList] ++ ["c".toList]) :=
  (separable_at_whitespace.1 _ _ _ _ (by decide) (by decide +kernel) (by decide +kernel)
    (by decide +kernel)).1 _ (by decide)

/-! ## Writing words -/

/-- The ways to write a word so that nothing in it is special: every character escaped, or between quotes of one kind
    or the other. -/
inductive Quoting where
  | backslashes
  | double
  | single
  deriving DecidableEq

/-- A character between quotes of one kind. The quotes of the other kind need no escape there. -/
def escapeIn (mark c : Char) : Str := if c = mark ∨ c = '\\' then ['\\', c] else [c]

def Quoting.write : Quoting → Str → Str
  | backslashes, word => word.flatMap fun c => ['\\', c]
  | double, word => '"' :: word.flatMap (escapeIn '"') ++ ['"']
  | single, word => '\'' :: word.flatMap (escapeIn '\'') ++ ['\'']

namespace Splitter

theorem foldl_backslashes (word : Str) (output : List Str) (current : Str) :
    (word.flatMap fun c => ['\\', c]).foldl step ⟨output, current, none, false⟩ =
      ⟨output, current ++ word, none, false⟩ := by
  induction word generalizing current with
  | nil => rw [List.append_nil]; rfl
  | cons c word ih =>
    rw [List.flatMap_cons, List.foldl_append, List.foldl_cons, List.foldl_cons, List.foldl_nil,
      step_backslash, step_literal, ih, List.append_assoc, List.singleton_append]

theorem foldl_escapeIn (mark : Char) (word : Str) (output : List Str) (current : Str) :
    (word.flatMap (escapeIn mark)).foldl step ⟨output, current, some mark, false⟩ =
      ⟨output, current ++ word, some mark, false⟩ := by
  induction word generalizing current with
  | nil => rw [List.append_nil]; rfl
  | cons c word ih =>
    -- the mark and the backslash are escaped, everything else stands for itself
    have hone : (escapeIn mark c).foldl step ⟨output, current, some mark, false⟩ =
        ⟨output, current ++ [c], some mark, false⟩ := by
      rw [escapeIn]
      by_cases hc : c = mark ∨ c = '\\'
      · rw [if_pos hc]
        rfl
      · rw [if_neg hc, List.foldl_cons, step_quoted _ _ fun h => hc (Or.inr h),
          if_neg fun h => hc (Or.inl h)]
        rfl
    rw [List.flatMap_cons, List.foldl_append, hone, ih, List.append_assoc, List.singleton_append]

/-- A word between quotes is read as it is, once its quotes and backslashes are escaped. Blanks in it are part of the
    word. -/
theorem foldl_quoted {mark : Char} (hmark : mark = '\'' ∨ mark = '"') (word : Str) (output : List Str)
    (current : Str) :
    (mark :: word.flatMap (escapeIn mark) ++ [mark]).foldl step ⟨output, current, none, false⟩ =
      ⟨output, current ++ word, none, false⟩ := by
  have hne : mark ≠ '\\' := by
    rintro rfl
    exact absurd hmark (by decide)
  rw [List.cons_append, List.foldl_cons, step_bare _ _ hne, if_pos hmark, List.foldl_append, foldl_escapeIn,
    List.foldl_cons, step_quoted _ _ hne, if_pos rfl, List.foldl_nil]

theorem foldl_write (style : Quoting) (word : Str) (output : List Str) (current : Str) :
    (style.write word).foldl step ⟨output, current, none, false⟩ =
      ⟨output, current ++ word, none, false⟩ := by
  cases style with
  | backslashes => exact foldl_backslashes word output current
  | double => exact foldl_quoted (Or.inr rfl) word output current
  | single => exact foldl_quoted (Or.inl rfl) word output current

end Splitter

/-- A word as it is typed: the white space before it, and the way it is written. -/
structure TypedWord where
  gap : Str
  style : Quoting
  word : Str

def TypedWord.text (w : TypedWord) : Str := w.gap ++ w.style.write w.word

/-- A line of typed words, with white space after the last, and in front of the first if it has a gap. -/
def typedLine (words : List TypedWord) (trail : Str) : Str := words.flatMap TypedWord.text ++ trail

theorem foldl_text {w : TypedWord} (hgap : IsBlank w.gap) :
    w.text.foldl step {} = ⟨[], w.word, none, false⟩ := by
  have hlead : w.gap.foldl step {} = {} := foldl_blank hgap []
  rw [TypedWord.text, List.foldl_append, hlead]
  exact foldl_write w.style w.word [] []

theorem splitCommandLine_text {w : TypedWord} (hgap : IsBlank w.gap) (hword : w.word ≠ []) :
    splitCommandLine w.text = .ok [w.word] ∧ ¬ EndsInBackslash w.text := by
  refine ⟨?_, fun h => ?_⟩
  · rw [splitCommandLine, foldl_text hgap]
    exact congrArg Except.ok (if_neg hword)
  · have hescaped := (foldl_escaped_iff w.text).mpr h
    rw [foldl_text hgap] at hescaped
    cases hescaped

theorem splitCommandLine_lead {gap : Str} (hgap : IsBlank gap) (rest : Str) :
    splitCommandLine (gap ++ rest) = splitCommandLine rest := by
  rw [splitCommandLine, List.foldl_append]
  exact congrArg (fun s => (rest.foldl step s).finish) (foldl_blank hgap [])

theorem splitCommandLine_text_append {w : TypedWord} (hblank : IsBlank w.gap) (hword : w.word ≠ [])
    {gap : Str} (hgap : IsBlank gap) (hne : gap ≠ []) (rest : Str) :
    splitCommandLine (w.text ++ (gap ++ rest)) =
      (splitCommandLine (gap ++ rest)).map (w.word :: ·) := by
  obtain ⟨hone, hend⟩ := splitCommandLine_text hblank hword
  rw [← List.append_assoc, splitCommandLine_gap hone hend hgap hne, splitCommandLine_lead hgap]
  rfl

/-- **Every list of words can be typed**, each word in any of the three ways, with any white space
    around them as long as there is some between two. -/
theorem words_can_be_typed (words : List TypedWord) (trail : Str) (hword : ∀ w ∈ words, w.word ≠ [])
    (hgap : ∀ w ∈ words, IsBlank w.gap) (hbetween : ∀ w ∈ words.tail, w.gap ≠ [])
    (htrail : IsBlank trail) :
    splitCommandLine (typedLine words trail) = .ok (words.map TypedWord.word) := by
  -- by the words; what follows the first begins with white space, or there is nothing
  induction words with
  | nil =>
    rw [typedLine, List.flatMap_nil, List.nil_append, splitCommandLine]
    exact congrArg Splitter.finish (foldl_blank htrail [])
  | cons w words ih =>
    have hrest := ih (fun v hv => hword v (List.mem_cons_of_mem w hv))
      (fun v hv => hgap v (List.mem_cons_of_mem w hv)) fun v hv => hbetween v (List.mem_of_mem_tail hv)
    have hblank := hgap w List.mem_cons_self
    have hne := hword w List.mem_cons_self
    have hline : typedLine (w :: words) trail = w.text ++ typedLine words trail := by
      rw [typedLine, List.flatMap_cons, List.append_assoc, ← typedLine]
    rw [hline]
    -- after the word comes the end of the line, trailing white space, or the gap of the next word
    cases words with
    | nil =>
      by_cases hnil : trail = []
      · rw [hnil, typedLine, List.flatMap_nil, List.append_nil, List.append_nil]
        exact (splitCommandLine_text hblank hne).1
      · have hcut := splitCommandLine_text_append hblank hne htrail hnil []
        rw [List.append_nil] at hcut
        rw [typedLine, List.flatMap_nil, List.nil_append] at hrest ⊢
        rw [hcut, hrest]
        rfl
    | cons v words =>
      have hnext : typedLine (v :: words) trail =
          v.gap ++ (v.style.write v.word ++ typedLine words trail) := by
        rw [typedLine, List.flatMap_cons, TypedWord.text, List.append_assoc, List.append_assoc, ← typedLine]
      rw [hnext] at hrest ⊢
      rw [splitCommandLine_text_append hblank hne (hgap v (List.mem_cons_of_mem w List.mem_cons_self))
        (hbetween v List.mem_cons_self), hrest]
      rfl

/-- Three words, one in each way. -/
theorem three_words_typed :
    splitCommandLine " \"say \\\"hi\\\"\"\t'it\\'s' \\a\\ \\b ".toList =
      .ok ["say \"hi\"".toList, "it's".toList, "a b".toList] :=
  words_can_be_typed
    [⟨" ".toList, .double, "say \"hi\"".toList⟩, ⟨"\t".toList, .single, "it's".toList⟩,
      ⟨" ".toList, .backslashes, "a b".toList⟩] " ".toList (by decide) (by decide +kernel)
    (by decide) (by decide +kernel)

end Afos
