import Afos.Lib.Text

/-!
# Lines typed at a terminal

A line discipline turns keys into lines: it keeps the line typed so far, answers each key with a text for the
terminal, and hands out the line at the end. The terminal knows nothing of lines. It has a row of cells and a
cursor, puts characters where the cursor is, and goes back by one at a backspace.

The two fit together (`Terminal.Shows.discipline`): whatever is typed and erased, the row shows the line, or for
each of its characters what the discipline shows in its place, with the cursor behind it.
-/

set_option autoImplicit false

namespace Afos.Lib

/-! ## The terminal -/

/-- The rows that are finished, the newest first, and the one with the cursor. There is no edge: a row is as long as
    what is written into it. -/
structure Terminal where
  above : List Str
  cells : Str
  column : Nat
  deriving DecidableEq

namespace Terminal

variable {t : Terminal} {text : Str}

def put (t : Terminal) (c : Char) : Terminal :=
  if c = '\n' then ⟨t.cells :: t.above, [], 0⟩
  else if c = '\x08' then { t with column := t.column - 1 }
  else { t with cells := t.cells.take t.column ++ c :: t.cells.drop (t.column + 1), column := t.column + 1 }

def feed (t : Terminal) (text : Str) : Terminal := text.foldl put t

@[simp] theorem feed_nil (t : Terminal) : t.feed [] = t := rfl

theorem feed_append (t : Terminal) (a b : Str) : t.feed (a ++ b) = (t.feed a).feed b :=
  List.foldl_append

theorem above_put {c : Char} (h : c ≠ '\n') : (t.put c).above = t.above := by
  rw [put, if_neg h]
  split <;> rfl

/-- The row is the text, with nothing but blanks behind it, and the cursor is at its end. Blanks are what erasing
    leaves, and cannot be told from nothing. -/
structure Shows (text : Str) (t : Terminal) : Prop where
  column : t.column = text.length
  cells : ∃ n, t.cells = text ++ List.replicate n ' '

theorem Shows.put (h : t.Shows text) {c : Char} (hline : c ≠ '\n') (hback : c ≠ '\x08') :
    (t.put c).Shows (text ++ [c]) := by
  obtain ⟨n, hcells⟩ := h.cells
  rw [Terminal.put, if_neg hline, if_neg hback]
  refine ⟨by simp [h.column], n - 1, ?_⟩
  show t.cells.take t.column ++ c :: t.cells.drop (t.column + 1) = _
  rw [h.column, hcells, List.take_left, ← List.drop_drop, List.drop_left, List.drop_replicate,
    List.append_assoc, List.singleton_append]

/-- One cell back, a blank, and back again: the row shows one character less, and is as many cells long as before. -/
def rubout : Str := ['\x08', ' ', '\x08']

theorem Shows.rubout {c : Char} (h : t.Shows (text ++ [c])) : (t.feed rubout).Shows text := by
  obtain ⟨n, hcells⟩ := h.cells
  have hcolumn : t.column - 1 = text.length := by simp [h.column]
  have hback : t.feed Terminal.rubout =
      { t with cells := t.cells.take (t.column - 1) ++ ' ' :: t.cells.drop (t.column - 1 + 1),
               column := t.column - 1 } := rfl
  rw [hback]
  refine ⟨hcolumn, n + 1, ?_⟩
  show t.cells.take (t.column - 1) ++ ' ' :: t.cells.drop (t.column - 1 + 1) = _
  rw [hcolumn, hcells, List.append_assoc, List.take_left, ← List.drop_drop, List.drop_left]
  rfl

end Terminal

/-! ## The discipline -/

inductive Key where
  | enter
  | erase
  | insert (c : Char)
  | other
  deriving DecidableEq

namespace Key

variable (mask : Char → Char)

def edit (line : Str) : Key → Str
  | erase => line.dropLast
  | insert c => line ++ [c]
  | enter | other => line

/-- What a key is answered with. Erasing is answered only if there is something to erase, or the prompt would be
    eaten. -/
def echo (line : Str) : Key → Str
  | enter => ['\n']
  | erase => if line = [] then [] else Terminal.rubout
  | insert c => [mask c]
  | other => []

/-- The line that has been typed, if it is finished, what the keys are answered with, and the keys behind it. -/
def discipline : List Key → Str → Option Str × Str × List Key
  | [], _ => (none, [], [])
  | enter :: keys, line => (some line, echo mask line enter, keys)
  | key :: keys, line =>
      let (result, text, rest) := discipline keys (edit line key)
      (result, echo mask line key ++ text, rest)

/-- The keys up to the end of the line, without the one that ends it. What is typed after it belongs to the next
    line. -/
def upToEnter (keys : List Key) : List Key := keys.takeWhile (· ≠ enter)

/-- The line that keys come to, beginning from what has been typed before. -/
def line (keys : List Key) (start : Str) : Str := (upToEnter keys).foldl edit start

variable {mask}

theorem discipline_cons {key : Key} (h : key ≠ enter) (keys : List Key) (line : Str) :
    discipline mask (key :: keys) line =
      ((discipline mask keys (edit line key)).1,
        echo mask line key ++ (discipline mask keys (edit line key)).2.1,
        (discipline mask keys (edit line key)).2.2) := by
  cases key with
  | enter => exact absurd rfl h
  | erase | insert | other => rfl

theorem line_cons {key : Key} (h : key ≠ enter) (keys : List Key) (start : Str) :
    line (key :: keys) start = line keys (edit start key) := by
  rw [line, upToEnter, List.takeWhile_cons_of_pos (by simpa using h)]
  rfl

theorem line_enter (keys : List Key) (start : Str) : line (enter :: keys) start = start := by
  rw [line, upToEnter, List.takeWhile_cons_of_neg (by simp)]
  rfl

/-- A line is handed out exactly when it has been finished, and it is what the keys come to, whatever is shown for
    them. -/
theorem discipline_result (keys : List Key) (start : Str) :
    (discipline mask keys start).1 = if enter ∈ keys then some (line keys start) else none := by
  induction keys generalizing start with
  | nil => rfl
  | cons key keys ih =>
    by_cases h : key = enter
    · subst h
      rw [if_pos List.mem_cons_self, line_enter]
      rfl
    · rw [discipline_cons h, ih, line_cons h]
      simp [Ne.symm h]

/-- A key without the character it inserts. What a secret line may show is a function of the shapes. -/
def shape : Key → Key
  | insert _ => insert ' '
  | key => key

theorem length_edit_of_shape {key key' : Key} (h : key.shape = key'.shape) {line line' : Str}
    (hline : line.length = line'.length) : (key.edit line).length = (key'.edit line').length := by
  cases key <;> cases key' <;> simp_all [shape, edit]

theorem echo_of_shape {shown : Char} {key key' : Key} (h : key.shape = key'.shape) {line line' : Str}
    (hline : line.length = line'.length) : key.echo (fun _ => shown) line = key'.echo (fun _ => shown) line' := by
  have hnil : line = [] ↔ line' = [] := by rw [← List.length_eq_zero_iff, hline, List.length_eq_zero_iff]
  cases key <;> cases key' <;> simp_all [shape, echo]

/-- If every character is shown as the same one, what is shown does not depend on the characters. By induction on the
    keys, with two lines of one length. -/
theorem discipline_of_shape {shown : Char} {keys keys' : List Key} (h : keys.map shape = keys'.map shape)
    {line line' : Str} (hline : line.length = line'.length) :
    (discipline (fun _ => shown) keys line).2.1 = (discipline (fun _ => shown) keys' line').2.1 ∧
      (discipline (fun _ => shown) keys line).1.map List.length =
        (discipline (fun _ => shown) keys' line').1.map List.length := by
  induction keys generalizing keys' line line' with
  | nil =>
    obtain rfl : keys' = [] := by simpa using h.symm
    exact ⟨rfl, rfl⟩
  | cons key keys ih =>
    obtain ⟨key', keys', rfl⟩ : ∃ key' keys'', keys' = key' :: keys'' := by
      cases keys' with
      | nil => cases h
      | cons key' keys'' => exact ⟨key', keys'', rfl⟩
    obtain ⟨hkey, hkeys⟩ := List.cons.inj h
    by_cases henter : key = enter
    · subst henter
      obtain rfl : key' = enter := by cases key' <;> first | rfl | cases hkey
      exact ⟨rfl, congrArg some hline⟩
    · have henter' : key' ≠ enter := by
        rintro rfl
        cases key <;> first | exact henter rfl | cases hkey
      obtain ⟨htext, hresult⟩ := ih hkeys (length_edit_of_shape hkey hline)
      rw [discipline_cons henter, discipline_cons henter', htext, hresult, echo_of_shape hkey hline]
      exact ⟨rfl, rfl⟩

/-- A text that is typed as it is, and the end of the line: the line is the text, and the keys behind it are left. -/
theorem discipline_insert (text : Str) (keys : List Key) (line : Str) :
    (discipline mask (text.map insert ++ enter :: keys) line).1 = some (line ++ text) ∧
      (discipline mask (text.map insert ++ enter :: keys) line).2.2 = keys := by
  induction text generalizing line with
  | nil => simp [discipline]
  | cons c text ih =>
    rw [List.map_cons, List.cons_append, discipline_cons (by simp)]
    simpa [edit] using ih (line ++ [c])

end Key

namespace Terminal

variable {mask : Char → Char} {t : Terminal} {text : Str}

/-- Characters that are put where the cursor is and do not move it otherwise. -/
def IsPlain (c : Char) : Prop := c ≠ '\n' ∧ c ≠ '\x08'

theorem Shows.edit (hmask : ∀ c, IsPlain c → IsPlain (mask c)) {line : Str} (h : t.Shows (text ++ line.map mask))
    {key : Key} (henter : key ≠ .enter) (hkey : ∀ c, key = .insert c → IsPlain c) :
    (t.feed (key.echo mask line)).Shows (text ++ (key.edit line).map mask) := by
  cases key with
  | enter => exact absurd rfl henter
  | other => exact h
  | insert c =>
    have hplain := hmask c (hkey c rfl)
    rw [Key.edit, List.map_append, ← List.append_assoc]
    exact h.put hplain.1 hplain.2
  | erase =>
    rcases List.eq_nil_or_concat line with rfl | ⟨init, last, rfl⟩
    · exact h
    · rw [Key.echo, if_neg (by simp), Key.edit, List.concat_eq_append, List.dropLast_concat]
      rw [List.concat_eq_append, List.map_append, ← List.append_assoc] at h
      exact h.rubout

/-- While the line is not finished the row shows it; then it is the last of the rows that are. The invariant is
    `Shows`, for what stands before the line and the line as it is shown. -/
theorem Shows.discipline (hmask : ∀ c, IsPlain c → IsPlain (mask c)) {keys : List Key}
    (hkeys : ∀ c, .insert c ∈ keys → IsPlain c) {line : Str} (h : t.Shows (text ++ line.map mask)) :
    if .enter ∈ keys then
      ∃ n, t.feed (Key.discipline mask keys line).2.1 =
        ⟨(text ++ (Key.line keys line).map mask ++ List.replicate n ' ') :: t.above, [], 0⟩
    else (t.feed (Key.discipline mask keys line).2.1).Shows (text ++ (Key.line keys line).map mask) := by
  induction keys generalizing t line with
  | nil => exact h
  | cons key keys ih =>
    by_cases henter : key = .enter
    · subst henter
      rw [if_pos List.mem_cons_self, Key.line_enter]
      obtain ⟨n, hcells⟩ := h.cells
      exact ⟨n, by rw [← hcells]; rfl⟩
    · have hstep := h.edit hmask henter fun c hc => hkeys c (hc ▸ List.mem_cons_self)
      have hrest := ih (fun c hc => hkeys c (List.mem_cons_of_mem _ hc)) hstep
      have habove : (t.feed (key.echo mask line)).above = t.above := by
        cases key with
        | enter => exact absurd rfl henter
        | other => rfl
        | insert c =>
          exact above_put (hmask c (hkeys c List.mem_cons_self)).1
        | erase =>
          rw [Key.echo]
          split <;> rfl
      rw [Key.discipline_cons henter, Key.line_cons henter, feed_append]
      simpa [Ne.symm henter, habove] using hrest

end Terminal

end Afos.Lib
