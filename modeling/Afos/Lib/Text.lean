import Mathlib

/-!
# Text, as lists of characters

Text is a list of Unicode scalar values, and its bytes are its UTF-8 encoding. The functions
are the ones the standard string type offers, with its conventions: `splitOnce` cuts at the
first separator and `rsplitOnce` at the last, `lines` drops one line terminator (`\n` or
`\r\n`) per line and does not report an empty last line, `trim` removes Unicode white space,
and comparison ignoring case is ASCII only. Texts are ordered by their code points, first
difference first, which is also the order of their encodings.
-/

set_option autoImplicit false

namespace Afos.Lib

abbrev Str := List Char

abbrev Bytes := List UInt8

/-! ## Bytes -/

/-- The UTF-8 encoding of a text, character by character. Lengths of texts in the modelled programs are lengths of
    this. -/
def asBytes (s : Str) : Bytes := s.flatMap String.utf8EncodeChar

/-- The text whose UTF-8 encoding is `b`, if there is one. There is at most one, and bytes that are cut in the middle
    of a character have none. -/
def fromUtf8 (b : Bytes) : Option Str := b.toByteArray.utf8Decode?.map Array.toList

theorem fromUtf8_asBytes (s : Str) : fromUtf8 (asBytes s) = some s := by
  have h : (asBytes s).toByteArray = s.utf8Encode := rfl
  rw [fromUtf8, h, List.utf8Decode?_utf8Encode]
  rfl

theorem asBytes_of_fromUtf8 {b : Bytes} {s : Str} (h : fromUtf8 b = some s) : asBytes s = b := by
  rw [fromUtf8, Option.map_eq_some_iff] at h
  obtain ⟨a, ha, rfl⟩ := h
  have hsome : b.toByteArray.utf8Decode?.isSome := by rw [ha]; rfl
  have henc := ByteArray.utf8Encode_get_utf8Decode? (b := b.toByteArray) (h := hsome)
  simp only [ha, Option.get_some] at henc
  have hlist : (asBytes a.toList).toByteArray = b.toByteArray := henc
  simpa using congrArg (fun x : ByteArray => x.data.toList) hlist

/-! ## Cutting -/

/-- What follows a given beginning of a text, or nothing if the text begins differently. -/
def stripPrefix : Str → Str → Option Str
  | [], s => some s
  | _ :: _, [] => none
  | c :: p, d :: s => if c = d then stripPrefix p s else none

theorem stripPrefix_eq_some_iff : ∀ {p s r : Str}, stripPrefix p s = some r ↔ s = p ++ r
  | [], s, r => by simp [stripPrefix]
  | _ :: _, [], r => by simp [stripPrefix]
  | c :: p, d :: s, r => by
    rw [stripPrefix]
    by_cases h : c = d
    · rw [if_pos h, stripPrefix_eq_some_iff, h]
      simp
    · rw [if_neg h]
      simp [Ne.symm h]

theorem stripPrefix_append (p r : Str) : stripPrefix p (p ++ r) = some r :=
  stripPrefix_eq_some_iff.mpr rfl

def startsWith (p s : Str) : Bool := (stripPrefix p s).isSome

theorem startsWith_iff {p s : Str} : startsWith p s = true ↔ ∃ r, s = p ++ r := by
  rw [startsWith, Option.isSome_iff_exists]
  simp only [stripPrefix_eq_some_iff]

/-- Before and after the first separator. The separator itself is in neither part, and the second part may have more
    of them. -/
def splitOnce (sep : Char) : Str → Option (Str × Str)
  | [] => none
  | c :: s =>
      if c = sep then some ([], s)
      else (splitOnce sep s).map fun p => (c :: p.1, p.2)

theorem splitOnce_eq_some_iff {sep : Char} : ∀ {s a b : Str},
    splitOnce sep s = some (a, b) ↔ s = a ++ sep :: b ∧ sep ∉ a := by
  intro s
  induction s with
  | nil => intro a b; simp [splitOnce]
  | cons c s ih =>
    intro a b
    rw [splitOnce]
    by_cases h : c = sep
    · rw [if_pos h]
      subst h
      constructor
      · rintro ⟨⟩
        simp
      · rintro ⟨heq, hne⟩
        cases a with
        | nil => simpa using heq
        | cons x a =>
          simp only [List.cons_append, List.cons.injEq] at heq
          exact absurd (heq.1 ▸ List.mem_cons_self) hne
    · rw [if_neg h, Option.map_eq_some_iff]
      constructor
      · rintro ⟨⟨a', b'⟩, hs, heq⟩
        simp only [Prod.mk.injEq] at heq
        obtain ⟨rfl, rfl⟩ := heq
        obtain ⟨rfl, hne⟩ := ih.mp hs
        exact ⟨rfl, by simp [Ne.symm h, hne]⟩
      · rintro ⟨heq, hne⟩
        cases a with
        | nil => simp [h] at heq
        | cons x a =>
          simp only [List.cons_append, List.cons.injEq] at heq
          obtain ⟨rfl, rfl⟩ := heq
          exact ⟨(a, b), ih.mpr ⟨rfl, fun hm => hne (List.mem_cons_of_mem _ hm)⟩, rfl⟩

theorem splitOnce_eq_none_iff {sep : Char} : ∀ {s : Str}, splitOnce sep s = none ↔ sep ∉ s := by
  intro s
  induction s with
  | nil => simp [splitOnce]
  | cons c s ih =>
    rw [splitOnce]
    by_cases h : c = sep
    · simp [h]
    · simp [h, ih, Ne.symm h]

/-- Before and after the last separator: the first one of the text read backwards. -/
def rsplitOnce (sep : Char) (s : Str) : Option (Str × Str) :=
  (splitOnce sep s.reverse).map fun p => (p.2.reverse, p.1.reverse)

theorem rsplitOnce_eq_some_iff {sep : Char} {s a b : Str} :
    rsplitOnce sep s = some (a, b) ↔ s = a ++ sep :: b ∧ sep ∉ b := by
  rw [rsplitOnce, Option.map_eq_some_iff]
  constructor
  · rintro ⟨⟨x, y⟩, hs, heq⟩
    simp only [Prod.mk.injEq] at heq
    obtain ⟨rfl, rfl⟩ := heq
    obtain ⟨hrev, hne⟩ := splitOnce_eq_some_iff.mp hs
    refine ⟨?_, by simpa using hne⟩
    simpa using congrArg List.reverse hrev
  · rintro ⟨rfl, hne⟩
    refine ⟨(b.reverse, a.reverse), splitOnce_eq_some_iff.mpr ⟨by simp, by simpa using hne⟩, ?_⟩
    simp

theorem rsplitOnce_eq_none_iff {sep : Char} {s : Str} : rsplitOnce sep s = none ↔ sep ∉ s := by
  rw [rsplitOnce, Option.map_eq_none_iff, splitOnce_eq_none_iff, List.mem_reverse]

/-! ## Characters -/

/-- Unicode `White_Space`, as `char::is_whitespace` has it. These are more characters than the ASCII blanks. -/
def isWhitespace (c : Char) : Bool :=
  let n := c.toNat
  (0x09 ≤ n && n ≤ 0x0d) || n == 0x20 || n == 0x85 || n == 0xa0 || n == 0x1680 ||
    (0x2000 ≤ n && n ≤ 0x200a) || n == 0x2028 || n == 0x2029 || n == 0x202f ||
    n == 0x205f || n == 0x3000

def trim (s : Str) : Str :=
  ((s.dropWhile isWhitespace).reverse.dropWhile isWhitespace).reverse

/-- Equality up to ASCII case (`Char.toLower` changes ASCII letters only). -/
def eqIgnoreAsciiCase (s t : Str) : Bool := s.map Char.toLower == t.map Char.toLower

/-! ## Lines -/

/-- A line without the `\r` of a `\r\n` terminator. Only one is taken away; what stands before it belongs to the
    line. -/
def stripCr (line : Str) : Str :=
  if line.getLast? = some '\r' then line.dropLast else line

/-- The pieces between line feeds. Every piece but the last ended in `\n`; the last is a line
    of its own only when it is not empty, and keeps a trailing `\r`. -/
def lines (s : Str) : List Str :=
  let pieces := s.splitOn '\n'
  let last := pieces.getLast (List.splitOn_ne_nil _ _)
  pieces.dropLast.map stripCr ++ (if last = [] then [] else [last])

/-! ## Numbers -/

/-- The value of a non-empty string of decimal digits. There is no limit here: the numbers of a fixed width are cut
    out of it below. -/
def parseDigits (s : Str) : Option Nat :=
  if s ≠ [] ∧ s.all Char.isDigit then
    some (s.foldl (fun n c => 10 * n + (c.toNat - '0'.toNat)) 0)
  else none

/-- An unsigned number of 16 bits, with an optional leading plus sign. Leading zeros are read, and a minus sign is
    refused even in front of a zero. -/
def parseU16 (s : Str) : Option Nat :=
  let digits := match s with
    | '+' :: rest => rest
    | _ => s
  (parseDigits digits).filter (· < 2 ^ 16)

/-- An unsigned number of 8 bits, with what is allowed of one of 16. -/
def parseU8 (s : Str) : Option UInt8 := ((parseU16 s).filter (· < 2 ^ 8)).map UInt8.ofNat

/-- A signed number of 32 bits, with an optional leading sign. A sign alone is no number. -/
def parseI32 (s : Str) : Option Int :=
  let value : Option Int := match s with
    | '+' :: rest => (parseDigits rest).map Int.ofNat
    | '-' :: rest => (parseDigits rest).map fun n => - Int.ofNat n
    | _ => (parseDigits s).map Int.ofNat
  value.filter fun i => - 2 ^ 31 ≤ i ∧ i < 2 ^ 31

/-- Decimal notation. -/
def natToStr (n : Nat) : Str := Nat.toDigits 10 n

def intToStr : Int → Str
  | .ofNat n => natToStr n
  | .negSucc n => '-' :: natToStr (n + 1)

end Afos.Lib
