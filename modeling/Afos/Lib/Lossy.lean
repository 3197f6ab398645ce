import Afos.Lib.Utf8

/-!
# Decoding what may not be text

`fromUtf8Lossy` reads bytes as text whatever they are, and puts U+FFFD where it cannot: once for every
longest piece that is the beginning of a character and goes wrong after that.

The replacement takes three bytes to write, at least as many as the piece it stands for, and more than a
piece of one byte. So text that was read lossily is never shorter than the bytes it was read from, and it
is longer if these begin in the middle of a character (`length_lt_of_not_firstByte`). That is what tells a
cut inside a character from one between two: a stream that is read in chunks comes out as its text exactly
if every chunk is text by itself (`flatMap_fromUtf8Lossy_iff`).
-/

set_option autoImplicit false

namespace Afos.Lib

def replacement : Char := '�'

def isContinuation (b : UInt8) : Bool := 0x80 ≤ b && b ≤ 0xBF

/-- Whether the second byte may follow the first, of a character of three bytes or four. The ranges leave out what
    would be too long an encoding, a surrogate, or too large a number. -/
def secondFits (x y : UInt8) : Bool :=
  (x == 0xE0 && 0xA0 ≤ y && y ≤ 0xBF) || (0xE1 ≤ x && x ≤ 0xEC && isContinuation y) ||
    (x == 0xED && 0x80 ≤ y && y ≤ 0x9F) || (0xEE ≤ x && x ≤ 0xEF && isContinuation y) ||
    (x == 0xF0 && 0x90 ≤ y && y ≤ 0xBF) || (0xF1 ≤ x && x ≤ 0xF3 && isContinuation y) ||
    (x == 0xF4 && 0x80 ≤ y && y ≤ 0x8F)

/-- The length of the piece that goes wrong, in bytes that do not begin with a character: as much of one as could
    still have become one. -/
def brokenLen : Bytes → Nat
  | [] => 0
  | [_] => 1
  | x :: y :: rest =>
      if !secondFits x y then 1
      else if 0xF0 ≤ x && rest.head?.any isContinuation then 3
      else 2

/-- The first character, or the replacement, and how many bytes it stands for. One replacement stands for one broken
    piece, not for one byte. -/
def lossyStep (b : Bytes) : Char × Nat :=
  match b.toByteArray.utf8DecodeChar? 0 with
  | some c => (c, c.utf8Size)
  | none => (replacement, brokenLen b)

/-- The loop, for at most `fuel` characters. Every step takes up a byte at least, so the number of bytes is fuel
    enough. -/
def lossyFrom : Nat → Bytes → Str
  | 0, _ => []
  | _, [] => []
  | fuel + 1, x :: b =>
      (lossyStep (x :: b)).1 :: lossyFrom fuel ((x :: b).drop (lossyStep (x :: b)).2)

def fromUtf8Lossy (b : Bytes) : Str := lossyFrom b.length b

example : fromUtf8Lossy [0xC3, 0xA9, 0x61] = "éa".toList ∧
    fromUtf8Lossy [0xC3] = [replacement] ∧ fromUtf8Lossy [0xA9, 0x61] = [replacement, 'a'] ∧
    fromUtf8Lossy [0xF0, 0x9F, 0x98, 0x61] = [replacement, 'a'] ∧
    fromUtf8Lossy [0xE0, 0x80, 0x80] = [replacement, replacement, replacement] := by
  decide +kernel

/-! ## One step -/

theorem lossyStep_char (c : Char) (b : Bytes) :
    lossyStep (String.utf8EncodeChar c ++ b) = (c, (String.utf8EncodeChar c).length) := by
  have hdecode : (String.utf8EncodeChar c ++ b).toByteArray.utf8DecodeChar? 0 = some c := by
    rw [List.toByteArray_append]
    exact ByteArray.utf8DecodeChar?_utf8EncodeChar_append
  rw [lossyStep, hdecode, String.length_utf8EncodeChar]

theorem brokenLen_le (b : Bytes) : brokenLen b ≤ 3 := by
  unfold brokenLen
  split
  · omega
  · omega
  · split
    · omega
    · split
      · omega
      · omega

theorem brokenLen_pos {b : Bytes} (h : b ≠ []) : 1 ≤ brokenLen b := by
  unfold brokenLen
  split
  · exact absurd rfl h
  · omega
  · split
    · omega
    · split
      · omega
      · omega

theorem length_replacement : (String.utf8EncodeChar replacement).length = 3 := by decide

theorem lossyStep_pos {b : Bytes} (h : b ≠ []) : 1 ≤ (lossyStep b).2 := by
  rw [lossyStep]
  split
  · exact Char.utf8Size_pos _
  · exact brokenLen_pos h

/-- What a step puts down is at least as long as what it takes up. A replacement has three bytes, and a broken piece
    at most three. -/
theorem lossyStep_le (b : Bytes) : (lossyStep b).2 ≤ (String.utf8EncodeChar (lossyStep b).1).length := by
  rw [lossyStep]
  split
  · rw [String.length_utf8EncodeChar]
  · rw [length_replacement]
    exact brokenLen_le b

theorem firstByte_of_secondFits {x y : UInt8} (h : secondFits x y = true) : x.IsUTF8FirstByte := by
  have hall : ∀ n : Fin 256, 0xE0 ≤ UInt8.ofNat n → UInt8.ofNat n ≤ 0xF4 →
      (UInt8.ofNat n).IsUTF8FirstByte := by
    decide +kernel
  have hrange : 0xE0 ≤ x ∧ x ≤ 0xF4 := by
    simp only [secondFits, Bool.or_eq_true, Bool.and_eq_true, beq_iff_eq, decide_eq_true_eq] at h
    rcases h with (((((⟨⟨rfl, -⟩, -⟩ | ⟨⟨hlow, hhigh⟩, -⟩) | ⟨⟨rfl, -⟩, -⟩) | ⟨⟨hlow, hhigh⟩, -⟩) |
      ⟨⟨rfl, -⟩, -⟩) | ⟨⟨hlow, hhigh⟩, -⟩) | ⟨⟨rfl, -⟩, -⟩
    · decide
    · exact ⟨UInt8.le_trans (by decide) hlow, UInt8.le_trans hhigh (by decide)⟩
    · decide
    · exact ⟨UInt8.le_trans (by decide) hlow, UInt8.le_trans hhigh (by decide)⟩
    · decide
    · exact ⟨UInt8.le_trans (by decide) hlow, UInt8.le_trans hhigh (by decide)⟩
    · decide
  have hx := hall ⟨x.toNat, x.toNat_lt⟩
  rw [UInt8.ofNat_toNat] at hx
  exact hx hrange.1 hrange.2

/-- In the middle of a character, a step takes up one byte and puts down three. This is where a chunk that begins
    there gets longer. -/
theorem lossyStep_of_not_firstByte {x : UInt8} (hx : ¬ x.IsUTF8FirstByte) (b : Bytes) :
    lossyStep (x :: b) = (replacement, 1) := by
  have hdecode : (x :: b).toByteArray.utf8DecodeChar? 0 = none := by
    by_contra hsome
    have hfirst := ByteArray.isUTF8FirstByte_of_isSome_utf8DecodeChar? (Option.isSome_iff_ne_none.mpr hsome)
    exact hx (by simpa using hfirst)
  have hfits : ∀ y, secondFits x y = false := fun y =>
    Bool.eq_false_iff.mpr fun h => hx (firstByte_of_secondFits h)
  rw [lossyStep, hdecode]
  cases b with
  | nil => rfl
  | cons y rest => rw [brokenLen, hfits]; rfl

/-! ## The loop -/

theorem length_drop_lossyStep_lt {b : Bytes} (h : b ≠ []) :
    (b.drop (lossyStep b).2).length < b.length := by
  have hpos := lossyStep_pos h
  have hlen := List.length_pos_iff.mpr h
  rw [List.length_drop]
  omega

/-- More fuel than there are bytes makes no difference. Stated for two amounts of fuel, since the induction has to
    compare them. -/
theorem lossyFrom_eq {fuel : Nat} {b : Bytes} (h : b.length ≤ fuel) : lossyFrom fuel b = fromUtf8Lossy b := by
  suffices hall : ∀ (n m : Nat) (b : Bytes), b.length ≤ n → b.length ≤ m →
      lossyFrom n b = lossyFrom m b from hall _ _ b h le_rfl
  intro n
  induction n with
  | zero =>
    intro m b hn _
    rw [List.length_eq_zero_iff.mp (Nat.le_zero.mp hn)]
    cases m with
    | zero => rfl
    | succ m => rfl
  | succ n ih =>
    intro m b hn hm
    cases b with
    | nil =>
      cases m with
      | zero => rfl
      | succ m => rfl
    | cons x b =>
      cases m with
      | zero => cases hm
      | succ m =>
        have hlt := length_drop_lossyStep_lt (List.cons_ne_nil x b)
        rw [lossyFrom, lossyFrom, ih m _ (by omega) (by omega)]

theorem fromUtf8Lossy_eq {b : Bytes} (h : b ≠ []) :
    fromUtf8Lossy b = (lossyStep b).1 :: fromUtf8Lossy (b.drop (lossyStep b).2) := by
  have hlt := length_drop_lossyStep_lt h
  cases b with
  | nil => exact absurd rfl h
  | cons x b =>
    rw [fromUtf8Lossy, List.length_cons, lossyFrom, lossyFrom_eq (by rw [List.length_cons] at hlt; omega)]

/-- Text is read as what it is: on an encoding every step finds a character. -/
theorem fromUtf8Lossy_asBytes (s : Str) : fromUtf8Lossy (asBytes s) = s := by
  induction s with
  | nil => rfl
  | cons c s ih =>
    have hne : asBytes (c :: s) ≠ [] := by
      rw [asBytes_cons]
      exact List.append_ne_nil_of_left_ne_nil (utf8EncodeChar_ne_nil c) _
    rw [fromUtf8Lossy_eq hne, asBytes_cons, lossyStep_char, List.drop_left, ih]

theorem length_le_fromUtf8Lossy (b : Bytes) : b.length ≤ (asBytes (fromUtf8Lossy b)).length := by
  induction hn : b.length using Nat.strong_induction_on generalizing b with
  | _ n ih =>
    by_cases hnil : b = []
    · rw [← hn, hnil]
      exact Nat.zero_le _
    · have hrest := ih _ (hn ▸ length_drop_lossyStep_lt hnil) _ rfl
      have hstep := lossyStep_le b
      rw [fromUtf8Lossy_eq hnil, asBytes_cons, List.length_append]
      rw [List.length_drop] at hrest
      omega

/-- Bytes that begin in the middle of a character come out longer, because the first step adds two and no step takes
    anything away. -/
theorem length_lt_of_not_firstByte {x : UInt8} (hx : ¬ x.IsUTF8FirstByte) (b : Bytes) :
    (x :: b).length < (asBytes (fromUtf8Lossy (x :: b))).length := by
  have hrest := length_le_fromUtf8Lossy b
  rw [fromUtf8Lossy_eq (List.cons_ne_nil x b), lossyStep_of_not_firstByte hx, asBytes_cons,
    List.length_append, length_replacement, List.length_cons, List.drop_one, List.tail_cons]
  omega

/-! ## Streams and chunks -/

/-- A cut of text in front of the first byte of a character is a cut between characters, so both sides are text. -/
theorem exists_asBytes_of_append {s : Str} {x y : Bytes} (h : asBytes s = x ++ y)
    (hy : ∀ b ∈ y.head?, b.IsUTF8FirstByte) : ∃ t u, x = asBytes t ∧ y = asBytes u := by
  induction s generalizing x with
  | nil =>
    obtain ⟨rfl, rfl⟩ := List.append_eq_nil_iff.mp h.symm
    exact ⟨[], [], rfl, rfl⟩
  | cons c s ih =>
    rw [asBytes_cons] at h
    rcases List.append_eq_append_iff.mp h with ⟨z, hx, hs⟩ | ⟨z, hc, hy'⟩
    · -- the first character is before the cut
      obtain ⟨t, u, rfl, hu⟩ := ih hs
      exact ⟨c :: t, u, by rw [asBytes_cons, hx], hu⟩
    · -- the cut is in or right before the first character, or right after it
      cases x with
      | nil => exact ⟨[], c :: s, rfl, by rw [asBytes_cons, h]; rfl⟩
      | cons a x =>
        cases z with
        | nil =>
          rw [List.append_nil] at hc
          exact ⟨[c], s, by rw [asBytes_cons, hc]; simp [asBytes], hy'⟩
        | cons b z =>
          have hfirst : b.IsUTF8FirstByte := hy b (by rw [hy']; rfl)
          have hlt : x.length + 1 < (String.utf8EncodeChar c).length := by
            rw [hc]
            simp
          have hget : (String.utf8EncodeChar c)[x.length + 1] = b := by
            simp only [hc]
            simp
          have hzero : (String.utf8EncodeChar c)[x.length + 1].IsUTF8FirstByte ↔ x.length + 1 = 0 :=
            UInt8.isUTF8FirstByte_getElem_utf8EncodeChar
          cases hzero.mp (hget ▸ hfirst)

theorem asBytes_injective : Function.Injective asBytes := fun s t h =>
  Option.some.inj (by rw [← fromUtf8_asBytes s, h, fromUtf8_asBytes])

theorem asBytes_flatMap (chunks : List Bytes) (f : Bytes → Str) :
    asBytes (chunks.flatMap f) = chunks.flatMap fun chunk => asBytes (f chunk) := by
  rw [asBytes, List.flatMap_assoc]
  rfl

theorem length_flatten_le (chunks : List Bytes) :
    chunks.flatten.length ≤ (chunks.flatMap fun chunk => asBytes (fromUtf8Lossy chunk)).length := by
  induction chunks with
  | nil => exact le_rfl
  | cons chunk chunks ih =>
    rw [List.flatten_cons, List.flatMap_cons, List.length_append, List.length_append]
    exact Nat.add_le_add (length_le_fromUtf8Lossy chunk) ih

/-- If nothing comes out longer than it went in, no chunk begins in the middle of a character. No chunk can make up
    for another, since none gets shorter. -/
theorem firstByte_of_length_eq {chunks : List Bytes}
    (h : (chunks.flatMap fun chunk => asBytes (fromUtf8Lossy chunk)).length = chunks.flatten.length) :
    ∀ chunk ∈ chunks, ∀ b ∈ chunk.head?, b.IsUTF8FirstByte := by
  induction chunks with
  | nil => exact fun chunk hchunk => (by cases hchunk)
  | cons chunk chunks ih =>
    have hfirst := length_le_fromUtf8Lossy chunk
    have hrest := length_flatten_le chunks
    rw [List.flatten_cons, List.flatMap_cons, List.length_append, List.length_append] at h
    rw [List.forall_mem_cons]
    refine ⟨fun b hb => ?_, ih (by omega)⟩
    by_contra hmiddle
    cases chunk with
    | nil => cases hb
    | cons x chunk =>
      obtain rfl := Option.some.inj hb
      have hlonger := length_lt_of_not_firstByte hmiddle chunk
      omega

/-- Chunks of text that all begin with the first byte of a character are texts, by cutting them off from the front one
    at a time. -/
theorem isSome_of_firstByte {chunks : List Bytes} (hne : ∀ chunk ∈ chunks, chunk ≠ [])
    (hfirst : ∀ chunk ∈ chunks, ∀ b ∈ chunk.head?, b.IsUTF8FirstByte) {s : Str}
    (h : chunks.flatten = asBytes s) : ∀ chunk ∈ chunks, (fromUtf8 chunk).isSome = true := by
  induction chunks generalizing s with
  | nil => exact fun chunk hchunk => (by cases hchunk)
  | cons chunk chunks ih =>
    rw [List.forall_mem_cons] at hne hfirst ⊢
    have hcut : ∀ b ∈ chunks.flatten.head?, b.IsUTF8FirstByte := by
      cases chunks with
      | nil => exact fun b hb => (by cases hb)
      | cons next chunks =>
        have hnext := hne.2 next List.mem_cons_self
        rw [List.flatten_cons, List.head?_append_of_ne_nil _ hnext]
        exact hfirst.2 next List.mem_cons_self
    obtain ⟨t, u, rfl, hu⟩ := exists_asBytes_of_append h.symm hcut
    exact ⟨by rw [fromUtf8_asBytes]; rfl, ih hne.2 hfirst.2 hu⟩

/-- A stream of text, read in chunks, comes out as its text exactly if every chunk is text. -/
theorem flatMap_fromUtf8Lossy_iff {chunks : List Bytes} (hne : ∀ chunk ∈ chunks, chunk ≠ []) {s : Str}
    (h : chunks.flatten = asBytes s) :
    chunks.flatMap fromUtf8Lossy = s ↔ ∀ chunk ∈ chunks, (fromUtf8 chunk).isSome = true := by
  constructor
  · intro hsame
    refine isSome_of_firstByte hne (firstByte_of_length_eq ?_) h
    rw [← asBytes_flatMap, hsame, h]
  · intro htext
    refine asBytes_injective ?_
    rw [asBytes_flatMap, ← h, ← List.flatMap_id]
    refine List.flatMap_congr fun chunk hchunk => ?_
    obtain ⟨t, ht⟩ := Option.isSome_iff_exists.mp (htext chunk hchunk)
    rw [← asBytes_of_fromUtf8 ht, fromUtf8Lossy_asBytes]
    rfl

end Afos.Lib
