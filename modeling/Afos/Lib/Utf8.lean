import Afos.Lib.Text

/-!
# Encodings of texts

Of ASCII, a text and its encoding are the same list. Texts are ordered by their code points, and their encodings
byte by byte, and that is the same order: a longer code has a greater first byte, and codes of one length are the
digits of their code points to the base 64.
-/

set_option autoImplicit false

namespace Afos.Lib

section Bytes

variable {a b : Nat} {x y : Bytes}

theorem cons_lt_of_lt (h : a < b) (hb : b < 256) : UInt8.ofNat a :: x < UInt8.ofNat b :: y := by
  refine List.cons_lt_cons_iff.mpr (Or.inl ?_)
  rw [UInt8.lt_iff_toNat_lt, UInt8.toNat_ofNat', UInt8.toNat_ofNat']
  omega

theorem cons_lt_of_eq (h : a = b) (hxy : x < y) : UInt8.ofNat a :: x < UInt8.ofNat b :: y :=
  List.cons_lt_cons_iff.mpr (Or.inr ⟨by rw [h], hxy⟩)

end Bytes

/-- Whatever follows, the encoding of the smaller character comes first. It is the one case of the comparison of texts
    in which something happens. -/
theorem utf8EncodeChar_append_lt {c d : Char} (h : c < d) (x y : Bytes) :
    String.utf8EncodeChar c ++ x < String.utf8EncodeChar d ++ y := by
  have hval : c.val.toNat < d.val.toNat := h
  have hd : d.val.toNat < 1114112 := d.valid.elim (fun h => h.trans (by decide)) fun h => h.2
  simp only [String.utf8EncodeChar]
  generalize c.val.toNat = v at hval
  generalize d.val.toNat = w at hval hd
  -- the length of the greater code, and then the length of the smaller
  by_cases h1 : w ≤ 127
  · rw [if_pos h1, if_pos (by omega : v ≤ 127)]
    exact cons_lt_of_lt hval (by omega)
  rw [if_neg h1]
  by_cases h2 : w ≤ 2047
  · rw [if_pos h2]
    by_cases h1' : v ≤ 127
    · rw [if_pos h1']
      exact cons_lt_of_lt (by omega) (by omega)
    rw [if_neg h1', if_pos (by omega : v ≤ 2047)]
    rcases (by omega : v / 64 % 32 < w / 64 % 32 ∨ v / 64 % 32 = w / 64 % 32 ∧ v % 64 < w % 64)
      with hlt | ⟨heq, hlt⟩
    · exact cons_lt_of_lt (by omega) (by omega)
    · exact cons_lt_of_eq (by omega) (cons_lt_of_lt (by omega) (by omega))
  rw [if_neg h2]
  by_cases h3 : w ≤ 65535
  · rw [if_pos h3]
    by_cases h1' : v ≤ 127
    · rw [if_pos h1']
      exact cons_lt_of_lt (by omega) (by omega)
    by_cases h2' : v ≤ 2047
    · rw [if_neg h1', if_pos h2']
      exact cons_lt_of_lt (by omega) (by omega)
    rw [if_neg h1', if_neg h2', if_pos (by omega : v ≤ 65535)]
    rcases (by omega : v / 4096 % 16 < w / 4096 % 16 ∨ v / 4096 % 16 = w / 4096 % 16 ∧
        (v / 64 % 64 < w / 64 % 64 ∨ v / 64 % 64 = w / 64 % 64 ∧ v % 64 < w % 64))
      with hlt | ⟨heq, hlt | ⟨heq', hlt⟩⟩
    · exact cons_lt_of_lt (by omega) (by omega)
    · exact cons_lt_of_eq (by omega) (cons_lt_of_lt (by omega) (by omega))
    · exact cons_lt_of_eq (by omega) (cons_lt_of_eq (by omega) (cons_lt_of_lt (by omega) (by omega)))
  rw [if_neg h3]
  by_cases h1' : v ≤ 127
  · rw [if_pos h1']
    exact cons_lt_of_lt (by omega) (by omega)
  by_cases h2' : v ≤ 2047
  · rw [if_neg h1', if_pos h2']
    exact cons_lt_of_lt (by omega) (by omega)
  by_cases h3' : v ≤ 65535
  · rw [if_neg h1', if_neg h2', if_pos h3']
    exact cons_lt_of_lt (by omega) (by omega)
  rw [if_neg h1', if_neg h2', if_neg h3']
  have hdigits : ∀ n, n / 64 / 64 = n / 4096 ∧ n / 4096 / 64 = n / 262144 := fun n =>
    ⟨Nat.div_div_eq_div_mul n 64 64, Nat.div_div_eq_div_mul n 4096 64⟩
  have hv := hdigits v
  have hw := hdigits w
  rcases (by omega : v / 262144 < w / 262144 ∨ v / 262144 = w / 262144) with h3 | h3
  · exact cons_lt_of_lt (by omega) (by omega)
  refine cons_lt_of_eq (by rw [h3]) ?_
  rcases (by omega : v / 4096 < w / 4096 ∨ v / 4096 = w / 4096) with h2 | h2
  · exact cons_lt_of_lt (by omega) (by omega)
  refine cons_lt_of_eq (by rw [h2]) ?_
  rcases (by omega : v / 64 < w / 64 ∨ v / 64 = w / 64) with h1 | h1
  · exact cons_lt_of_lt (by omega) (by omega)
  exact cons_lt_of_eq (by rw [h1]) (cons_lt_of_lt (by omega) (by omega))

theorem utf8EncodeChar_ne_nil (c : Char) : String.utf8EncodeChar c ≠ [] := by
  simp only [String.utf8EncodeChar]
  split
  · simp
  · split
    · simp
    · split <;> simp

/-! ## ASCII and the rest -/

theorem asBytes_cons (c : Char) (s : Str) : asBytes (c :: s) = String.utf8EncodeChar c ++ asBytes s :=
  List.flatMap_cons

theorem utf8EncodeChar_ascii {c : Char} (h : c.toNat < 128) :
    String.utf8EncodeChar c = [UInt8.ofNat c.toNat] := by
  have hval : c.val.toNat ≤ 127 := Nat.le_of_lt_succ h
  simp only [String.utf8EncodeChar]
  rw [if_pos hval]
  rfl

/-- What is not ASCII takes several bytes, of which the first has its highest bit set. The others have too, which is
    why ASCII bytes can be searched for. -/
theorem utf8EncodeChar_wide {c : Char} (h : 128 ≤ c.toNat) :
    ∃ b b' rest, String.utf8EncodeChar c = b :: b' :: rest ∧ 128 ≤ b.toNat := by
  have hval : ¬ c.val.toNat ≤ 127 := Nat.not_le_of_lt h
  simp only [String.utf8EncodeChar]
  rw [if_neg hval]
  split
  · refine ⟨_, _, _, rfl, ?_⟩
    rw [UInt8.toNat_ofNat']
    omega
  split
  · refine ⟨_, _, _, rfl, ?_⟩
    rw [UInt8.toNat_ofNat']
    omega
  · refine ⟨_, _, _, rfl, ?_⟩
    rw [UInt8.toNat_ofNat']
    omega

theorem le_of_mem_utf8EncodeChar {c : Char} (h : 128 ≤ c.toNat) {b : UInt8} (hb : b ∈ String.utf8EncodeChar c) :
    128 ≤ b.toNat := by
  have hval : ¬ c.val.toNat ≤ 127 := Nat.not_le_of_lt h
  simp only [String.utf8EncodeChar] at hb
  rw [if_neg hval] at hb
  split at hb
  · simp only [List.mem_cons, List.not_mem_nil, or_false] at hb
    rcases hb with rfl | rfl <;> rw [UInt8.toNat_ofNat'] <;> omega
  split at hb
  · simp only [List.mem_cons, List.not_mem_nil, or_false] at hb
    rcases hb with rfl | rfl | rfl <;> rw [UInt8.toNat_ofNat'] <;> omega
  · simp only [List.mem_cons, List.not_mem_nil, or_false] at hb
    rcases hb with rfl | rfl | rfl | rfl <;> rw [UInt8.toNat_ofNat'] <;> omega

/-- The byte of an ASCII character stands for nothing else, so a slash or a line end is found in the bytes exactly
    where it is in the text. -/
theorem mem_asBytes_iff {c : Char} (h : c.toNat < 128) {s : Str} : UInt8.ofNat c.toNat ∈ asBytes s ↔ c ∈ s := by
  have hbyte : (UInt8.ofNat c.toNat).toNat = c.toNat := UInt8.toNat_ofNat_of_lt' (by show c.toNat < 2 ^ 8; omega)
  rw [asBytes, List.mem_flatMap]
  constructor
  · rintro ⟨d, hd, hmem⟩
    by_cases hwide : 128 ≤ d.toNat
    · have := le_of_mem_utf8EncodeChar hwide hmem
      omega
    · rw [utf8EncodeChar_ascii (Nat.lt_of_not_le hwide), List.mem_singleton] at hmem
      have heq : c.toNat = d.toNat := by
        rw [← hbyte, hmem]
        exact UInt8.toNat_ofNat_of_lt' (show d.toNat < 2 ^ 8 by omega)
      rwa [Char.toNat_inj.mp heq]
  · intro hc
    exact ⟨c, hc, by rw [utf8EncodeChar_ascii h]; exact List.mem_singleton.mpr rfl⟩

theorem length_asBytes_ascii {s : Str} (h : ∀ c ∈ s, c.toNat < 128) : (asBytes s).length = s.length := by
  induction s with
  | nil => rfl
  | cons c s ih =>
    rw [asBytes_cons, utf8EncodeChar_ascii (h c List.mem_cons_self), List.singleton_append,
      List.length_cons, List.length_cons, ih fun d hd => h d (List.mem_cons_of_mem c hd)]

/-! ## Order -/

theorem asBytes_lt {s t : Str} (h : s < t) : asBytes s < asBytes t := by
  induction s generalizing t with
  | nil =>
    cases t with
    | nil => cases h
    | cons d t =>
      have hne : asBytes (d :: t) ≠ [] := by
        rw [asBytes, List.flatMap_cons]
        exact fun hnil => utf8EncodeChar_ne_nil d (List.append_eq_nil_iff.mp hnil).1
      cases hd : asBytes (d :: t) with
      | nil => exact absurd hd hne
      | cons b bs => exact List.nil_lt_cons b bs
  | cons c s ih =>
    cases t with
    | nil => cases h
    | cons d t =>
      rw [asBytes, asBytes, List.flatMap_cons, List.flatMap_cons]
      rcases List.cons_lt_cons_iff.mp h with hcd | ⟨rfl, hst⟩
      · exact utf8EncodeChar_append_lt hcd _ _
      · exact List.append_left_lt (ih hst)

/-- Texts and their encodings are in the same order. Sorting by one is sorting by the other, and which of the two a
    program does need not be asked. -/
theorem asBytes_lt_iff {s t : Str} : asBytes s < asBytes t ↔ s < t := by
  refine ⟨fun h => ?_, asBytes_lt⟩
  rcases lt_trichotomy s t with hlt | rfl | hgt
  · exact hlt
  · exact absurd h (List.lt_irrefl _)
  · exact absurd (asBytes_lt hgt) (List.lt_asymm h)

end Afos.Lib
