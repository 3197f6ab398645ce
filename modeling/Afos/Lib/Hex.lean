import Afos.Lib.Utf8

/-!
# Hexadecimal digits

What a text of hexadecimal digits stands for, of either case, two digits to a byte.
-/

set_option autoImplicit false

namespace Afos.Lib

def isHexDigit (c : Char) : Bool :=
  ('0' ≤ c && c ≤ '9') || ('a' ≤ c && c ≤ 'f') || ('A' ≤ c && c ≤ 'F')

/-- The value of a digit, of either case. Of a character that is no digit it is some number that means nothing. -/
def hexValue (c : Char) : UInt8 :=
  if c ≤ '9' then UInt8.ofNat (c.toNat - '0'.toNat)
  else if c ≤ 'F' then UInt8.ofNat (c.toNat - 'A'.toNat + 10)
  else UInt8.ofNat (c.toNat - 'a'.toNat + 10)

/-- The bytes that pairs of digits stand for; a digit without a partner at the end is dropped. -/
def unhex : Str → Bytes
  | a :: b :: rest => (hexValue a * 16 + hexValue b) :: unhex rest
  | _ => []

/-- Digits, and `n` of them: the texts on which `unhex` means something and the number of bytes is known. -/
def IsHex (n : Nat) (s : Str) : Prop := s.length = n ∧ ∀ c ∈ s, isHexDigit c = true

theorem toNat_lt_of_isHexDigit {c : Char} (h : isHexDigit c = true) : c.toNat < 128 := by
  simp only [isHexDigit, Bool.or_eq_true, Bool.and_eq_true, decide_eq_true_eq] at h
  have hle : c ≤ 'f' := by
    rcases h with (⟨-, h⟩ | ⟨-, h⟩) | ⟨-, h⟩
    · exact h.trans (by decide)
    · exact h
    · exact h.trans (by decide)
  exact lt_of_le_of_lt (show c.toNat ≤ 'f'.toNat from hle) (by decide)

theorem IsHex.length_asBytes {n : Nat} {s : Str} (h : IsHex n s) : (asBytes s).length = n := by
  rw [length_asBytes_ascii fun c hc => toNat_lt_of_isHexDigit (h.2 c hc), h.1]

end Afos.Lib
