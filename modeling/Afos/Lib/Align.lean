import Mathlib

/-!
# Pages in 64 bits

Checked arithmetic on 64-bit words, rounding down by a mask, and rounding up to the least multiple above.
The words are compared with the numbers they stand for: a checked operation that answers has not wrapped,
and the mask takes off the remainder.
-/

set_option autoImplicit false

namespace Afos.Lib

def checkedAdd (a b : UInt64) : Option UInt64 := if a.toNat + b.toNat < 2 ^ 64 then some (a + b) else none

def checkedSub (a b : UInt64) : Option UInt64 := if b ≤ a then some (a - b) else none

theorem checkedAdd_eq_some_iff {a b c : UInt64} :
    checkedAdd a b = some c ↔ c.toNat = a.toNat + b.toNat := by
  rw [checkedAdd]
  by_cases h : a.toNat + b.toNat < 2 ^ 64
  · rw [if_pos h, Option.some.injEq, ← UInt64.toNat_inj, UInt64.toNat_add, Nat.mod_eq_of_lt h]
    exact eq_comm
  · rw [if_neg h]
    exact ⟨fun hsome => (by cases hsome), fun hsum => absurd (hsum ▸ c.toNat_lt) h⟩

theorem checkedSub_eq_some_iff {a b c : UInt64} :
    checkedSub a b = some c ↔ b.toNat ≤ a.toNat ∧ c.toNat = a.toNat - b.toNat := by
  rw [checkedSub]
  by_cases h : b ≤ a
  · rw [if_pos h, Option.some.injEq, ← UInt64.toNat_inj, UInt64.toNat_sub_of_le _ _ h, eq_comm]
    exact ⟨fun heq => ⟨UInt64.le_iff_toNat_le.mp h, heq⟩, And.right⟩
  · rw [if_neg h]
    exact ⟨fun hsome => (by cases hsome), fun hle => absurd (UInt64.le_iff_toNat_le.mpr hle.1) h⟩

theorem toNat_min (a b : UInt64) : (min a b).toNat = min a.toNat b.toNat := by
  show (if a ≤ b then a else b).toNat = _
  by_cases h : a ≤ b
  · rw [if_pos h, Nat.min_eq_left (UInt64.le_iff_toNat_le.mp h)]
  · have hlt : b.toNat < a.toNat := Nat.lt_of_not_le (mt UInt64.le_iff_toNat_le.mpr h)
    rw [if_neg h, Nat.min_eq_right hlt.le]

/-- Every number below the limit is that of a word. -/
theorem exists_toNat_eq {n : Nat} (h : n < 2 ^ 64) : ∃ x : UInt64, x.toNat = n :=
  ⟨UInt64.ofNat n, UInt64.toNat_ofNat_of_lt' h⟩

/-- A mask of ones above the first `k` bits takes off the remainder by `2 ^ k`. Masks are stated by their value, so
    that they can be written as a program writes them. -/
theorem toNat_and_not {m : UInt64} {k : Nat} (hm : m.toNat = 2 ^ k - 1) (hk : k ≤ 64) (x : UInt64) :
    (x &&& ~~~m).toNat = x.toNat / 2 ^ k * 2 ^ k := by
  have hpow : 2 ^ k ≤ 2 ^ 64 := Nat.pow_le_pow_right (by decide) hk
  have hmask : (~~~m).toNat = 2 ^ 64 - (m.toNat + 1) := by
    rw [UInt64.toNat_not, UInt64.size]
    omega
  rw [UInt64.toNat_and, hmask]
  refine Nat.eq_of_testBit_eq fun i => ?_
  rw [Nat.testBit_and, Nat.testBit_two_pow_sub_succ m.toNat_lt, hm, Nat.testBit_two_pow_sub_one,
    Nat.testBit_mul_two_pow, Nat.testBit_div_two_pow]
  by_cases hi : k ≤ i
  · rw [Nat.sub_add_cancel hi, decide_eq_true hi, decide_eq_false (not_lt.mpr hi)]
    by_cases hhigh : i < 64
    · simp [hhigh]
    · have hzero : x.toNat.testBit i = false :=
        Nat.testBit_lt_two_pow (lt_of_lt_of_le x.toNat_lt (Nat.pow_le_pow_right (by decide) (not_lt.mp hhigh)))
      simp [hzero]
  · rw [decide_eq_false hi, decide_eq_true (not_le.mp hi)]
    simp

/-- The least multiple of the page size that is not below. It is what the mask on a sum comes to where the sum does
    not overflow. -/
def roundUp (page n : Nat) : Nat := (n + (page - 1)) / page * page

section RoundUp

variable {page : Nat} (hpage : 0 < page)

theorem dvd_roundUp (n : Nat) : page ∣ roundUp page n := Dvd.intro_left _ rfl

include hpage

theorem le_roundUp (n : Nat) : n ≤ roundUp page n := by
  have hmod := Nat.div_add_mod (n + (page - 1)) page
  have hlt := Nat.mod_lt (n + (page - 1)) hpage
  rw [Nat.mul_comm] at hmod
  rw [roundUp]
  omega

theorem roundUp_le {n m : Nat} (hm : page ∣ m) (h : n ≤ m) : roundUp page n ≤ m := by
  obtain ⟨q, rfl⟩ := hm
  rw [roundUp, Nat.mul_comm page q]
  refine Nat.mul_le_mul_right page ?_
  rw [Nat.div_le_iff_le_mul_add_pred hpage]
  omega

end RoundUp

end Afos.Lib
