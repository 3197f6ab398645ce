import Mathlib

/-!
# Memory behind a pointer

The bytes at and after an address, and a record of every access to them. Nothing checks an access when it is
made, as behind a raw pointer: that all of them were in range is said afterwards, of the record.
-/

set_option autoImplicit false

namespace Afos.Lib

/-- An access to some bytes in a row, and whether it was a store. What was read or written is not kept. -/
structure Access where
  isStore : Bool
  offset : Nat
  len : Nat
  deriving DecidableEq

structure Raw where
  bytes : Nat → UInt8
  accesses : List Access := []

namespace Raw

/-- Source name: `core::ptr::copy`. The two places may overlap: what is stored is what was there before the call. -/
def copy (m : Raw) (source target len : Nat) : Raw where
  bytes i := if target ≤ i ∧ i < target + len then m.bytes (source + (i - target)) else m.bytes i
  accesses := m.accesses ++ [⟨false, source, len⟩, ⟨true, target, len⟩]

/-- Source name: `core::ptr::write_bytes`. An access of no bytes is recorded too, and is inside anything. -/
def fill (m : Raw) (target : Nat) (value : UInt8) (len : Nat) : Raw where
  bytes i := if target ≤ i ∧ i < target + len then value else m.bytes i
  accesses := m.accesses ++ [⟨true, target, len⟩]

/-- Source name: `core::ptr::write_volatile`, of a 32-bit word, lowest byte first, as both machines have it. -/
def storeWord (m : Raw) (target : Nat) (value : UInt32) : Raw where
  bytes i := if target ≤ i ∧ i < target + 4 then (value >>> (8 * (i - target)).toUInt32).toUInt8
    else m.bytes i
  accesses := m.accesses ++ [⟨true, target, 4⟩]

/-- The bytes of a word, lowest first, are at an offset. It is what reading the word back would show. -/
def Holds (m : Raw) (target : Nat) (value : UInt32) : Prop :=
  ∀ k < 4, m.bytes (target + k) = (value >>> (8 * k).toUInt32).toUInt8

/-- Every access so far was to the first `n` bytes. The record only grows, so it is enough to look at each access as
    it is made. -/
def Within (m : Raw) (n : Nat) : Prop := ∀ access ∈ m.accesses, access.offset + access.len ≤ n

variable {m : Raw} {n : Nat}

theorem within_copy (h : m.Within n) {source target len : Nat} (hsource : source + len ≤ n)
    (htarget : target + len ≤ n) : (m.copy source target len).Within n := by
  intro access hin
  simp only [copy, List.mem_append, List.mem_cons, List.not_mem_nil, or_false] at hin
  rcases hin with hin | rfl | rfl
  · exact h access hin
  · exact hsource
  · exact htarget

theorem within_fill (h : m.Within n) {target len : Nat} (htarget : target + len ≤ n) (value : UInt8) :
    (m.fill target value len).Within n := by
  intro access hin
  simp only [fill, List.mem_append, List.mem_singleton] at hin
  rcases hin with hin | rfl
  · exact h access hin
  · exact htarget

theorem within_storeWord (h : m.Within n) {target : Nat} (htarget : target + 4 ≤ n) (value : UInt32) :
    (m.storeWord target value).Within n := by
  intro access hin
  simp only [storeWord, List.mem_append, List.mem_singleton] at hin
  rcases hin with hin | rfl
  · exact h access hin
  · exact htarget

theorem holds_storeWord (m : Raw) (target : Nat) (value : UInt32) : (m.storeWord target value).Holds target value := by
  intro k hk
  rw [storeWord]
  dsimp only
  rw [if_pos ⟨Nat.le_add_right _ _, Nat.add_lt_add_left hk _⟩, Nat.add_sub_cancel_left]

/-- A word is not changed by a store beside it. -/
theorem Holds.storeWord {target other : Nat} {value : UInt32} (h : m.Holds target value)
    (hapart : target + 4 ≤ other ∨ other + 4 ≤ target) (word : UInt32) :
    (m.storeWord other word).Holds target value := by
  intro k hk
  rw [Raw.storeWord]
  dsimp only
  rw [if_neg (by omega)]
  exact h k hk

end Raw

end Afos.Lib
