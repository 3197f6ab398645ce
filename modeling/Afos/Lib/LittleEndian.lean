import Afos.Lib.Text

/-!
# Little-endian numbers

A number in a fixed count of bytes, least significant first. What does not fit is cut off, as
a machine integer's bytes are; `leValue_leBytes` is the round trip for what fits.
-/

set_option autoImplicit false

namespace Afos.Lib

/-- The low `w` bytes of a number, the lowest first. What does not fit is cut off, so it is undone only on numbers
    below `256 ^ w`. -/
def leBytes : Nat → Nat → Bytes
  | 0, _ => []
  | w + 1, n => UInt8.ofNat n :: leBytes w (n / 256)

/-- The number some bytes stand for, the first of them the lowest. Any bytes stand for one, and trailing zeros make no
    difference. -/
def leValue : Bytes → Nat
  | [] => 0
  | b :: bs => b.toNat + 256 * leValue bs

@[simp] theorem length_leBytes (w n : Nat) : (leBytes w n).length = w := by
  induction w generalizing n with
  | zero => rfl
  | succ w ih => simp [leBytes, ih]

theorem leValue_leBytes {w n : Nat} (h : n < 256 ^ w) : leValue (leBytes w n) = n := by
  induction w generalizing n with
  | zero =>
    have h0 : n = 0 := by simpa using h
    rw [h0]
    rfl
  | succ w ih =>
    have hq : n / 256 < 256 ^ w := by
      rw [Nat.pow_succ] at h
      exact Nat.div_lt_of_lt_mul (by rwa [Nat.mul_comm] at h)
    rw [leBytes, leValue, ih hq, UInt8.toNat_ofNat']
    omega

theorem leValue_lt (bs : Bytes) : leValue bs < 256 ^ bs.length := by
  induction bs with
  | nil => exact Nat.one_pos
  | cons b bs ih =>
    have hb := b.toNat_lt
    rw [leValue, List.length_cons, Nat.pow_succ]
    omega

theorem leValue_inj {bs cs : Bytes} (hlen : bs.length = cs.length) (h : leValue bs = leValue cs) :
    bs = cs := by
  induction bs generalizing cs with
  | nil => exact (List.length_eq_zero_iff.mp hlen.symm).symm
  | cons b bs ih =>
    cases cs with
    | nil => cases hlen
    | cons c cs =>
      have hb := b.toNat_lt
      have hc := c.toNat_lt
      rw [leValue, leValue] at h
      have hfirst : b.toNat = c.toNat := by omega
      have hrest : leValue bs = leValue cs := by omega
      rw [UInt8.toNat_inj.mp hfirst, ih (Nat.succ.inj hlen) hrest]

theorem leBytes_leValue (bs : Bytes) : leBytes bs.length (leValue bs) = bs :=
  leValue_inj (length_leBytes _ _) (leValue_leBytes (leValue_lt bs))

end Afos.Lib
