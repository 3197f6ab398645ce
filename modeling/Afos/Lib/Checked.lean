import Afos.Lib.Op

/-!
# Code that can panic

Arithmetic on words of 64 bits, and slices, as a program meets them when it is compiled with overflow checks: a
sum, a difference or a product that is out of range ends the program, and so does a range of indices that a
slice does not have. `Stop ε` says how an operation ends without an answer, with an error for its caller or in
a panic.

A program over plain numbers is brought to this level by `Op.raise`, which has no panics. For the same program
over words, that it does not panic is then an equation between the two, and the rules below rewrite one into
the other: a word operation is the plain one where that is in range, and `raise` goes through a sequence.
-/

set_option autoImplicit false

namespace Afos.Lib

/-- How an operation ends without an answer: with an error, which its caller can handle, or with the end of the
    program. -/
inductive Stop (ε : Type) where
  | error (e : ε)
  | panic
  deriving DecidableEq

namespace Op

variable {ε S T α β : Type}

/-- An operation without panics, among those that may have them. A program over words that equals one of these has
    none either. -/
def raise (x : Op ε S α) : Op (Stop ε) S α := x.mapError Stop.error

theorem pure_bind (a : α) (f : α → Op ε S β) : (Pure.pure a >>= f) = f a := rfl

theorem run_congr {x y : Op ε S α} (h : x = y) (s : S) : x s = y s := by rw [h]

/-- A test goes over branch by branch. What the test has found is there for the branch, and is often what keeps an
    operation in it in range. -/
theorem raise_ite {c : Prop} [Decidable c] {x y : Op ε S α} {x' y' : Op (Stop ε) S α} (hx : c → x' = raise x)
    (hy : ¬ c → y' = raise y) : (if c then x' else y') = raise (if c then x else y) := by
  split
  · exact hx ‹c›
  · exact hy ‹¬ c›

theorem raise_of_ok {x : Op ε S α} {s s' : S} {a : α} (h : x s = (.ok a, s')) : raise x s = (.ok a, s') := by
  rw [raise, mapError, h]

theorem raise_of_error {x : Op ε S α} {s s' : S} {e : ε} (h : x s = (.error e, s')) :
    raise x s = (.error (.error e), s') := by
  rw [raise, mapError, h]

theorem snd_raise (x : Op ε S α) (s : S) : (raise x s).2 = (x s).2 := by
  cases hx : x s with
  | mk r s' =>
    cases r with
    | error e => rw [raise_of_error hx]
    | ok a => rw [raise_of_ok hx]

theorem raise_congr {x y : Op ε S α} {s : S} (h : x s = y s) : raise x s = raise y s := by
  rw [raise, raise, mapError, mapError, h]

/-- Nothing but an error of the operation itself can stop it. This is what an equation with `raise` is proved for. -/
theorem raise_ne_panic (x : Op ε S α) (s : S) : (raise x s).1 ≠ .error .panic := by
  cases hx : x s with
  | mk r s' =>
    cases r with
    | error e => rw [raise_of_error hx]; exact fun h => nomatch h
    | ok a => rw [raise_of_ok hx]; exact fun h => nomatch h

/-- A sequence goes over part by part. What the second part is handed came from the first, so bounds on it may be
    taken from there. -/
theorem raise_bind {x : Op ε S α} {f : α → Op ε S β} {g : α → Op (Stop ε) S β}
    (h : ∀ s a s', x s = (.ok a, s') → g a = raise (f a)) : (raise x >>= g) = raise (x >>= f) := by
  funext s
  cases hx : x s with
  | mk r s' =>
    cases r with
    | error e => rw [run_bind_error (raise_of_error hx), raise_of_error (run_bind_error hx f)]
    | ok a =>
      rw [run_bind_ok (raise_of_ok hx), h s a s' hx, raise, raise, mapError, mapError, run_bind_ok hx]

theorem raise_map (f : α → β) (x : Op ε S α) : f <$> raise x = raise (f <$> x) :=
  raise_bind fun _ _ _ _ => rfl

theorem raise_zoom (get : S → T) (put : T → S → S) (x : Op ε T α) :
    Op.zoom get put (raise x) = raise (Op.zoom get put x) := by
  funext s
  cases hx : x (get s) with
  | mk r t =>
    have hzoom : zoom get put x s = (r, put t s) := by rw [run_zoom, hx]
    cases r with
    | error e => rw [raise_of_error hzoom, run_zoom, raise_of_error hx]
    | ok a => rw [raise_of_ok hzoom, run_zoom, raise_of_ok hx]

end Op

namespace Word

variable {ε S α : Type} {a b : Nat} {xs : List α}

def add (a b : Nat) : Op (Stop ε) S Nat := if a + b < 2 ^ 64 then pure (a + b) else Op.throw .panic

def sub (a b : Nat) : Op (Stop ε) S Nat := if b ≤ a then pure (a - b) else Op.throw .panic

def mul (a b : Nat) : Op (Stop ε) S Nat := if a * b < 2 ^ 64 then pure (a * b) else Op.throw .panic

/-- A quotient rounded up, which is never above the dividend. Source name: `div_ceil`. -/
def divCeil (a b : Nat) : Op (Stop ε) S Nat := if 0 < b then pure ((a + b - 1) / b) else Op.throw .panic

/-- Source name: `checked_add`. The overflow is an answer, and what becomes of it is up to the caller. -/
def checkedAdd (a b : Nat) : Option Nat := if a + b < 2 ^ 64 then some (a + b) else none

/-- Source name: `slice::get`, of a range. A range that ends before it begins is refused as one that is too long
    is. -/
def get (xs : List α) (first last : Nat) : Option (List α) :=
  if first ≤ last ∧ last ≤ xs.length then some ((xs.drop first).take (last - first)) else none

/-- The index operator on a range: `get` with a panic in the place of `none`. -/
def slice (xs : List α) (first last : Nat) : Op (Stop ε) S (List α) :=
  match get xs first last with
  | some part => pure part
  | none => Op.throw .panic

/-- Source name: `vec!`, with a length. An object has at most `isize::MAX` bytes. -/
def bytes (value : UInt8) (n : Nat) : Op (Stop ε) S (List UInt8) :=
  if n < 2 ^ 63 then pure (List.replicate n value) else Op.throw .panic

/-- Put a slice over the first part of another one. Source name: `copy_from_slice`. -/
def copyToFront (xs data : List α) : Op (Stop ε) S (List α) := do
  let front ← slice xs 0 data.length
  if front.length = data.length then pure (data ++ xs.drop data.length) else Op.throw .panic

/-! ## In range -/

theorem add_eq (h : a + b < 2 ^ 64) : (add a b : Op (Stop ε) S Nat) = pure (a + b) := if_pos h

theorem sub_eq (h : b ≤ a) : (sub a b : Op (Stop ε) S Nat) = pure (a - b) := if_pos h

theorem mul_eq (h : a * b < 2 ^ 64) : (mul a b : Op (Stop ε) S Nat) = pure (a * b) := if_pos h

theorem divCeil_eq (h : 0 < b) : (divCeil a b : Op (Stop ε) S Nat) = pure ((a + b - 1) / b) := if_pos h

theorem slice_eq {n : Nat} (h : n ≤ xs.length) :
    (slice xs 0 n : Op (Stop ε) S (List α)) = pure (xs.take n) := by
  rw [slice, get, if_pos ⟨Nat.zero_le n, h⟩]
  rfl

theorem bytes_eq {value : UInt8} {n : Nat} (h : n < 2 ^ 63) :
    (bytes value n : Op (Stop ε) S (List UInt8)) = pure (List.replicate n value) := if_pos h

theorem copyToFront_eq {data : List α} (h : data.length ≤ xs.length) :
    (copyToFront xs data : Op (Stop ε) S (List α)) = pure (data ++ xs.drop data.length) := by
  rw [copyToFront, slice_eq h, Op.pure_bind, if_pos]
  rw [List.length_take]
  exact Nat.min_eq_left h

end Word

end Afos.Lib
