import Mathlib

/-!
# Folds

A fold whose step is injective in the state and in the item does not forget a difference: two lists
of one length that differ in one place, wherever it is, are taken to different states.

A fold that keeps the greater of two items ends with a greatest one, the last of these.
-/

set_option autoImplicit false

namespace Afos.Lib

variable {S α : Type} {step : S → α → S}

theorem foldl_injective (hstate : ∀ a, Function.Injective fun s => step s a) (l : List α) :
    Function.Injective fun s => l.foldl step s := by
  induction l with
  | nil => exact Function.injective_id
  | cons a l ih => exact ih.comp (hstate a)

/-- One item changed is a different end, if no step can make two states or two items the same. From the change on the
    states stay different, whatever follows. -/
theorem foldl_set_ne (hstate : ∀ a, Function.Injective fun s => step s a)
    (hitem : ∀ s, Function.Injective (step s)) {l : List α} {i : Nat} {a : α} (hi : i < l.length)
    (ha : l[i]? ≠ some a) (s : S) : (l.set i a).foldl step s ≠ l.foldl step s := by
  induction l generalizing s i with
  | nil => cases hi
  | cons b l ih =>
    cases i with
    | zero =>
      intro h
      have hfirst := hitem s (foldl_injective hstate l h)
      exact ha (by rw [hfirst]; rfl)
    | succ i => exact ih (Nat.lt_of_succ_lt_succ hi) ha (step s b)

/-! ## A greatest item -/

section Greatest

variable {κ : Type} [LinearOrder κ] (key : α → κ)

/-- Source name: `max_by_key`. Of several greatest items it is the last, because a later one that is equal replaces
    the best so far. -/
def maxByKey : List α → Option α
  | [] => none
  | a :: l => some (l.foldl (fun best b => if key best ≤ key b then b else best) a)

theorem maxByKey_eq_none_iff {l : List α} : maxByKey key l = none ↔ l = [] := by
  cases l with
  | nil => exact iff_of_true rfl rfl
  | cons a l => exact ⟨fun h => (by cases h), fun h => (by cases h)⟩

theorem foldl_max_spec (l : List α) (a : α) :
    l.foldl (fun best b => if key best ≤ key b then b else best) a ∈ a :: l ∧
      ∀ b ∈ a :: l, key b ≤ key (l.foldl (fun best b => if key best ≤ key b then b else best) a) := by
  induction l generalizing a with
  | nil => exact ⟨List.mem_cons_self, fun b hb => by rw [List.mem_singleton.mp hb]; exact le_rfl⟩
  | cons c l ih =>
    rw [List.foldl_cons]
    by_cases h : key a ≤ key c
    · rw [if_pos h]
      obtain ⟨hmem, hmax⟩ := ih c
      refine ⟨List.mem_cons_of_mem a hmem, List.forall_mem_cons.mpr ⟨?_, hmax⟩⟩
      exact h.trans (hmax c List.mem_cons_self)
    · rw [if_neg h]
      obtain ⟨hmem, hmax⟩ := ih a
      refine ⟨?_, ?_⟩
      · rcases List.mem_cons.mp hmem with heq | hin
        · rw [heq]
          exact List.mem_cons_self
        · exact List.mem_cons_of_mem a (List.mem_cons_of_mem c hin)
      · rw [List.forall_mem_cons] at hmax ⊢
        refine ⟨hmax.1, List.forall_mem_cons.mpr ⟨?_, hmax.2⟩⟩
        exact (le_of_not_ge h).trans hmax.1

/-- It is one of the items, and none is greater. Both are carried through the fold together, for the items seen so
    far. -/
theorem maxByKey_spec {l : List α} {a : α} (h : maxByKey key l = some a) :
    a ∈ l ∧ ∀ b ∈ l, key b ≤ key a := by
  cases l with
  | nil => cases h
  | cons b l =>
    obtain rfl := Option.some.inj h
    exact foldl_max_spec key l b

end Greatest

end Afos.Lib
