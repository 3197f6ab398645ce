import Mathlib

/-!
# Runs

A step function and the states it takes a list of inputs through. `Along` is a condition on every
step of a run, on the input and on the state it comes to; an invariant that every step under the
condition keeps holds at the end of the run.
-/

set_option autoImplicit false

namespace Afos.Lib

variable {S A : Type}

/-- The state after a list of inputs. An invariant that one step keeps is one that a run keeps, by induction on the
    list. -/
def runFrom (step : S → A → S) (s : S) (as : List A) : S := as.foldl step s

/-- The condition holds of every input, in the state it comes to. It is a premise on the inputs that cannot be stated
    on the list alone. -/
def Along (step : S → A → S) (P : S → A → Prop) : S → List A → Prop
  | _, [] => True
  | s, a :: as => P s a ∧ Along step P (step s a) as

variable {step : S → A → S} {P : S → A → Prop}

theorem Along.of_mem {as : List A} (h : ∀ a ∈ as, ∀ s, P s a) (s : S) : Along step P s as := by
  induction as generalizing s with
  | nil => exact trivial
  | cons a as ih => exact ⟨h a (by simp) s, ih (fun b hb => h b (by simp [hb])) _⟩

theorem Along.of_forall (h : ∀ s a, P s a) (s : S) (as : List A) : Along step P s as :=
  Along.of_mem (fun a _ s => h s a) s

theorem Along.invariant (Inv : S → Prop) (hstep : ∀ s a, Inv s → P s a → Inv (step s a)) {s : S}
    {as : List A} (hrun : Along step P s as) (h : Inv s) : Inv (runFrom step s as) := by
  induction as generalizing s with
  | nil => exact h
  | cons a as ih => exact ih hrun.2 (hstep s a h hrun.1)

/-- Where every step keeps the invariant exactly under the condition, the invariant holds at every moment of a run
    exactly if the condition holds along it. The steps may be exact only in states with some property that all of them
    keep. -/
theorem Along.always_iff (Inv K : S → Prop) (hexact : ∀ s a, Inv s → K s → (Inv (step s a) ↔ P s a))
    (hkeep : ∀ s a, K s → K (step s a)) {s : S} {as : List A} (h : Inv s) (hk : K s) :
    (∀ n, Inv (runFrom step s (as.take n))) ↔ Along step P s as := by
  induction as generalizing s with
  | nil =>
    refine ⟨fun _ => trivial, fun _ n => ?_⟩
    rw [List.take_nil]
    exact h
  | cons a as ih =>
    constructor
    · intro hall
      have hfirst : Inv (step s a) := hall 1
      exact ⟨(hexact s a h hk).mp hfirst, (ih hfirst (hkeep s a hk)).mp fun n => hall (n + 1)⟩
    · rintro ⟨hp, hrest⟩ n
      cases n with
      | zero => exact h
      | succ n => exact (ih ((hexact s a h hk).mpr hp) (hkeep s a hk)).mpr hrest n

end Afos.Lib
