import Afos.Lib.Op

/-!
# Two runs side by side

Operations on states of two types that a relation holds together: run from related states they
answer the same and come to related states (`Op.Sim`). The relation says what the two sides have
in common; that an operation is in simulation with itself says that nothing else has an influence
on what it answers.
-/

set_option autoImplicit false

namespace Afos.Lib

namespace Op

variable {ε S T S' T' α β : Type}

/-- From related states: the same answer, and related states. It says that nothing that an operation answers depends
    on what the relation leaves open. -/
def Sim (R : S → T → Prop) (x : Op ε S α) (y : Op ε T α) : Prop :=
  ∀ s t, R s t → (x s).1 = (y t).1 ∧ R (x s).2 (y t).2

variable {R : S → T → Prop}

theorem Sim.pure (a : α) : Sim R (Pure.pure a : Op ε S α) (Pure.pure a) :=
  fun _ _ h => ⟨rfl, h⟩

theorem Sim.throw (e : ε) : Sim R (Op.throw e : Op ε S α) (Op.throw e) :=
  fun _ _ h => ⟨rfl, h⟩

theorem Sim.modify {f : S → S} {g : T → T} (h : ∀ s t, R s t → R (f s) (g t)) :
    Sim R (Op.modify f : Op ε S Unit) (Op.modify g) :=
  fun s t hR => ⟨rfl, h s t hR⟩

theorem Sim.bind {x : Op ε S α} {y : Op ε T α} {f : α → Op ε S β} {g : α → Op ε T β}
    (hx : Sim R x y) (hf : ∀ a, Sim R (f a) (g a)) : Sim R (x >>= f) (y >>= g) := by
  intro s t hR
  obtain ⟨hfst, hsnd⟩ := hx s t hR
  rw [run_bind, run_bind]
  cases hs : x s with
  | mk r s' =>
  cases ht : y t with
  | mk r' t' =>
    rw [hs, ht] at hfst hsnd
    obtain rfl : r = r' := hfst
    cases r with
    | error e => exact ⟨rfl, hsnd⟩
    | ok a => exact hf a s' t' hsnd

theorem Sim.map {x : Op ε S α} {y : Op ε T α} (hx : Sim R x y) (f : α → β) :
    Sim R (f <$> x) (f <$> y) := by
  intro s t hR
  obtain ⟨hfst, hsnd⟩ := hx s t hR
  rw [fst_map, fst_map, snd_map, snd_map, hfst]
  exact ⟨rfl, hsnd⟩

theorem Sim.read_bind {f : S → Op ε S α} {g : T → Op ε T α}
    (h : ∀ s t, R s t → Sim R (f s) (g t)) : Sim R (Op.read >>= f) (Op.read >>= g) :=
  fun s t hR => h s t hR s t hR

/-- On parts that are related when the wholes are, and back. The relation on the parts may be another one, as long as
    it is read off and put back. -/
theorem Sim.zoom {Q : S' → T' → Prop} {get : S → S'} {put : S' → S → S} {get' : T → T'}
    {put' : T' → T → T} {x : Op ε S' α} {y : Op ε T' α} (hx : Sim Q x y)
    (hget : ∀ s t, R s t → Q (get s) (get' t))
    (hput : ∀ s t u u', R s t → Q u u' → R (put u s) (put' u' t)) :
    Sim R (Op.zoom get put x) (Op.zoom get' put' y) := by
  intro s t hR
  obtain ⟨hfst, hsnd⟩ := hx _ _ (hget s t hR)
  rw [run_zoom, run_zoom]
  exact ⟨hfst, hput s t _ _ hR hsnd⟩

end Op

end Afos.Lib
