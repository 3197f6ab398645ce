import Mathlib

/-!
# Fallible operations on a mutable state

`Op ε S α` is the shape of a method that borrows its receiver mutably and may fail: it is
handed a state, and gives back a result *and* a state. The state comes back on the error
path too, changed as far as the method had got, which is the whole difference from
`StateT S (Except ε)`: an early return does not undo what was done before it. Whether an
operation that fails has changed anything is therefore a statement one can make here, and
several of the results further up are exactly that statement.

What a proof needs is at the end of the file. `bind_cases` takes a sequence apart into the
two ways it can end, and `Keeps` carries a reflexive and transitive relation between the
state before and the state after through every combinator, so that an invariant of a long
method is assembled from the invariants of the calls it makes.
-/

set_option autoImplicit false

namespace Afos.Lib

/-- A fallible operation on a state: the result, and the state as it was left. A failing operation leaves a state as
    well, and what it leaves is up to the operation; nothing is rolled back by the type. -/
def Op (ε S α : Type) : Type := S → Except ε α × S

namespace Op

variable {ε S T α β : Type}

instance : Monad (Op ε S) where
  pure a := fun s => (.ok a, s)
  bind x f := fun s =>
    match x s with
    | (.ok a, s') => f a s'
    | (.error e, s') => (.error e, s')

/-- Fail, leaving the state alone. What was done before in the same sequence is not undone by it. -/
def throw (e : ε) : Op ε S α := fun s => (.error e, s)

/-- A pure fallible computation, leaving the state alone whether it succeeds or not. -/
def ofExcept (r : Except ε α) : Op ε S α := fun s => (r, s)

/-- An operation that cannot fail, such as a reading of a clock, which changes the state all the same. -/
def ofState (f : S → α × S) : Op ε S α := fun s => (.ok (f s).1, (f s).2)

/-- Read the state. -/
def read : Op ε S S := fun s => (.ok s, s)

/-- Change the state. -/
def modify (f : S → S) : Op ε S Unit := fun s => (.ok (), f s)

/-- Run an operation on a part of a larger state. The part is put back on both ways out, so a failure inside is a
    failure of the whole with the part as the failure has left it. -/
def zoom (get : S → T) (put : T → S → S) (x : Op ε T α) : Op ε S α := fun s =>
  ((x (get s)).1, put (x (get s)).2 s)

/-- Translate the error of an operation. The answer and the state are not touched. -/
def mapError {δ : Type} (f : δ → ε) (x : Op δ S α) : Op ε S α := fun s =>
  match x s with
  | (.ok a, s') => (.ok a, s')
  | (.error e, s') => (.error (f e), s')

/-! ## Running the combinators -/

@[simp] theorem run_pure (a : α) (s : S) : (pure a : Op ε S α) s = (.ok a, s) := rfl

theorem run_bind (x : Op ε S α) (f : α → Op ε S β) (s : S) :
    (x >>= f) s = match x s with
      | (.ok a, s') => f a s'
      | (.error e, s') => (.error e, s') := rfl

theorem run_map (f : α → β) (x : Op ε S α) (s : S) :
    (f <$> x) s = match x s with
      | (.ok a, s') => (.ok (f a), s')
      | (.error e, s') => (.error e, s') := rfl

@[simp] theorem run_throw (e : ε) (s : S) : (throw e : Op ε S α) s = (.error e, s) := rfl

@[simp] theorem run_ofExcept (r : Except ε α) (s : S) : (ofExcept r : Op ε S α) s = (r, s) := rfl

@[simp] theorem run_ofState (f : S → α × S) (s : S) :
    (ofState f : Op ε S α) s = (.ok (f s).1, (f s).2) := rfl

@[simp] theorem run_read (s : S) : (read : Op ε S S) s = (.ok s, s) := rfl

@[simp] theorem run_modify (f : S → S) (s : S) : (modify f : Op ε S Unit) s = (.ok (), f s) := rfl

theorem run_zoom (get : S → T) (put : T → S → S) (x : Op ε T α) (s : S) :
    zoom get put x s = ((x (get s)).1, put (x (get s)).2 s) := rfl

theorem run_bind_ok {x : Op ε S α} {s s' : S} {a : α} (h : x s = (.ok a, s'))
    (f : α → Op ε S β) : (x >>= f) s = f a s' := by
  rw [run_bind, h]

theorem run_bind_error {x : Op ε S α} {s s' : S} {e : ε} (h : x s = (.error e, s'))
    (f : α → Op ε S β) : (x >>= f) s = (.error e, s') := by
  rw [run_bind, h]

theorem run_map_error {x : Op ε S α} {s s' : S} {e : ε} (h : x s = (.error e, s')) (f : α → β) :
    (f <$> x) s = (.error e, s') := by
  rw [run_map, h]

theorem fst_map (f : α → β) (x : Op ε S α) (s : S) : ((f <$> x) s).1 = (x s).1.map f := by
  rw [run_map]
  cases x s with
  | mk r s' =>
    cases r with
    | error e => rfl
    | ok a => rfl

@[simp] theorem snd_map (f : α → β) (x : Op ε S α) (s : S) : ((f <$> x) s).2 = (x s).2 := by
  rw [run_map]
  cases x s with
  | mk r s' => cases r <;> rfl

/-- Mapping over a sequence is mapping over its last part. It brings a wrapper around an operation down to the
    operation that it is about. -/
theorem map_bind {γ : Type} (f : β → γ) (x : Op ε S α) (g : α → Op ε S β) :
    f <$> (x >>= g) = x >>= fun a => f <$> g a := by
  funext s
  rw [run_map, run_bind, run_bind]
  cases x s with
  | mk r s' => cases r <;> rfl

/-- A sequence of three parts, cut in two after its first or after its second. Operations are not declared a lawful
    monad here, so this is used by name. -/
theorem bind_bind {γ : Type} (x : Op ε S α) (f : α → Op ε S β) (g : β → Op ε S γ) :
    (x >>= f) >>= g = x >>= fun a => f a >>= g := by
  funext s
  rw [run_bind, run_bind, run_bind]
  cases x s with
  | mk r s' => cases r <;> rfl

/-! ## Taking a sequence apart -/

/-- A sequence ends in one of two ways: its first part fails and that is the outcome, or
    its first part answers and the outcome is the second part's. -/
theorem bind_cases {x : Op ε S α} {f : α → Op ε S β} {s s'' : S} {r : Except ε β}
    (h : (x >>= f) s = (r, s'')) :
    (∃ e, x s = (.error e, s'') ∧ r = .error e) ∨
      ∃ a s', x s = (.ok a, s') ∧ f a s' = (r, s'') := by
  rw [run_bind] at h
  cases hx : x s with
  | mk res s' =>
    rw [hx] at h
    cases res with
    | ok a => exact Or.inr ⟨a, s', rfl, h⟩
    | error e =>
      simp only [Prod.mk.injEq] at h
      obtain ⟨rfl, rfl⟩ := h
      exact Or.inl ⟨e, rfl, rfl⟩

theorem bind_ok {x : Op ε S α} {f : α → Op ε S β} {s s'' : S} {b : β}
    (h : (x >>= f) s = (.ok b, s'')) :
    ∃ a s', x s = (.ok a, s') ∧ f a s' = (.ok b, s'') := by
  rcases bind_cases h with ⟨e, _, he⟩ | h'
  · exact absurd he (by simp)
  · exact h'

theorem map_cases {f : α → β} {x : Op ε S α} {s s' : S} {r : Except ε β}
    (h : (f <$> x) s = (r, s')) :
    (∃ e, x s = (.error e, s') ∧ r = .error e) ∨ ∃ a, x s = (.ok a, s') ∧ r = .ok (f a) := by
  rw [run_map] at h
  cases hx : x s with
  | mk res s₁ =>
    rw [hx] at h
    cases res with
    | ok a =>
      simp only [Prod.mk.injEq] at h
      obtain ⟨rfl, rfl⟩ := h
      exact Or.inr ⟨a, rfl, rfl⟩
    | error e =>
      simp only [Prod.mk.injEq] at h
      obtain ⟨rfl, rfl⟩ := h
      exact Or.inl ⟨e, rfl, rfl⟩

theorem exists_error_iff {x : Op ε S α} {s : S} :
    (∃ e, (x s).1 = .error e) ↔ ∃ e s', x s = (.error e, s') := by
  constructor
  · rintro ⟨e, he⟩
    exact ⟨e, (x s).2, Prod.ext he rfl⟩
  · rintro ⟨e, s', h⟩
    exact ⟨e, congrArg Prod.fst h⟩

theorem map_error_iff {f : α → β} {x : Op ε S α} {s : S} :
    (∃ e, ((f <$> x) s).1 = .error e) ↔ ∃ e, (x s).1 = .error e := by
  rw [run_map]
  cases x s with
  | mk r s' =>
    cases r with
    | ok a => exact ⟨fun ⟨e, he⟩ => (by cases he), fun ⟨e, he⟩ => (by cases he)⟩
    | error e => exact ⟨fun _ => ⟨e, rfl⟩, fun _ => ⟨e, rfl⟩⟩

theorem map_ok {f : α → β} {x : Op ε S α} {s : S} {b : β} (h : ((f <$> x) s).1 = .ok b) :
    ∃ a s', x s = (.ok a, s') ∧ b = f a := by
  cases hrun : (f <$> x) s with
  | mk r s' =>
    rw [hrun] at h
    rcases map_cases hrun with ⟨e, -, rfl⟩ | ⟨a, ha, rfl⟩
    · cases h
    · cases h
      exact ⟨a, s', ha, rfl⟩

/-- The outcome of an operation on a part, read back as an outcome on the part. It is the way in for a proof that has
    the outcome of the whole as a hypothesis. -/
theorem zoom_eq {get : S → T} {put : T → S → S} {x : Op ε T α} {s s' : S} {r : Except ε α}
    (h : zoom get put x s = (r, s')) : ∃ t, x (get s) = (r, t) ∧ s' = put t s := by
  rw [run_zoom, Prod.mk.injEq] at h
  exact ⟨(x (get s)).2, by rw [← h.1], h.2.symm⟩

/-! ## Taking a pure sequence apart -/

theorem except_bind_ok {x : Except ε α} {f : α → Except ε β} {b : β} (h : (x >>= f) = .ok b) :
    ∃ a, x = .ok a ∧ f a = .ok b := by
  cases x with
  | error e => cases h
  | ok a => exact ⟨a, rfl, h⟩

theorem except_bind_error {x : Except ε α} {f : α → Except ε β} {e : ε} (h : (x >>= f) = .error e) :
    x = .error e ∨ ∃ a, x = .ok a ∧ f a = .error e := by
  cases x with
  | error e' =>
    cases h
    exact Or.inl rfl
  | ok a => exact Or.inr ⟨a, rfl, h⟩

/-! ## What every outcome keeps -/

/-- Whatever `x` answers, the state it leaves is related to the state it was given. For a preorder this goes through
    sequences, tests and loops, so that it is proved once for each primitive operation. -/
def Keeps (R : S → S → Prop) (x : Op ε S α) : Prop := ∀ s, R s (x s).2

section Keeps

variable {R : S → S → Prop} [IsPreorder S R]

theorem Keeps.pure (a : α) : Keeps R (Pure.pure a : Op ε S α) := fun s => refl s

theorem Keeps.throw (e : ε) : Keeps R (Op.throw e : Op ε S α) := fun s => refl s

theorem Keeps.ofExcept (r : Except ε α) : Keeps R (Op.ofExcept r : Op ε S α) := fun s => refl s

theorem Keeps.read : Keeps R (Op.read : Op ε S S) := fun s => refl s

theorem Keeps.bind {x : Op ε S α} {f : α → Op ε S β} (hx : Keeps R x)
    (hf : ∀ a, Keeps R (f a)) : Keeps R (x >>= f) := by
  intro s
  have h1 := hx s
  rw [run_bind]
  cases h : x s with
  | mk res s' =>
    rw [h] at h1
    cases res with
    | ok a => exact IsTrans.trans _ _ _ h1 (hf a s')
    | error e => exact h1

theorem Keeps.map {x : Op ε S α} (f : α → β) (hx : Keeps R x) : Keeps R (f <$> x) :=
  Keeps.bind hx fun _ => Keeps.pure _

theorem Keeps.forM {f : α → Op ε S PUnit} (hf : ∀ a, Keeps R (f a)) (l : List α) :
    Keeps R (l.forM f) := by
  induction l with
  | nil => exact Keeps.pure _
  | cons a l ih => exact Keeps.bind (hf a) fun _ => ih

end Keeps

theorem Keeps.ite {R : S → S → Prop} {p : Prop} [Decidable p] {x y : Op ε S α}
    (hx : Keeps R x) (hy : Keeps R y) : Keeps R (if p then x else y) := by
  split
  · exact hx
  · exact hy

/-- A relation kept on a part is kept on the whole, once the whole's relation is read off the part's. The last premise
    is usually `rfl`. -/
theorem Keeps.zoom {Q : T → T → Prop} {R : S → S → Prop} {get : S → T} {put : T → S → S}
    {x : Op ε T α} (hx : Keeps Q x) (hput : ∀ s t, Q (get s) t → R s (put t s)) :
    Keeps R (Op.zoom get put x) := fun s => hput s _ (hx (get s))

/-- What `f` reads of the state is as it was. As a relation for `Keeps` it says that an operation does not change a
    field. -/
def Same (f : S → T) (s s' : S) : Prop := f s' = f s

instance (f : S → T) : IsPreorder S (Same f) where
  refl _ := rfl
  trans _ _ _ h h' := Eq.trans h' h

theorem Keeps.eq {f : S → T} {x : Op ε S α} (hx : Keeps (Same f) x) {s s' : S} {r : Except ε α}
    (h : x s = (r, s')) : f s' = f s := by
  have hs := hx s
  rw [h] at hs
  exact hs

end Op

end Afos.Lib
