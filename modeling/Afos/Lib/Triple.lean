import Afos.Lib.Op

/-!
# Pre- and postconditions, and loops

A triple says of an operation what it leaves behind when it answers and what it leaves behind when
it fails; the second is not an afterthought, since an early return keeps what was done before it.
There is one rule for each combinator.

A loop is driven by a list: what the outside does, one entry for each time round. A body that
answers ends the loop with that answer, a body that fails ends it with that failure, and a loop
whose list is spent is *still running*, which is a failure of its own kind. The invariant of its rule
may speak of what is still to come, which is how one says that a loop does come to an end.
-/

set_option autoImplicit false

namespace Afos.Lib.Op

variable {ε S α β ι : Type}

/-- From a state with `P`, the operation answers and leaves `Q`, or fails and leaves `E`. There is always an outcome,
    so nothing has to be said about termination; a loop whose rounds are spent fails. -/
def Triple (P : S → Prop) (x : Op ε S α) (Q : α → S → Prop) (E : ε → S → Prop) : Prop :=
  ∀ s, P s → match x s with
    | (.ok a, s') => Q a s'
    | (.error e, s') => E e s'

section Rules

variable {P P' : S → Prop} {Q Q' : α → S → Prop} {R : β → S → Prop} {E E' : ε → S → Prop}

theorem Triple.ok {x : Op ε S α} (h : Triple P x Q E) {s s' : S} {a : α} (hs : P s)
    (hx : x s = (.ok a, s')) : Q a s' := by
  have hpost := h s hs
  rw [hx] at hpost
  exact hpost

theorem Triple.error {x : Op ε S α} (h : Triple P x Q E) {s s' : S} {e : ε} (hs : P s)
    (hx : x s = (.error e, s')) : E e s' := by
  have hpost := h s hs
  rw [hx] at hpost
  exact hpost

theorem Triple.of_cases {x : Op ε S α} (hok : ∀ {s s' a}, P s → x s = (.ok a, s') → Q a s')
    (herror : ∀ {s s' e}, P s → x s = (.error e, s') → E e s') : Triple P x Q E := by
  intro s hs
  cases hx : x s with
  | mk r s' =>
    cases r with
    | ok a => exact hok hs hx
    | error e => exact herror hs hx

theorem Triple.mono {x : Op ε S α} (h : Triple P x Q E) (hP : ∀ s, P' s → P s)
    (hQ : ∀ a s, Q a s → Q' a s) (hE : ∀ e s, E e s → E' e s) : Triple P' x Q' E' :=
  .of_cases (fun hs hx => hQ _ _ (h.ok (hP _ hs) hx)) fun hs hx => hE _ _ (h.error (hP _ hs) hx)

theorem Triple.pure {a : α} (h : ∀ s, P s → Q a s) : Triple P (Pure.pure a : Op ε S α) Q E := h

theorem Triple.throw {e : ε} (h : ∀ s, P s → E e s) : Triple P (Op.throw e : Op ε S α) Q E := h

theorem Triple.modify {f : S → S} {Q : Unit → S → Prop} (h : ∀ s, P s → Q () (f s)) :
    Triple P (Op.modify f : Op ε S Unit) Q E := h

theorem Triple.bind {x : Op ε S β} {f : β → Op ε S α} (hx : Triple P x R E)
    (hf : ∀ b, Triple (R b) (f b) Q E) : Triple P (x >>= f) Q E := by
  refine .of_cases (fun hs h => ?_) fun hs h => ?_
  · obtain ⟨b, s₁, h₁, h₂⟩ := bind_ok h
    exact (hf b).ok (hx.ok hs h₁) h₂
  · rcases bind_cases h with ⟨e, h₁, he⟩ | ⟨b, s₁, h₁, h₂⟩
    · obtain rfl := Except.error.inj he
      exact hx.error hs h₁
    · exact (hf b).error (hx.ok hs h₁) h₂

theorem Triple.map {x : Op ε S β} {f : β → α} (hx : Triple P x R E) (hf : ∀ b s, R b s → Q (f b) s) :
    Triple P (f <$> x) Q E := Triple.bind hx fun b => Triple.pure (hf b)

/-- What is read is the state itself. The precondition of the rest is that the state is this one, and what was known
    of it is known of the value. -/
theorem Triple.read {f : S → Op ε S α} (h : ∀ s, P s → Triple (fun s' => s' = s) (f s) Q E) :
    Triple P (Op.read >>= f) Q E := fun s hs => h s hs s rfl

theorem Triple.ite {c : Prop} [Decidable c] {x y : Op ε S α} (hx : c → Triple P x Q E)
    (hy : ¬ c → Triple P y Q E) : Triple P (if c then x else y) Q E := by
  by_cases hc : c
  · rw [if_pos hc]
    exact hx hc
  · rw [if_neg hc]
    exact hy hc

/-- An operation that keeps a relation keeps it on both ways out. With it a frame condition is used next to a triple
    without being stated in it. -/
theorem Keeps.triple {R : S → S → Prop} [IsPreorder S R] {x : Op ε S α} (h : Keeps R x) (t : S) :
    Triple (R t) x (fun _ => R t) (fun _ => R t) := by
  refine .of_cases (fun {s s' a} hs hx => ?_) fun {s s' e} hs hx => ?_
  · have hk := h s
    rw [hx] at hk
    exact IsTrans.trans _ _ _ hs hk
  · have hk := h s
    rw [hx] at hk
    exact IsTrans.trans _ _ _ hs hk

end Rules

/-! ## Loops -/

/-- Round and round until the body answers or fails; `spent` if the list ends first. The list is what the outside does
    in each round. -/
def loop (spent : ε) (body : ι → Op ε S (Option α)) : List ι → Op ε S α
  | [] => Op.throw spent
  | i :: rest => do
      match ← body i with
      | some a => pure a
      | none => loop spent body rest

variable {spent : ε} {body : ι → Op ε S (Option α)}

/-- The postcondition of a body: one for leaving the loop with an answer and one for going on. -/
def Turn (Q : α → S → Prop) (J : S → Prop) : Option α → S → Prop
  | some a => Q a
  | none => J

/-- What every round keeps, the loop keeps, however many rounds there are and whatever ends them. -/
theorem Keeps.loop {R : S → S → Prop} [IsPreorder S R] (h : ∀ i, Keeps R (body i))
    (rounds : List ι) : Keeps R (loop spent body rounds) := by
  induction rounds with
  | nil => exact Keeps.throw spent
  | cons i rest ih =>
    refine Keeps.bind (h i) fun out => ?_
    cases out with
    | some a => exact Keeps.pure a
    | none => exact ih

/-- The invariant rule. The invariant may speak of the rounds that are left, which is how a bound on them, or
    something that one of them is going to show, is carried. -/
theorem Triple.loop {I : List ι → S → Prop} {Q : α → S → Prop} {E : ε → S → Prop}
    (hbody : ∀ i rest, Triple (I (i :: rest)) (body i) (Turn Q (I rest)) E)
    (hspent : ∀ s, I [] s → E spent s) (rounds : List ι) :
    Triple (I rounds) (Op.loop spent body rounds) Q E := by
  induction rounds with
  | nil => exact Triple.throw hspent
  | cons i rest ih =>
    refine Triple.bind (hbody i rest) fun out => ?_
    cases out with
    | some a => exact Triple.pure fun s hs => hs
    | none => exact ih

end Afos.Lib.Op
