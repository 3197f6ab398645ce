import Mathlib

/-!
# Moves that can be taken back

A walk from a root that remembers the names it has come through: a step goes down by a name, goes up
again, or does nothing. `follow` keeps the names on a stack. What the walk leaves can also be said
without one: strike out what does nothing, and every step down together with the step up right after it,
until only steps down are left (`Leaves`). The two agree (`follow_eq_some_iff`), and the walk falls out
of the root exactly if at some point it has gone up more often than it could (`follow_eq_none_iff`).
-/

set_option autoImplicit false

namespace Afos.Lib

inductive Move (α : Type) where
  | stay
  | up
  | down (a : α)
  deriving DecidableEq

namespace Move

variable {α : Type}

def isUp : Move α → Bool
  | up => true
  | _ => false

def isDown : Move α → Bool
  | down _ => true
  | _ => false

def apply (stack : List α) : Move α → Option (List α)
  | stay => some stack
  | up => if stack = [] then none else some stack.dropLast
  | down a => some (stack ++ [a])

/-- The names the walk has come through at its end, if it stayed below the root. The stack is what a program keeps to
    find out. -/
def follow (moves : List (Move α)) (stack : List α) : Option (List α) := moves.foldlM apply stack

theorem follow_nil (stack : List α) : follow [] stack = some stack := rfl

theorem follow_cons (m : Move α) (moves : List (Move α)) (stack : List α) :
    follow (m :: moves) stack = (m.apply stack).bind (follow moves) := List.foldlM_cons

theorem follow_append (moves moves' : List (Move α)) (stack : List α) :
    follow (moves ++ moves') stack = (follow moves stack).bind (follow moves') := List.foldlM_append

theorem follow_down (as stack : List α) : follow (as.map down) stack = some (stack ++ as) := by
  induction as generalizing stack with
  | nil => rw [List.map_nil, follow_nil, List.append_nil]
  | cons a as ih =>
    rw [List.map_cons, follow_cons, apply, Option.bind_some, ih, List.append_assoc, List.singleton_append]

/-- What is left of a list of moves after striking out: an idle move by itself, and a step up together with the step
    down right before it, in any order. -/
inductive Leaves : List (Move α) → List α → Prop
  | done (as : List α) : Leaves (as.map down) as
  | idle {before after : List (Move α)} {as : List α} (h : Leaves (before ++ after) as) :
      Leaves (before ++ stay :: after) as
  | cancel {before after : List (Move α)} {as : List α} (a : α) (h : Leaves (before ++ after) as) :
      Leaves (before ++ down a :: up :: after) as

theorem Leaves.follow {moves : List (Move α)} {as : List α} (h : Leaves moves as) :
    follow moves [] = some as := by
  induction h with
  | done as => exact follow_down as []
  | @idle before after as _ ih =>
    rw [follow_append] at ih ⊢
    exact ih
  | @cancel before after as a _ ih =>
    rw [follow_append] at ih ⊢
    cases hbefore : Move.follow before [] with
    | none =>
      rw [hbefore] at ih
      cases ih
    | some stack =>
      rw [hbefore] at ih
      have hback : Move.follow (down a :: up :: after) stack = Move.follow after stack := by
        rw [follow_cons, apply, Option.bind_some, follow_cons, apply,
          if_neg (List.append_ne_nil_of_right_ne_nil _ (List.cons_ne_nil _ _)), Option.bind_some,
          List.dropLast_concat]
      rw [Option.bind_some, hback]
      exact ih

theorem leaves_of_follow {moves : List (Move α)} {stack as : List α} (h : follow moves stack = some as) :
    Leaves (stack.map down ++ moves) as := by
  induction moves generalizing stack with
  | nil =>
    cases h
    rw [List.append_nil]
    exact .done as
  | cons m moves ih =>
    rw [follow_cons] at h
    cases m with
    | stay => exact .idle (ih h)
    | down a =>
      have hrest := ih h
      rwa [List.map_append, List.append_assoc] at hrest
    | up =>
      rcases List.eq_nil_or_concat stack with rfl | ⟨init, a, rfl⟩
      · cases h
      · rw [apply, List.concat_eq_append,
          if_neg (List.append_ne_nil_of_right_ne_nil _ (List.cons_ne_nil _ _)), Option.bind_some,
          List.dropLast_concat] at h
        rw [List.concat_eq_append, List.map_append, List.append_assoc]
        exact .cancel a (ih h)

/-- The stack is what is left. Striking out says nothing of the order in which it is done, so it is a specification
    that does not mention a stack. -/
theorem follow_eq_some_iff {moves : List (Move α)} {stack as : List α} :
    follow moves stack = some as ↔ Leaves (stack.map down ++ moves) as := by
  refine ⟨leaves_of_follow, fun h => ?_⟩
  have hall := h.follow
  rwa [follow_append, follow_down, Option.bind_some, List.nil_append] at hall

/-- The walk falls out of the root at the first step up that has nothing left to take back, and it is enough to look
    at beginnings of the walk. -/
theorem follow_eq_none_iff {moves : List (Move α)} {stack : List α} :
    follow moves stack = none ↔
      ∃ pre, pre <+: moves ∧ stack.length + pre.countP isDown < pre.countP isUp := by
  induction moves generalizing stack with
  | nil =>
    refine ⟨fun h => (by cases h), ?_⟩
    rintro ⟨pre, hpre, hlt⟩
    rw [List.prefix_nil.mp hpre] at hlt
    exact absurd hlt (Nat.not_lt_zero _)
  | cons m moves ih =>
    -- the empty prefix never counts, so that a prefix is the first move and a prefix of the rest
    have hcons : (∃ pre, pre <+: m :: moves ∧ stack.length + pre.countP isDown < pre.countP isUp) ↔
        ∃ pre, pre <+: moves ∧
          stack.length + (m :: pre).countP isDown < (m :: pre).countP isUp := by
      constructor
      · rintro ⟨pre, hpre, hlt⟩
        cases pre with
        | nil => exact absurd hlt (Nat.not_lt_zero _)
        | cons m' pre =>
          obtain ⟨rfl, hrest⟩ := List.cons_prefix_cons.mp hpre
          exact ⟨pre, hrest, hlt⟩
      · rintro ⟨pre, hpre, hlt⟩
        exact ⟨m :: pre, List.cons_prefix_cons.mpr ⟨rfl, hpre⟩, hlt⟩
    rw [hcons, follow_cons]
    cases m with
    | stay => exact ih
    | down a =>
      rw [apply, Option.bind_some, ih]
      refine exists_congr fun pre => and_congr_right fun _ => ?_
      rw [List.countP_cons, List.countP_cons, List.length_append, List.length_singleton]
      simp only [isDown, isUp, if_true, Bool.false_eq_true, if_false]
      omega
    | up =>
      rw [apply]
      by_cases hnil : stack = []
      · subst hnil
        rw [if_pos rfl]
        exact iff_of_true rfl ⟨[], List.nil_prefix, Nat.zero_lt_one⟩
      · have hpos := List.length_pos_iff.mpr hnil
        rw [if_neg hnil, Option.bind_some, ih]
        refine exists_congr fun pre => and_congr_right fun _ => ?_
        rw [List.countP_cons, List.countP_cons, List.length_dropLast]
        simp only [isDown, isUp, if_true, Bool.false_eq_true, if_false]
        omega

end Move

end Afos.Lib
