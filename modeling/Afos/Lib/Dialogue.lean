import Mathlib.Logic.Basic

/-!
# Dialogues

A program that asks questions and goes on by the answers: a tree with a branch for every answer, and a result at
each of its leaves. A server with a state answers the questions one at a time (`Dialogue.run`).

Such a program may be run by somebody who polls the server between questions and breaks off when the poll says so,
or breaks off for reasons of their own (`Dialogue.Interrupted`). If what the polls do to the server is nothing that
the questions can tell, an interrupted run is a run of the program, or the beginning of one
(`Dialogue.Interrupted.run`).
-/

set_option autoImplicit false

namespace Afos.Lib

/-- Questions `Q`, answers `A`, results `R`. It is a tree with a branch for every answer, so one dialogue stands for
    all the ways in which a program can go on. -/
inductive Dialogue (Q A R : Type) where
  | done (result : R)
  | ask (question : Q) (next : A → Dialogue Q A R)

namespace Dialogue

variable {Q A R S : Type}

/-- Each question is answered before the next one is asked, by a server with a state. The asking side has no state but
    where it is in the tree. -/
def run (serve : Q → S → A × S) : Dialogue Q A R → S → R × S
  | done result, s => (result, s)
  | ask question next, s => run serve (next (serve question s).1) (serve question s).2

/-- What is left of a dialogue after so many questions, and the state the server is in. A dialogue that has ended
    stays as it is. -/
def after (serve : Q → S → A × S) : Nat → Dialogue Q A R → S → Dialogue Q A R × S
  | 0, d, s => (d, s)
  | _ + 1, done result, s => (done result, s)
  | n + 1, ask question next, s => after serve n (next (serve question s).1) (serve question s).2

/-- Every question that may come up has the property, whatever the answers to those before it are. It does not depend
    on a server. -/
def All (P : Q → Prop) : Dialogue Q A R → Prop
  | done _ => True
  | ask question next => P question ∧ ∀ answer, All P (next answer)

/-- The same dialogue with polls in between, each of which may end it, and broken off anywhere. The questions of the
    original come in their order, and none is left out before the end. -/
inductive Interrupted (poll : Q) (goOn : A) (Broken : R → Prop) : Dialogue Q A R → Dialogue Q A R → Prop
  | done (result : R) : Interrupted poll goOn Broken (done result) (done result)
  | ask (question : Q) {next next' : A → Dialogue Q A R}
      (rest : ∀ answer, Interrupted poll goOn Broken (next answer) (next' answer)) :
      Interrupted poll goOn Broken (ask question next) (ask question next')
  | poll {d : Dialogue Q A R} {next : A → Dialogue Q A R} (rest : Interrupted poll goOn Broken d (next goOn))
      (stop : ∀ answer, answer ≠ goOn → ∃ result, Broken result ∧ next answer = .done result) :
      Interrupted poll goOn Broken d (.ask poll next)
  | cut {d : Dialogue Q A R} (result : R) (broken : Broken result) :
      Interrupted poll goOn Broken d (.done result)

variable {poll : Q} {goOn : A} {Broken : R → Prop}

/-- A dialogue is one way of running itself: no polls, and not broken off. -/
theorem Interrupted.refl (d : Dialogue Q A R) : Interrupted poll goOn Broken d d := by
  induction d with
  | done result => exact .done result
  | ask question next ih => exact .ask question ih

/-- An interrupted run leaves the server as if the dialogue had got to some question, with the result of the
    dialogue if it had got to its end, and with a result of breaking off if not. -/
theorem Interrupted.run {d d' : Dialogue Q A R} (h : Interrupted poll goOn Broken d d') {serve : Q → S → A × S}
    {Same : S → S → Prop} {P : Q → Prop} (hpoll : ∀ s t, Same s t → Same s (serve poll t).2)
    (hserve : ∀ question, P question → ∀ s t, Same s t →
      (serve question s).1 = (serve question t).1 ∧ Same (serve question s).2 (serve question t).2)
    (hd : d.All P) {s t : S} (hst : Same s t) :
    ∃ n, Same (d.after serve n s).2 (d'.run serve t).2 ∧
      ((d.after serve n s).1 = .done (d'.run serve t).1 ∨ Broken (d'.run serve t).1) := by
  induction h generalizing s t with
  | done result => exact ⟨0, hst, Or.inl rfl⟩
  | cut result broken => exact ⟨0, hst, Or.inr broken⟩
  | @ask question next next' rest ih =>
    obtain ⟨hanswer, hsame⟩ := hserve question hd.1 s t hst
    obtain ⟨n, hn⟩ := ih (serve question s).1 (hd.2 _) hsame
    rw [Dialogue.run, ← hanswer]
    exact ⟨n + 1, hn⟩
  | @poll d next rest stop ih =>
    rw [Dialogue.run]
    by_cases hgo : (serve poll t).1 = goOn
    · rw [hgo]
      exact ih hd (hpoll s t hst)
    · obtain ⟨result, hbroken, hnext⟩ := stop _ hgo
      rw [hnext]
      exact ⟨0, hpoll s t hst, Or.inr hbroken⟩

end Dialogue

end Afos.Lib
