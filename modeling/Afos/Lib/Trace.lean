import Afos.Lib.Op

/-!
# What an operation writes to a log

A state that carries a log of events, and the statement that an operation, whatever it answers
and from whatever state, appends to it a list of events of a given kind (`Op.Emits`). The rules
follow the combinators; an operation that leaves its state alone appends nothing, and an
operation on a part of a state writes to the part's log.
-/

set_option autoImplicit false

namespace Afos.Lib

/-- States that carry a log. The log of a state inside another one is the same log, which is what lets operations on a
    part be read as operations on the whole. -/
class HasLog (S : Type) (Ev : outParam Type) where
  log : S → List Ev

export HasLog (log)

namespace Op

variable {ε S T Ev α β : Type} [HasLog S Ev] [HasLog T Ev]

/-- What `x` appends to the log satisfies `P`. That the log only grows is part of it, so it is proved together with
    what it grows by. -/
def Emits (P : List Ev → Prop) (x : Op ε S α) : Prop :=
  ∀ s, ∃ ev, log (x s).2 = log s ++ ev ∧ P ev

/-- `x` leaves its state alone, and with it the log. Reading and failing are silent, and so is every pure
    computation. -/
def Silent (x : Op ε S α) : Prop := ∀ s, (x s).2 = s

theorem Silent.pure (a : α) : Silent (Pure.pure a : Op ε S α) := by
  intro s
  rfl

theorem Silent.throw (e : ε) : Silent (Op.throw e : Op ε S α) := by
  intro s
  rfl

theorem Silent.ofExcept (r : Except ε α) : Silent (Op.ofExcept r : Op ε S α) := by
  intro s
  rfl

theorem Silent.read_bind {f : S → Op ε S α} (h : ∀ s, Silent (f s)) : Silent (Op.read >>= f) := by
  intro s
  exact h s s

theorem snd_bind_silent {x : Op ε S α} {f : α → Op ε S β} (hf : ∀ a, Silent (f a)) (s : S) :
    ((x >>= f) s).2 = (x s).2 := by
  rw [run_bind]
  cases x s with
  | mk r s' =>
    cases r with
    | error e => rfl
    | ok a => exact hf a s'

theorem Silent.emits {P : List Ev → Prop} {x : Op ε S α} (hx : Silent x) (hP : P []) :
    Emits P x := by
  intro s
  exact ⟨[], by rw [hx s, List.append_nil], hP⟩

theorem Emits.mono {P Q : List Ev → Prop} {x : Op ε S α} (hx : Emits P x)
    (h : ∀ ev, P ev → Q ev) : Emits Q x := by
  intro s
  obtain ⟨ev, hlog, hev⟩ := hx s
  exact ⟨ev, hlog, h ev hev⟩

theorem Emits.map {P : List Ev → Prop} {x : Op ε S α} (hx : Emits P x) (f : α → β) :
    Emits P (f <$> x) := by
  intro s
  rw [snd_map]
  exact hx s

theorem Emits.ofExcept_bind {P : List Ev → Prop} {r : Except ε α} {f : α → Op ε S β}
    (hP : P []) (hf : ∀ a, r = .ok a → Emits P (f a)) : Emits P (Op.ofExcept r >>= f) := by
  intro s
  cases r with
  | error e => exact ⟨[], by simp [run_bind], hP⟩
  | ok a => exact hf a rfl s

theorem Emits.read_bind {P : List Ev → Prop} {f : S → Op ε S α} (hf : ∀ s, Emits P (f s)) :
    Emits P (Op.read >>= f) := by
  intro s
  exact hf s s

theorem Emits.ite {P : List Ev → Prop} {c : Prop} [Decidable c] {x y : Op ε S α}
    (hx : Emits P x) (hy : Emits P y) : Emits P (if c then x else y) := by
  split
  · exact hx
  · exact hy

/-- A sequence whose second part is silent writes what its first part does, whatever the predicate: the events are the
    same list. -/
theorem Emits.bind_silent {P : List Ev → Prop} {x : Op ε S α} {f : α → Op ε S β}
    (hx : Emits P x) (hf : ∀ a, Silent (f a)) : Emits P (x >>= f) := by
  intro s
  obtain ⟨ev, hlog, hev⟩ := hx s
  refine ⟨ev, ?_, hev⟩
  rw [run_bind]
  cases h : x s with
  | mk r s' =>
    rw [h] at hlog
    cases r with
    | ok a => rw [← hlog]; exact congrArg log (hf a s')
    | error e => exact hlog

/-- A sequence writes what its parts do, when the kind of events is read off each one. Other predicates do not go
    through a sequence, since they would have to split. -/
theorem Emits.bind {P : Ev → Prop} {x : Op ε S α} {f : α → Op ε S β}
    (hx : Emits (fun ev => ∀ e ∈ ev, P e) x)
    (hf : ∀ a, Emits (fun ev => ∀ e ∈ ev, P e) (f a)) :
    Emits (fun ev => ∀ e ∈ ev, P e) (x >>= f) := by
  intro s
  obtain ⟨ev, hlog, hev⟩ := hx s
  rw [run_bind]
  cases h : x s with
  | mk r s' =>
    rw [h] at hlog
    cases r with
    | error e => exact ⟨ev, hlog, hev⟩
    | ok a =>
      obtain ⟨ev', hlog', hev'⟩ := hf a s'
      refine ⟨ev ++ ev', ?_, ?_⟩
      · rw [hlog', hlog, List.append_assoc]
      · intro e he
        rcases List.mem_append.mp he with he | he
        · exact hev e he
        · exact hev' e he

/-- What the second part of a sequence writes, after the first has written what it likes. It is for a predicate about
    the last events only. -/
theorem Emits.after {P : List Ev → Prop} {f : α → Op ε S β} (hf : ∀ a, Emits P (f a)) (hP : P [])
    (x : Op ε S α) (s : S) : ∃ ev, log ((x >>= f) s).2 = log (x s).2 ++ ev ∧ P ev := by
  rw [run_bind]
  cases x s with
  | mk r s' =>
    cases r with
    | error e => exact ⟨[], (List.append_nil _).symm, hP⟩
    | ok a => exact hf a s'

/-- An operation on a part writes to the part's log, which is the whole's. Both premises are about the projection and
    hold by computation where it is a field. -/
theorem Emits.zoom {P : List Ev → Prop} {get : S → T} {put : T → S → S} {x : Op ε T α}
    (hx : Emits P x) (hget : ∀ s, log (get s) = log s) (hput : ∀ t s, log (put t s) = log t) :
    Emits P (Op.zoom get put x) := by
  intro s
  obtain ⟨ev, hlog, hev⟩ := hx (get s)
  refine ⟨ev, ?_, hev⟩
  rw [run_zoom, hput, hlog, hget]

/-- What one operation appended, for an outcome at hand, so that a proof by cases on outcomes can use what is known of
    the operation. -/
theorem Emits.of_run {P : List Ev → Prop} {x : Op ε S α} (hx : Emits P x) {s s' : S}
    {r : Except ε α} (h : x s = (r, s')) : ∃ ev, log s' = log s ++ ev ∧ P ev := by
  have := hx s
  rwa [h] at this

end Op

end Afos.Lib
