import Mathlib

/-!
# Cells behind a write cache

Storage whose writes are not yet permanent. A cell has a content, which is what a read finds,
and the other contents it may still turn out to have: what it held at the last flush and what
was written to it since. A fault lets every cell fall to any of them and decides nothing for
good; a crash lets it fall and then leaves it there; a flush makes the present content the only
one.

Which contents a cell can have is `candidates`. Every operation is described by how it changes
them (`Admits`), a relation that composes, so that what a sequence of calls can have done to a
cell is read off the calls and not off the order in which they failed.
-/

set_option autoImplicit false

namespace Afos.Lib

structure Volatile (ι β : Type) where
  content : ι → β
  earlier : ι → List β

namespace Volatile

variable {ι β : Type}

/-- What a cell can turn out to hold. The first is what is read from it now, and the others are what it held before,
    since the last flush. -/
def candidates (v : Volatile ι β) (i : ι) : List β := v.content i :: v.earlier i

/-- Cells that hold `content` for good: there is nothing that they could fall back to. -/
def permanent (content : ι → β) : Volatile ι β := ⟨content, fun _ => []⟩

/-- Put new contents into some of the cells. What they held becomes one of the things they can fall back to, until a
    flush. -/
def write (new : ι → Option β) (v : Volatile ι β) : Volatile ι β where
  content i := (new i).getD (v.content i)
  earlier i := if (new i).isSome then v.candidates i else v.earlier i

/-- Every cell falls to one of its candidates, and can still fall to the others. This is what a fault does that is not
    the end: a later one may decide differently. -/
def settle (pick : ι → Nat) (v : Volatile ι β) : Volatile ι β where
  content i := ((v.candidates i)[pick i]?).getD (v.content i)
  earlier := v.candidates

def flush (v : Volatile ι β) : Volatile ι β := permanent v.content

def crash (pick : ι → Nat) (v : Volatile ι β) : Volatile ι β := (v.settle pick).flush

/-! ## The candidates after each operation -/

theorem content_mem_candidates (v : Volatile ι β) (i : ι) : v.content i ∈ v.candidates i :=
  List.mem_cons_self

theorem write_of_some {new : ι → Option β} {v : Volatile ι β} {i : ι} {b : β}
    (h : new i = some b) :
    (v.write new).content i = b ∧ (v.write new).candidates i = b :: v.candidates i := by
  simp [candidates, write, h]

theorem write_of_none {new : ι → Option β} {v : Volatile ι β} {i : ι} (h : new i = none) :
    (v.write new).content i = v.content i ∧ (v.write new).candidates i = v.candidates i := by
  simp [candidates, write, h]

theorem content_settle_mem (pick : ι → Nat) (v : Volatile ι β) (i : ι) :
    (v.settle pick).content i ∈ v.candidates i := by
  show ((v.candidates i)[pick i]?).getD (v.content i) ∈ v.candidates i
  cases h : (v.candidates i)[pick i]? with
  | none => exact v.content_mem_candidates i
  | some b => exact List.mem_of_getElem? h

/-! ## What may be added to a cell -/

/-- Whatever a cell can hold afterwards it could hold before, or `new` allows it there. It is a preorder in which
    writes, faults, flushes and crashes all can be stated, so a sequence of them can too. -/
def Admits (new : ι → β → Prop) (v v' : Volatile ι β) : Prop :=
  ∀ i, ∀ b ∈ v'.candidates i, b ∈ v.candidates i ∨ new i b

instance (new : ι → β → Prop) : IsPreorder (Volatile ι β) (Admits new) where
  refl _ _ _ hb := Or.inl hb
  trans _ _ _ h h' i b hb := by
    rcases h' i b hb with hb | hb
    · exact h i b hb
    · exact Or.inr hb

variable {new : ι → β → Prop}

theorem admits_write {w : ι → Option β} (hw : ∀ i b, w i = some b → new i b)
    (v : Volatile ι β) : Admits new v (v.write w) := by
  intro i b hb
  cases h : w i with
  | none => exact Or.inl ((write_of_none h).2 ▸ hb)
  | some c =>
    rw [(write_of_some h).2, List.mem_cons] at hb
    rcases hb with rfl | hb
    · exact Or.inr (hw i b h)
    · exact Or.inl hb

theorem admits_settle (pick : ι → Nat) (v : Volatile ι β) : Admits new v (v.settle pick) := by
  intro i b hb
  rcases List.mem_cons.mp hb with rfl | hb
  · exact Or.inl (v.content_settle_mem pick i)
  · exact Or.inl hb

theorem admits_flush (v : Volatile ι β) : Admits new v v.flush := by
  intro i b hb
  rw [List.mem_singleton.mp hb]
  exact Or.inl (v.content_mem_candidates i)

theorem admits_crash (pick : ι → Nat) (v : Volatile ι β) : Admits new v (v.crash pick) :=
  IsTrans.trans _ _ _ (admits_settle pick v) (admits_flush _)

/-! ## Cells that are decided -/

/-- The cell has one candidate: its content is on the medium. A crash cannot change it. -/
def Settled (v : Volatile ι β) (i : ι) : Prop := ∀ b ∈ v.candidates i, b = v.content i

theorem settled_flush (v : Volatile ι β) (i : ι) : v.flush.Settled i :=
  fun _ hb => List.mem_singleton.mp hb

/-- A settled cell that nothing is added to keeps its content, and stays settled, through whatever else is done to
    other cells. -/
theorem Settled.keep {v v' : Volatile ι β} {i : ι} (h : v.Settled i) (hv : Admits new v v')
    (hi : ∀ b, ¬ new i b) : v'.content i = v.content i ∧ v'.Settled i := by
  have hall : ∀ b ∈ v'.candidates i, b = v.content i := by
    intro b hb
    rcases hv i b hb with hb | hb
    · exact h b hb
    · exact absurd hb (hi b)
  have hcontent := hall _ (v'.content_mem_candidates i)
  exact ⟨hcontent, fun b hb => (hall b hb).trans hcontent.symm⟩

end Volatile

end Afos.Lib
