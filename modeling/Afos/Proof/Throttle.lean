import Afos.Machine
import Afos.Proof.Verdict

/-!
# Guessing takes time

A run of attempts to log in, each at its own time and on whatever the storage holds by then: nothing
is assumed about the filesystem between two attempts, so an attempt brings its own. What is carried
from one to the next is the failure counter and the deadline.

The deadline is a function of the failures since the last success (`Throttled`): none before the third
one, and from then on the time of the last failure and a delay that doubles up to 32 seconds. An
attempt before the deadline is turned away unlooked at, so the next failure is not before it either,
and the distances add up.
-/

set_option autoImplicit false

namespace Afos

open Lib

/-- Storage does not answer for the security manager: that a password is wrong is said by `verify`
    alone. -/
def StorageHonest (σ : Type) [Platform σ] : Prop :=
  ∀ (path : Str) (p p' : σ) (e : Error),
    Platform.storageRead path p = (.error e, p') → e ≠ .authenticationFailed

theorem BareMetalPlatform.storageRead_error {D η : Type} {path : Str}
    {p p' : BareMetalPlatform D η} {e : Error} (h : storageRead path p = (.error e, p')) :
    e = .isDirectory path ∨ e = .notFound path := by
  rw [storageRead] at h
  split at h
  · cases h
    exact Or.inl rfl
  split at h
  · cases h
  · cases h
    exact Or.inr rfl

theorem storageHonest_bareMetal {D η : Type} [BlockDevice D] [Hardware η] :
    StorageHonest (BareMetalPlatform D η) := by
  intro path p p' e h
  rcases BareMetalPlatform.storageRead_error h with rfl | rfl
  · exact fun h => (by cases h)
  · exact fun h => (by cases h)

/-- One attempt: the filesystem as it is then, and the password that is tried. The clock is the platform's, and so it
    is in the filesystem. -/
structure Guess (σ : Type) where
  vfs : Vfs σ
  password : Str

namespace Guess

/-- The times of the failures so far, forgotten at a success. An attempt that was turned away, or could not be judged,
    is not one of them. -/
def noted (times : List Nat) (now : Nat) : Except Error Unit → List Nat
  | .ok () => []
  | .error e => if e = .authenticationFailed then times ++ [now] else times

theorem mem_noted {times : List Nat} {now t : Nat} {result : Except Error Unit}
    (h : t ∈ noted times now result) : t ∈ times ∨ t = now := by
  cases result with
  | ok u => cases h
  | error e =>
    rw [noted] at h
    split at h
    · rcases List.mem_append.mp h with h | h
      · exact Or.inl h
      · exact Or.inr (List.mem_singleton.mp h)
    · exact Or.inl h

variable {σ : Type} [Platform σ]

/-- What the clock shows at an attempt. Between attempts it may do what it likes, as long as it does not go back. -/
def time (g : Guess σ) : Nat := (Platform.monotonicMillis g.vfs.platform).1

variable [Argon2]

def answer (security : SecurityManager) (g : Guess σ) : Except Error Unit :=
  (SecurityManager.verify g.password ⟨g.vfs, security⟩).1

def after (security : SecurityManager) (g : Guess σ) : SecurityManager :=
  (SecurityManager.verify g.password ⟨g.vfs, security⟩).2.security

/-- A run from a new manager, and the times of the failures since the last success in it. The times are not in the
    manager; they are noted beside it. -/
def watch (guesses : List (Guess σ)) : SecurityManager × List Nat :=
  guesses.foldl (fun w g => (after w.1 g, noted w.2 g.time (answer w.1 g))) ({}, [])

def run (guesses : List (Guess σ)) : SecurityManager := (watch guesses).1

def failures (guesses : List (Guess σ)) : List Nat := (watch guesses).2

theorem watch_snoc (guesses : List (Guess σ)) (g : Guess σ) :
    watch (guesses ++ [g]) = (after (run guesses) g,
      noted (failures guesses) g.time (answer (run guesses) g)) := by
  rw [watch, List.foldl_append]
  rfl

end Guess

/-! ## The deadline -/

/-- The delay after the `n`-th failure in a row, from the third on: one second, doubled with each failure up to the
    eighth. -/
def delay (n : Nat) : Nat := 1000 * 2 ^ min (n - 3) 5

theorem delay_le (n : Nat) : delay n ≤ 32000 := by
  have h : 2 ^ min (n - 3) 5 ≤ 2 ^ 5 := Nat.pow_le_pow_right (by decide) (Nat.min_le_right _ _)
  rw [delay]
  omega

theorem delay_of_le {n : Nat} (h : 8 ≤ n) : delay n = 32000 := by
  rw [delay, Nat.min_eq_right (by omega)]
  rfl

theorem getLastD_eq_getD (times : List Nat) : times.getLastD 0 = times.getD (times.length - 1) 0 := by
  rw [List.getLastD_eq_getLast?, List.getLast?_eq_getElem?, List.getD_eq_getElem?_getD]

/-- From the third on, each time is at least a delay after the one before it. The places count from zero, so that the
    failure at `k` is the one after `k` failures. -/
def Spaced (times : List Nat) : Prop :=
  ∀ k, 3 ≤ k → k < times.length → times.getD (k - 1) 0 + delay k ≤ times.getD k 0

theorem Spaced.snoc {times : List Nat} (h : Spaced times) {now : Nat}
    (hnow : 3 ≤ times.length → times.getLastD 0 + delay times.length ≤ now) :
    Spaced (times ++ [now]) := by
  intro k hk hlt
  rw [List.length_append, List.length_singleton] at hlt
  by_cases hold : k < times.length
  · rw [List.getD_append _ _ _ _ (by omega), List.getD_append _ _ _ _ hold]
    exact h k hk hold
  · obtain rfl : k = times.length := by omega
    have hlast : (times ++ [now]).getD (times.length - 1) 0 = times.getLastD 0 := by
      rw [List.getD_append _ _ _ _ (by omega), getLastD_eq_getD]
    rw [hlast, List.getD_append_right _ _ _ _ (Nat.le_refl _), Nat.sub_self]
    exact hnow hk

/-- From the eighth on, the times are 32 seconds apart, which is where the doubling of the delay stops. -/
theorem Spaced.eighth {times : List Nat} (h : Spaced times) (j : Nat) (hj : 7 + j < times.length) :
    times.getD 7 0 + 32000 * j ≤ times.getD (7 + j) 0 := by
  -- by the number of further failures, each 32 seconds after the one before
  induction j with
  | zero => rw [Nat.mul_zero, Nat.add_zero]
  | succ j ih =>
    have hstep := h (8 + j) (by omega) (by omega)
    rw [delay_of_le (by omega)] at hstep
    have hindex : 8 + j - 1 = 7 + j := by omega
    have hindex' : 7 + (j + 1) = 8 + j := by omega
    rw [hindex] at hstep
    calc times.getD 7 0 + 32000 * (j + 1) = times.getD 7 0 + 32000 * j + 32000 := by ring
      _ ≤ times.getD (7 + j) 0 + 32000 := Nat.add_le_add_right (ih (by omega)) 32000
      _ ≤ times.getD (8 + j) 0 := hstep
      _ = times.getD (7 + (j + 1)) 0 := by rw [hindex']

/-- So there are eight, and one more for every 32 seconds: the first eight come at any distance, as far as this bound
    goes. -/
theorem Spaced.length_le {times : List Nat} (h : Spaced times) (hsorted : times.Pairwise (· ≤ ·)) :
    times.length ≤ 8 + (times.getLastD 0 - times.headD 0) / 32000 := by
  -- up to eight there is nothing to show, and from there on the distances add up
  by_cases hfew : times.length ≤ 8
  · omega
  have hlast := h.eighth (times.length - 8) (by omega)
  have hindex : 7 + (times.length - 8) = times.length - 1 := by omega
  have hfirst : times.headD 0 ≤ times.getD 7 0 := by
    have hhead : times.headD 0 = times.getD 0 0 := by
      cases times <;> rfl
    have h0 : 0 < times.length := by omega
    have h7 : 7 < times.length := by omega
    rw [hhead, List.getD_eq_getElem _ _ h0, List.getD_eq_getElem _ _ h7]
    exact List.pairwise_iff_getElem.mp hsorted 0 7 h0 h7 (by decide)
  rw [hindex, ← getLastD_eq_getD] at hlast
  have hquot : times.length - 8 ≤ (times.getLastD 0 - times.headD 0) / 32000 :=
    (Nat.le_div_iff_mul_le (by decide)).mpr (by omega)
  omega

/-- When the next attempt is looked at, after failures at these times: at once up to the second, and then a delay after
    the last one, in 64 bits. -/
def lockout (times : List Nat) : Nat :=
  if 3 ≤ times.length then min (times.getLastD 0 + delay times.length) (2 ^ 64 - 1) else 0

/-- What the manager holds, in terms of the failures since the last success. The counter is one of 32 bits and stops
    at its end. -/
structure Counted (security : SecurityManager) (times : List Nat) : Prop where
  count : security.failedAttempts = min times.length (2 ^ 32 - 1)
  deadline : security.blockedUntil = lockout times

theorem counted_new : Counted {} [] := ⟨rfl, rfl⟩

/-- One more failure, whenever it is. That it was not before the deadline is not needed to count it. -/
theorem Counted.fail {security : SecurityManager} {times : List Nat} (h : Counted security times) (now : Nat) :
    Counted (security.recordFailure now) (times ++ [now]) := by
  have hlength : (times ++ [now]).length = times.length + 1 := List.length_append
  have hfailed : min (security.failedAttempts + 1) (2 ^ 32 - 1) =
      min (times.length + 1) (2 ^ 32 - 1) := by
    rw [h.count]
    omega
  refine ⟨?_, ?_⟩
  · rw [hlength, ← hfailed]
    rfl
  · -- the counter is cut off far above the eighth failure, from which on the delay is the same
    have hdelay : 1000 * 2 ^ min (min (times.length + 1) (2 ^ 32 - 1) - 3) 5 =
        delay (times.length + 1) := by
      have hexponent : min (min (times.length + 1) (2 ^ 32 - 1) - 3) 5 =
          min (times.length + 1 - 3) 5 := by omega
      rw [hexponent, delay]
    rw [SecurityManager.recordFailure, hfailed, hdelay, lockout, hlength, List.getLastD_concat]
    dsimp only
    by_cases hmany : 3 ≤ times.length + 1
    · rw [if_pos (by omega), if_pos hmany]
    · rw [if_neg (by omega), if_neg hmany, h.deadline, lockout, if_neg (by omega)]

/-- The same with the distances between the failures, which are in order. This needs a clock that does not go back and
    is not near its end; `Counted` does not. -/
structure Throttled (security : SecurityManager) (times : List Nat) : Prop extends Counted security times where
  spaced : Spaced times
  sorted : times.Pairwise (· ≤ ·)

theorem throttled_new : Throttled {} [] where
  toCounted := counted_new
  spaced _ _ hlt := absurd hlt (Nat.not_lt_zero _)
  sorted := List.Pairwise.nil

/-- One more failure, not before the deadline that the earlier ones have set, so the new time keeps its distance from
    them. -/
theorem Throttled.fail {security : SecurityManager} {times : List Nat} (h : Throttled security times)
    {now : Nat} (hlate : security.blockedUntil ≤ now) (hnow : ∀ t ∈ times, t ≤ now)
    (hbound : now + 32000 < 2 ^ 64) :
    Throttled (security.recordFailure now) (times ++ [now]) := by
  refine ⟨h.toCounted.fail now, h.spaced.snoc fun hmany => ?_, ?_⟩
  · rw [h.deadline, lockout, if_pos hmany] at hlate
    omega
  · rw [List.pairwise_append]
    refine ⟨h.sorted, List.pairwise_singleton _ _, fun t ht u hu => ?_⟩
    rw [List.mem_singleton.mp hu]
    exact hnow t ht

/-! ## Runs -/

/-- However many failures there have been, the next attempt is not put off by more than 32 seconds. -/
theorem SecurityManager.recordFailure_blockedUntil_le (security : SecurityManager) (now : Nat) :
    (security.recordFailure now).blockedUntil ≤ max security.blockedUntil (now + 32000) := by
  have hle := delay_le (min (security.failedAttempts + 1) (2 ^ 32 - 1))
  rw [delay] at hle
  rw [recordFailure]
  dsimp only
  split
  · omega
  · exact Nat.le_max_left _ _

namespace Guess

section Runs

variable {σ : Type} [Platform σ] [Argon2]

theorem blockedUntil_after (security : SecurityManager) (g : Guess σ) :
    (after security g).blockedUntil ≤ max security.blockedUntil (g.time + 32000) := by
  have hout := SecurityManager.verify_outcome g.password ⟨g.vfs, security⟩
  rw [after]
  generalize (SecurityManager.verify g.password ⟨g.vfs, security⟩).1 = result at hout
  generalize (SecurityManager.verify g.password ⟨g.vfs, security⟩).2.security = next at hout ⊢
  -- only a password that was looked at and found wrong sets a deadline
  cases hout with
  | early hearly => exact Nat.le_max_left _ _
  | unread hlate hread => exact Nat.le_max_left _ _
  | judged hlate hread =>
    rename_i data p
    cases verdict g.password data with
    | error e => exact Nat.le_max_left _ _
    | ok accepted =>
      cases accepted with
      | true => exact Nat.zero_le _
      | false => exact security.recordFailure_blockedUntil_le g.time

/-- The deadline is never more than 32 seconds ahead of the clock, so a user who has forgotten the password is not
    locked out for longer. -/
theorem blockedUntil_run {guesses : List (Guess σ)} {now : Nat} (hnow : ∀ g ∈ guesses, g.time ≤ now) :
    (run guesses).blockedUntil ≤ now + 32000 := by
  induction guesses using List.reverseRecOn with
  | nil => exact Nat.zero_le _
  | append_singleton guesses g ih =>
    have hprev := ih fun g' hg' => hnow g' (List.mem_append_left _ hg')
    have hlast := hnow g (List.mem_append_right _ List.mem_cons_self)
    have hstep := blockedUntil_after (run guesses) g
    rw [run, watch_snoc]
    exact hstep.trans (max_le hprev (Nat.add_le_add_right hlast 32000))

/-- What an attempt does to the manager, by what it answers: nothing, a new one at a success, and a failure more if the
    password was looked at and wrong. -/
inductive Step (security : SecurityManager) (now : Nat) : Except Error Unit → SecurityManager → Prop
  | accepted : Step security now (.ok ()) {}
  | refused (late : security.blockedUntil ≤ now) :
      Step security now (.error .authenticationFailed) (security.recordFailure now)
  | other {e : Error} (h : e ≠ .authenticationFailed) : Step security now (.error e) security

theorem step_after (hstorage : StorageHonest σ) (security : SecurityManager) (g : Guess σ) :
    Step security g.time (answer security g) (after security g) := by
  have hout := SecurityManager.verify_outcome g.password ⟨g.vfs, security⟩
  rw [after, answer]
  generalize (SecurityManager.verify g.password ⟨g.vfs, security⟩).1 = result at hout ⊢
  generalize (SecurityManager.verify g.password ⟨g.vfs, security⟩).2.security = next at hout ⊢
  -- that the answer is a wrong password is said in one case only, and there the deadline has passed
  cases hout with
  | early hearly => exact .other fun h => by cases h
  | unread hlate hread => exact .other (hstorage _ _ _ _ hread)
  | judged hlate hread =>
    rename_i data p
    cases hverdict : verdict g.password data with
    | error e =>
      refine .other fun h => ?_
      rcases verdict_error hverdict with ⟨message, rfl⟩ | ⟨message, rfl⟩
      · cases h
      · cases h
    | ok accepted =>
      cases accepted with
      | true => exact .accepted
      | false => exact .refused hlate

theorem counted_step (hstorage : StorageHonest σ) {security : SecurityManager} {times : List Nat}
    (h : Counted security times) (g : Guess σ) :
    Counted (after security g) (noted times g.time (answer security g)) := by
  have hstep := step_after hstorage security g
  generalize answer security g = result at hstep ⊢
  generalize after security g = next at hstep ⊢
  cases hstep with
  | accepted => exact counted_new
  | refused hlate => exact h.fail g.time
  | other hne =>
    rw [noted, if_neg hne]
    exact h

/-- The deadline after a run, from the times of the failures since the last success. What was offered, and what was
    turned away, has left no trace. -/
theorem counted_run (hstorage : StorageHonest σ) (guesses : List (Guess σ)) :
    Counted (run guesses) (failures guesses) := by
  induction guesses using List.reverseRecOn with
  | nil => exact counted_new
  | append_singleton guesses g ih =>
    rw [run, failures, watch_snoc]
    exact counted_step hstorage ih g

/-- One attempt, by its outcome. A success begins anew, a failed comparison adds its time, and anything else, being
    turned away above all, changes nothing. -/
theorem throttled_step (hstorage : StorageHonest σ) {security : SecurityManager} {times : List Nat}
    (h : Throttled security times) {g : Guess σ} (hnow : ∀ t ∈ times, t ≤ g.time)
    (hbound : g.time + 32000 < 2 ^ 64) :
    Throttled (after security g) (noted times g.time (answer security g)) := by
  have hstep := step_after hstorage security g
  generalize answer security g = result at hstep ⊢
  generalize after security g = next at hstep ⊢
  cases hstep with
  | accepted => exact throttled_new
  | refused hlate => exact h.fail hlate hnow hbound
  | other hne =>
    rw [noted, if_neg hne]
    exact h

theorem mem_failures {guesses : List (Guess σ)} {t : Nat} (h : t ∈ failures guesses) :
    t ∈ guesses.map time := by
  induction guesses using List.reverseRecOn with
  | nil => cases h
  | append_singleton guesses g ih =>
    rw [failures, watch_snoc] at h
    rw [List.map_append, List.mem_append]
    rcases mem_noted h with h | rfl
    · exact Or.inl (ih h)
    · exact Or.inr List.mem_cons_self

theorem throttled_run (hstorage : StorageHonest σ) {guesses : List (Guess σ)}
    (hclock : (guesses.map time).Pairwise (· ≤ ·)) (hbound : ∀ g ∈ guesses, g.time + 32000 < 2 ^ 64) :
    Throttled (run guesses) (failures guesses) := by
  induction guesses using List.reverseRecOn with
  | nil => exact throttled_new
  | append_singleton guesses g ih =>
    rw [List.map_append, List.pairwise_append] at hclock
    have hprev := ih hclock.1 fun g' hg' => hbound g' (List.mem_append_left _ hg')
    rw [run, failures, watch_snoc]
    refine throttled_step hstorage hprev (fun t ht => ?_)
      (hbound g (List.mem_append_right _ List.mem_cons_self))
    exact hclock.2.2 t (mem_failures ht) g.time List.mem_cons_self

/-- **Guessing is throttled over whole runs.** An attempt before the deadline is turned away with the
    time that is left, which is at most 32 seconds, and changes nothing; and the failures since the last
    success lie apart, each at least the delay of its number after the one before it, so that there are
    at most eight and one more for every 32 seconds. -/
theorem guessing_throttled (hstorage : StorageHonest σ) (guesses : List (Guess σ))
    (hclock : (guesses.map time).Pairwise (· ≤ ·)) (hbound : ∀ g ∈ guesses, g.time + 32000 < 2 ^ 64) :
    (∀ before g rest, guesses = before ++ g :: rest → g.time < (run before).blockedUntil →
      answer (run before) g = .error (.rateLimited ((run before).blockedUntil - g.time)) ∧
        1 ≤ (run before).blockedUntil - g.time ∧ (run before).blockedUntil - g.time ≤ 32000 ∧
        after (run before) g = run before) ∧
      (∀ k, 3 ≤ k → k < (failures guesses).length →
        1000 * 2 ^ min (k - 3) 5 ≤
          (failures guesses).getD k 0 - (failures guesses).getD (k - 1) 0) ∧
      (failures guesses).length ≤
        8 + ((failures guesses).getLastD 0 - (failures guesses).headD 0) / 32000 := by
  have hthrottled := throttled_run hstorage hclock hbound
  refine ⟨?_, fun k hk hlt => ?_, hthrottled.spaced.length_le hthrottled.sorted⟩
  · -- a deadline that is not reached was set by an attempt of the run, at most 32 seconds before it
    rintro before g rest rfl hearly
    rw [List.map_append, List.pairwise_append] at hclock
    have hle : (run before).blockedUntil ≤ g.time + 32000 := blockedUntil_run fun g' hg' =>
      hclock.2.2 g'.time (List.mem_map_of_mem hg') g.time List.mem_cons_self
    have hrun := (SecurityManager.run_verify g.password ⟨g.vfs, run before⟩).trans (if_pos hearly)
    refine ⟨congrArg Prod.fst hrun, by omega, by omega, ?_⟩
    rw [after, hrun]
    rfl
  · have hspaced := hthrottled.spaced k hk hlt
    rw [delay] at hspaced
    omega

end Runs

section Wrong

attribute [local instance] lengthArgon2

/-- A wrong password, at this value of a counter with this frequency. -/
def wrongAt (frequency count : Nat) : Guess (BareMetalPlatform NoDisk Ticking) where
  vfs := (System.new
    { tree := FileTree.empty.insertFile securityFile
        (asBytes (encodeVerifier (List.replicate 16 0) (List.replicate 32 6)))
      persistence := none, hardware := ⟨count⟩, started := 0, counterFrequency := frequency }).vfs
  password := "guess".toList

/-- Three failures, one attempt that is turned away, and a fourth failure. -/
def fiveWrong : List (Guess (BareMetalPlatform NoDisk Ticking)) :=
  [0, 10, 20, 500, 1020].map (wrongAt 1000)

theorem guessing_throttled_five :
    failures fiveWrong = [0, 10, 20, 1020] ∧
      answer (run (fiveWrong.take 3)) (wrongAt 1000 500) = .error (.rateLimited 520) ∧
      (∀ k, 3 ≤ k → k < (failures fiveWrong).length →
        1000 * 2 ^ min (k - 3) 5 ≤
          (failures fiveWrong).getD k 0 - (failures fiveWrong).getD (k - 1) 0) ∧
      (failures fiveWrong).length ≤
        8 + ((failures fiveWrong).getLastD 0 - (failures fiveWrong).headD 0) / 32000 := by
  refine ⟨by decide +kernel, by decide +kernel, ?_⟩
  exact (guessing_throttled storageHonest_bareMetal fiveWrong (by decide +kernel) (by decide +kernel)).2

end Wrong

end Guess

end Afos
