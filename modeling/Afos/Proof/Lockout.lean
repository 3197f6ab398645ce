import Afos.Proof.Throttle

/-!
# Lockouts, and a clock that stands still

On bare metal the clock is a tick counter, multiplied by a thousand and divided by its frequency. The
multiplication saturates, so the clock does not: it stops, at the quotient of the largest number there
is. A deadline set near that end is never reached, however long one waits, and neither is one set
before the counter has passed the value it is counted from.

Away from the two ends a second is a second. A deadline is at most 32 seconds ahead, so that 33 seconds
of ticks are enough.
-/

set_option autoImplicit false

namespace Afos

open Lib

/-! ## The clock -/

/-- What the clock shows at a value of the counter. The subtraction and the multiplication saturate, the division
    rounds down. -/
def millis (frequency started count : Nat) : Nat :=
  min ((count - started) * 1000) (2 ^ 64 - 1) / frequency

section Clock

variable {frequency started count count' : Nat}

theorem millis_mono (h : count ≤ count') :
    millis frequency started count ≤ millis frequency started count' :=
  Nat.div_le_div_right (by omega)

theorem millis_of_le (h : (count - started) * 1000 ≤ 2 ^ 64 - 1) :
    millis frequency started count = (count - started) * 1000 / frequency := by
  rw [millis, Nat.min_eq_left h]

theorem millis_of_lt (h : 2 ^ 64 - 1 < (count - started) * 1000) :
    millis frequency started count = (2 ^ 64 - 1) / frequency := by
  rw [millis, Nat.min_eq_right h.le]

/-- 33 seconds of ticks are 33 seconds on the clock, if it runs. -/
theorem millis_add_le (hfrequency : 1 ≤ frequency) (hstart : started ≤ count)
    (hlater : count + 33 * frequency ≤ count') (hruns : (count' - started) * 1000 ≤ 2 ^ 64 - 1) :
    millis frequency started count + 33000 ≤ millis frequency started count' := by
  have hcounts : count - started + 33 * frequency ≤ count' - started := by omega
  have hticks : (count - started) * 1000 + 33000 * frequency ≤ (count' - started) * 1000 :=
    calc (count - started) * 1000 + 33000 * frequency
        = (count - started + 33 * frequency) * 1000 := by ring
      _ ≤ (count' - started) * 1000 := Nat.mul_le_mul_right 1000 hcounts
  have hruns₀ : (count - started) * 1000 ≤ 2 ^ 64 - 1 := (Nat.le_add_right _ _).trans (hticks.trans hruns)
  rw [millis_of_le hruns, millis_of_le hruns₀, ← Nat.add_mul_div_right _ _ hfrequency]
  exact Nat.div_le_div_right hticks

/-- A deadline within 32 seconds is reached 33 seconds later, except where the clock stands still: at
    its end, or before the counter has reached the start value. -/
theorem deadline_reached_iff (hfrequency : 1 ≤ frequency)
    (hlater : count + 33 * frequency ≤ count') {deadline : Nat}
    (hdeadline : deadline ≤ millis frequency started count + 32000) :
    deadline ≤ millis frequency started count' ↔
      ¬ (2 ^ 64 - 1 < (count' - started) * 1000 ∧ (2 ^ 64 - 1) / frequency < deadline) ∧
        ¬ (count < started ∧ (count' - started) * 1000 / frequency < deadline) := by
  -- the clock still runs at the later reading, or it has come to its end
  by_cases hruns : (count' - started) * 1000 ≤ 2 ^ 64 - 1
  · rw [millis_of_le hruns]
    refine ⟨fun h => ⟨fun hend => absurd hend.1 (not_lt.mpr hruns), fun hwait => ?_⟩, fun h => ?_⟩
    · exact absurd h (not_le.mpr hwait.2)
    · -- it ran at the earlier one as well, so that 33 seconds have passed
      by_cases hstart : started ≤ count
      · have hadd := millis_add_le hfrequency hstart hlater hruns
        rw [millis_of_le hruns] at hadd
        omega
      · exact not_lt.mp fun hlt => h.2 ⟨not_le.mp hstart, hlt⟩
  · have hend := not_le.mp hruns
    rw [millis_of_lt hend]
    refine ⟨fun h => ⟨fun hstands => absurd h (not_le.mpr hstands.2), fun hwait => ?_⟩, fun h => ?_⟩
    · have hle : (2 ^ 64 - 1) / frequency ≤ (count' - started) * 1000 / frequency :=
        Nat.div_le_div_right hend.le
      exact absurd (h.trans hle) (not_le.mpr hwait.2)
    · exact not_lt.mp fun hlt => h.1 ⟨hend, hlt⟩

end Clock

/-! ## Attempts on one machine -/

namespace Guess

section Machine

variable {D η : Type} [BlockDevice D] [Hardware η]

/-- The counter at an attempt. The clock is computed from it and from two numbers that are fixed for the machine. -/
def reading (g : Guess (BareMetalPlatform D η)) : Nat :=
  (Hardware.counter g.vfs.platform.hardware).1

/-- An attempt on the machine with this counter frequency and this start value. -/
def IsOn (frequency started : Nat) (g : Guess (BareMetalPlatform D η)) : Prop :=
  g.vfs.platform.counterFrequency = frequency ∧ g.vfs.platform.started = started

theorem time_eq {frequency started : Nat} {g : Guess (BareMetalPlatform D η)}
    (h : g.IsOn frequency started) : g.time = millis frequency started g.reading := by
  rw [← h.1, ← h.2]
  rfl

variable [Argon2]

/-- An attempt is turned away exactly before the deadline. -/
theorem not_rateLimited_iff {security : SecurityManager} {g : Guess (BareMetalPlatform D η)} :
    (∀ left, answer security g ≠ .error (.rateLimited left)) ↔ security.blockedUntil ≤ g.time := by
  have hout := SecurityManager.verify_outcome g.password ⟨g.vfs, security⟩
  rw [answer]
  generalize (SecurityManager.verify g.password ⟨g.vfs, security⟩).1 = result at hout ⊢
  generalize (SecurityManager.verify g.password ⟨g.vfs, security⟩).2.security = next at hout
  -- storage and verdict have errors of their own, none of which is that it is too early
  cases hout with
  | early hearly => exact iff_of_false (fun h => h _ rfl) (not_le.mpr hearly)
  | unread hlate hread =>
    refine iff_of_true (fun left heq => ?_) hlate
    rcases BareMetalPlatform.storageRead_error hread with rfl | rfl
    · cases heq
    · cases heq
  | judged hlate hread =>
    rename_i data p
    refine iff_of_true (fun left heq => ?_) hlate
    cases hverdict : verdict g.password data with
    | error e =>
      rw [hverdict] at heq
      obtain rfl : e = .rateLimited left := Except.error.inj heq
      rcases verdict_error hverdict with ⟨message, he⟩ | ⟨message, he⟩
      · cases he
      · cases he
    | ok accepted =>
      rw [hverdict] at heq
      cases accepted with
      | true => cases heq
      | false => cases heq

/-- **Lockouts end, while the clock runs.** After any run of attempts on one machine, at readings that
    do not decrease, an attempt 33 seconds of ticks after the last one is not turned away, unless the
    clock stands still before the deadline: because its product has reached the largest number there is,
    or because the last attempt was made before the counter had reached the start value.

    The deadline is said in terms of the failures since the last success, by their number and the time of the last
    one (`lockout`). -/
theorem lockout_ends_iff (frequency started : Nat) (hfrequency : 1 ≤ frequency)
    (guesses : List (Guess (BareMetalPlatform D η))) (last next : Guess (BareMetalPlatform D η))
    (hmachine : ∀ g ∈ guesses ++ [last, next], g.IsOn frequency started)
    (hreadings : ((guesses ++ [last]).map reading).Pairwise (· ≤ ·))
    (hlater : last.reading + 33 * frequency ≤ next.reading) :
    (∀ left, answer (run (guesses ++ [last])) next ≠ .error (.rateLimited left)) ↔
      ¬ (2 ^ 64 - 1 < (next.reading - started) * 1000 ∧
          (2 ^ 64 - 1) / frequency < lockout (failures (guesses ++ [last]))) ∧
        ¬ (last.reading < started ∧
          (next.reading - started) * 1000 / frequency < lockout (failures (guesses ++ [last]))) := by
  have hlast : last.IsOn frequency started := hmachine last (by simp)
  have hnext : next.IsOn frequency started := hmachine next (by simp)
  -- the last attempt is the latest by the clock, as the clock does not go back
  have hpast : ∀ g ∈ guesses ++ [last], g.time ≤ last.time := by
    intro g hg
    rw [List.map_append, List.pairwise_append] at hreadings
    rcases List.mem_append.mp hg with hg | hg
    · have hle := hreadings.2.2 g.reading (List.mem_map_of_mem hg) last.reading List.mem_cons_self
      rw [time_eq (hmachine g (List.mem_append_left _ hg)), time_eq hlast]
      exact millis_mono hle
    · rw [List.mem_singleton.mp hg]
  have hdeadline := blockedUntil_run hpast
  rw [time_eq hlast] at hdeadline
  rw [not_rateLimited_iff, time_eq hnext, ← (counted_run storageHonest_bareMetal (guesses ++ [last])).deadline]
  exact deadline_reached_iff hfrequency hlater hdeadline

end Machine

section Standstill

attribute [local instance] lengthArgon2

/-- A counter of one gigahertz after 214 days. The third wrong password closes the door for a second,
    and at the last value the counter can have, centuries later, the second is not over. -/
theorem lockout_never_ends :
    (run (List.replicate 3 (wrongAt 1000000000 18446744073709552))).blockedUntil =
        (wrongAt 1000000000 18446744073709552).time + 1000 ∧
      18446744073709552 + 33 * 1000000000 ≤ 2 ^ 64 - 1 ∧
      answer (run (List.replicate 3 (wrongAt 1000000000 18446744073709552)))
        (wrongAt 1000000000 (2 ^ 64 - 1)) = .error (.rateLimited 1000) := by
  decide +kernel

/-- The same counter in its first minute. -/
theorem lockout_ends_in_first_minute :
    (wrongAt 1000000000 3000000000).time <
        (run ([1000000000, 2000000000].map (wrongAt 1000000000) ++
          [wrongAt 1000000000 3000000000])).blockedUntil ∧
      ∀ left, answer (run ([1000000000, 2000000000].map (wrongAt 1000000000) ++
        [wrongAt 1000000000 3000000000])) (wrongAt 1000000000 36000000000) ≠
          .error (.rateLimited left) := by
  refine ⟨by decide +kernel, ?_⟩
  have hmachine : ∀ g ∈ [1000000000, 2000000000].map (wrongAt 1000000000) ++
      [wrongAt 1000000000 3000000000, wrongAt 1000000000 36000000000], g.IsOn 1000000000 0 := by
    simp [wrongAt, IsOn, System.new]
  exact (lockout_ends_iff 1000000000 0 (by decide) _ _ _ hmachine (by decide +kernel)
    (by decide +kernel)).mpr (by decide +kernel)

end Standstill

end Guess

end Afos
