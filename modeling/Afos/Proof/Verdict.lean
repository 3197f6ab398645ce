import Afos.Proof.Effects

/-!
# What a verifier says

The verifier file is read line by line: a header, a salt and a hash in hexadecimal. What it says about
a password is one of three things. It accepts the password, it refuses it, or it cannot be read, and
only the first two touch the failure counter.
-/

set_option autoImplicit false

namespace Afos

open Lib

/-! ## Hexadecimal -/

/-- An error that says that some input was not in order, with whatever message. -/
def Error.IsInvalidInput (e : Error) : Prop := ∃ message, e = .invalidInput message

theorem hexNibble_error {value : UInt8} {e : Error} (h : hexNibble value = .error e) :
    e.IsInvalidInput := by
  rw [hexNibble] at h
  split at h
  · cases h
  split at h
  · cases h
  split at h
  · cases h
  · exact ⟨_, (Except.error.inj h).symm⟩

theorem decodePairs_error {bytes : Bytes} {e : Error} (h : decodePairs bytes = .error e) :
    e.IsInvalidInput := by
  -- two digits at a time; less than two left over are no error here, as the length was checked before
  induction bytes using decodePairs.induct with
  | case1 high low rest ih =>
    rw [decodePairs] at h
    rcases Op.except_bind_error h with h | ⟨x, -, h⟩
    · exact hexNibble_error h
    rcases Op.except_bind_error h with h | ⟨y, -, h⟩
    · exact hexNibble_error h
    rcases Op.except_bind_error h with h | ⟨z, -, h⟩
    · exact ih h
    · cases h
  | case2 bytes hshort =>
    rw [decodePairs.eq_def] at h
    split at h
    · exact absurd rfl (hshort _ _ _)
    · cases h

theorem decodeHex_error {n : Nat} {value : Str} {e : Error} (h : decodeHex n value = .error e) :
    e.IsInvalidInput := by
  rw [decodeHex] at h
  split at h
  · exact ⟨_, (Except.error.inj h).symm⟩
  · exact decodePairs_error h

/-! ## The three lines -/

/-- A verifier is read as a salt and a hash exactly if its first three lines are the header and the two of them in
    hexadecimal. Whatever comes behind the third line is not looked at. -/
theorem parseVerifier_ok_iff {encoded : Str} {salt hash : Bytes} :
    parseVerifier encoded = .ok (salt, hash) ↔
      ∃ saltLine hashLine rest, lines encoded = "AFOS-AUTH-1".toList :: saltLine :: hashLine :: rest ∧
        decodeHex saltLen saltLine = .ok salt ∧ decodeHex hashLen hashLine = .ok hash := by
  rw [parseVerifier]
  constructor
  · intro h
    -- line by line, in the order in which the source takes them
    cases hlines : lines encoded with
    | nil =>
      rw [hlines] at h
      cases h
    | cons header rest =>
      rw [hlines] at h
      dsimp only at h
      by_cases hheader : header ≠ "AFOS-AUTH-1".toList
      · rw [if_pos hheader] at h
        cases h
      rw [if_neg hheader] at h
      cases rest with
      | nil => cases h
      | cons saltLine rest =>
        obtain ⟨found, hsalt, h⟩ := Op.except_bind_ok h
        cases rest with
        | nil => cases h
        | cons hashLine rest =>
          obtain ⟨expected, hhash, h⟩ := Op.except_bind_ok h
          cases h
          exact ⟨saltLine, hashLine, rest, by rw [not_not.mp hheader], hsalt, hhash⟩
  · rintro ⟨saltLine, hashLine, rest, hlines, hsalt, hhash⟩
    rw [hlines]
    dsimp only
    rw [if_neg (not_not.mpr rfl), hsalt]
    show (decodeHex hashLen hashLine >>= fun expected => Except.ok (salt, expected)) = _
    rw [hhash]
    rfl

/-- A verifier that cannot be read is invalid input, whatever is wrong with it. -/
theorem parseVerifier_error {encoded : Str} {e : Error} (h : parseVerifier encoded = .error e) :
    e.IsInvalidInput := by
  rw [parseVerifier] at h
  cases hlines : lines encoded with
  | nil =>
    rw [hlines] at h
    exact ⟨_, (Except.error.inj h).symm⟩
  | cons header rest =>
    rw [hlines] at h
    dsimp only at h
    by_cases hheader : header ≠ "AFOS-AUTH-1".toList
    · rw [if_pos hheader] at h
      exact ⟨_, (Except.error.inj h).symm⟩
    rw [if_neg hheader] at h
    cases rest with
    | nil => exact ⟨_, (Except.error.inj h).symm⟩
    | cons saltLine rest =>
      rcases Op.except_bind_error h with h | ⟨salt, -, h⟩
      · exact decodeHex_error h
      cases rest with
      | nil => exact ⟨_, (Except.error.inj h).symm⟩
      | cons hashLine rest =>
        rcases Op.except_bind_error h with h | ⟨hash, -, h⟩
        · exact decodeHex_error h
        · cases h

/-! ## Accepted, refused, unreadable -/

section Verdict

variable {σ : Type} [Argon2]

/-- What the bytes of a verifier say about a password: the hash of the password with the salt is the one that is kept,
    or it is not, or the bytes say nothing. -/
def verdict (password : Str) (data : Bytes) : Except Error Bool := do
  let encoded ← SecurityManager.decodeText data
  let (salt, expected) ← parseVerifier encoded
  let actual ← derive (asBytes password) salt
  .ok (decide (actual = expected))

/-- What a verdict does to the answer and to the failure counter. A success forgets all failures, and a verifier that
    cannot be read is not a failure of the user's. -/
def SecurityManager.settle (now : Nat) (security : SecurityManager) :
    Except Error Bool → Except Error Unit × SecurityManager
  | .ok true => (.ok (), {})
  | .ok false => (.error .authenticationFailed, security.recordFailure now)
  | .error e => (.error e, security)

omit [Argon2] in
theorem SecurityManager.settle_ok_iff {now : Nat} {security : SecurityManager}
    {v : Except Error Bool} : (security.settle now v).1 = .ok () ↔ v = .ok true := by
  cases v with
  | error e => exact ⟨fun h => (by cases h), fun h => (by cases h)⟩
  | ok accepted =>
    cases accepted with
    | true => exact ⟨fun _ => rfl, fun _ => rfl⟩
    | false => exact ⟨fun h => (by cases h), fun h => (by cases h)⟩

/-- The last part of `verify`, as a verdict and what it does. The verdict depends on the password and the file alone,
    and the rest on the verdict and the time. -/
theorem SecurityManager.run_judge (password : Str) (now : Nat) (data : Bytes) (s : System σ) :
    judge password now data s =
      ((s.security.settle now (verdict password data)).1,
        { s with security := (s.security.settle now (verdict password data)).2 }) := by
  -- each of the three steps may fail; only a comparison that was made gets to the counter
  cases htext : decodeText data with
  | error e => simp only [judge, verdict, htext, Op.run_ofExcept, bind, Except.bind, settle]
  | ok text =>
    cases hparse : parseVerifier text with
    | error e => simp only [judge, verdict, htext, hparse, Op.run_ofExcept, bind, Except.bind, settle]
    | ok pair =>
      cases hderive : derive (asBytes password) pair.1 with
      | error e =>
        simp only [judge, verdict, htext, hparse, hderive, Op.run_ofExcept, bind, Except.bind, settle]
      | ok actual =>
        have hverdict : verdict password data = .ok (decide (actual = pair.2)) := by
          simp only [verdict, htext, hparse, hderive, bind, Except.bind]
        rw [judge, htext, Op.run_bind_ok (Op.run_ofExcept _ s), hparse,
          Op.run_bind_ok (Op.run_ofExcept _ s)]
        dsimp only
        rw [hderive, Op.run_bind_ok (Op.run_ofExcept _ s), hverdict]
        by_cases hsame : actual = pair.2
        · rw [if_pos hsame, decide_eq_true hsame]
          rfl
        · rw [if_neg hsame, decide_eq_false hsame]
          rfl

/-- No verdict is an error of another kind than those that say so. In particular none is a wrong password, or too
    early an attempt. -/
theorem verdict_error {password : Str} {data : Bytes} {e : Error}
    (h : verdict password data = .error e) : e.IsInvalidInput ∨ ∃ message, e = .runtime message := by
  -- the text, the three lines, and the derivation: only the last is not a complaint about the input
  rcases Op.except_bind_error h with h | ⟨text, -, h⟩
  · rw [SecurityManager.decodeText] at h
    split at h
    · cases h
    · exact Or.inl ⟨_, (Except.error.inj h).symm⟩
  rcases Op.except_bind_error h with h | ⟨pair, -, h⟩
  · exact Or.inl (parseVerifier_error h)
  rcases Op.except_bind_error h with h | ⟨actual, -, h⟩
  · rw [derive] at h
    split at h
    · cases h
    · exact Or.inr ⟨_, (Except.error.inj h).symm⟩
  · cases h

variable [Platform σ]

namespace SecurityManager

/-- The ways a call of `verify` can go: it is too early, the verifier cannot be got from storage, or there is a
    verdict. -/
inductive Outcome (password : Str) (s : System σ) : Except Error Unit → SecurityManager → Prop
  | early (hearly : (Platform.monotonicMillis s.vfs.platform).1 < s.security.blockedUntil) :
      Outcome password s
        (.error (.rateLimited
          (s.security.blockedUntil - (Platform.monotonicMillis s.vfs.platform).1))) s.security
  | unread (hlate : s.security.blockedUntil ≤ (Platform.monotonicMillis s.vfs.platform).1)
      {e : Error} {p : σ}
      (hread : Platform.storageRead securityFile (Platform.monotonicMillis s.vfs.platform).2 =
        (.error e, p)) :
      Outcome password s (.error e) s.security
  | judged (hlate : s.security.blockedUntil ≤ (Platform.monotonicMillis s.vfs.platform).1)
      {data : Bytes} {p : σ}
      (hread : Platform.storageRead securityFile (Platform.monotonicMillis s.vfs.platform).2 =
        (.ok data, p)) :
      Outcome password s
        (s.security.settle (Platform.monotonicMillis s.vfs.platform).1 (verdict password data)).1
        (s.security.settle (Platform.monotonicMillis s.vfs.platform).1 (verdict password data)).2

theorem verify_early (password : Str) {s : System σ}
    (hearly : (Platform.monotonicMillis s.vfs.platform).1 < s.security.blockedUntil) :
    (verify password s).1 = .error (.rateLimited
        (s.security.blockedUntil - (Platform.monotonicMillis s.vfs.platform).1)) ∧
      (verify password s).2.security = s.security := by
  rw [run_verify, if_pos hearly]
  exact ⟨rfl, rfl⟩

theorem verify_judged (password : Str) {s : System σ}
    (hlate : s.security.blockedUntil ≤ (Platform.monotonicMillis s.vfs.platform).1)
    {data : Bytes} {p : σ}
    (hread : Platform.storageRead securityFile (Platform.monotonicMillis s.vfs.platform).2 =
      (.ok data, p)) :
    (verify password s).1 =
        (s.security.settle (Platform.monotonicMillis s.vfs.platform).1 (verdict password data)).1 ∧
      (verify password s).2.security =
        (s.security.settle (Platform.monotonicMillis s.vfs.platform).1 (verdict password data)).2 := by
  rw [run_verify, if_neg (not_lt.mpr hlate), hread]
  dsimp only
  rw [run_judge]
  exact ⟨rfl, rfl⟩

/-- Every call of `verify` goes one of these ways. It is the one place where its body is opened up; all else is by
    cases on the outcome. -/
theorem verify_outcome (password : Str) (s : System σ) :
    Outcome password s (verify password s).1 (verify password s).2.security := by
  -- the deadline is looked at before the file is
  by_cases hearly : (Platform.monotonicMillis s.vfs.platform).1 < s.security.blockedUntil
  · rw [(verify_early password hearly).1, (verify_early password hearly).2]
    exact .early hearly
  · have hlate := not_lt.mp hearly
    cases hread : Platform.storageRead securityFile (Platform.monotonicMillis s.vfs.platform).2 with
    | mk r p =>
      cases r with
      | error e =>
        rw [run_verify, if_neg hearly, hread]
        exact .unread hlate hread
      | ok data =>
        rw [(verify_judged password hlate hread).1, (verify_judged password hlate hread).2]
        exact .judged hlate hread

end SecurityManager

end Verdict

end Afos
