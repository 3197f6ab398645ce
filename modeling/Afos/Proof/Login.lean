import Afos.Lib.Hex
import Afos.Lib.Lines
import Afos.Machine
import Afos.Proof.StorageCalls
import Afos.Proof.Verdict

/-!
# The password that was set, and no other

Setting a password writes a verifier, and the verifier that was written accepts exactly the passwords
that hash to the same under its salt. What it takes for that is a round trip: sixteen and thirty-two
bytes through hexadecimal, three lines, text and bytes.

The other way round, whatever the file holds, it accepts nothing unless its first three lines are the
header, a salt and a hash. A file of another form is an error and leaves the failure counter alone. A
file of that form with another hash is the ordinary case of a wrong password, and does count.
-/

set_option autoImplicit false

namespace Afos

open Lib

/-! ## Digits and nibbles -/

theorem hexNibble_ascii {c : Char} (h : c.toNat < 128) :
    hexNibble (UInt8.ofNat c.toNat) = if isHexDigit c then .ok (hexValue c)
      else .error (.invalidInput "invalid hexadecimal value".toList) := by
  have hall : ∀ n : Fin 128, hexNibble (UInt8.ofNat (Char.ofNat n).toNat) =
      if isHexDigit (Char.ofNat n) then .ok (hexValue (Char.ofNat n))
      else .error (.invalidInput "invalid hexadecimal value".toList) := by
    decide +kernel
  have hc := hall ⟨c.toNat, h⟩
  rwa [Char.ofNat_toNat] at hc

theorem hexNibble_wide {b : UInt8} (h : 128 ≤ b.toNat) : ∃ e, hexNibble b = .error e := by
  have hb : ∀ n : UInt8, n.toNat < 128 → ¬ b ≤ n := fun n hn hle =>
    absurd (UInt8.le_iff_toNat_le.mp hle) (by omega)
  rw [hexNibble, if_neg fun h => hb 57 (by decide) h.2, if_neg fun h => hb 102 (by decide) h.2,
    if_neg fun h => hb 70 (by decide) h.2]
  exact ⟨_, rfl⟩

theorem hexValue_lt {c : Char} (hc : isHexDigit c = true) : (hexValue c).toNat < 16 := by
  have hall : ∀ n : Fin 128, isHexDigit (Char.ofNat n) = true → (hexValue (Char.ofNat n)).toNat < 16 := by
    decide +kernel
  have h := hall ⟨c.toNat, toNat_lt_of_isHexDigit hc⟩
  rw [Char.ofNat_toNat] at h
  exact h hc

theorem hexValue_shift {a b : Char} (ha : isHexDigit a = true) (hb : isHexDigit b = true) :
    hexValue a <<< 4 ||| hexValue b = hexValue a * 16 + hexValue b := by
  have hall : ∀ m n : Fin 16, UInt8.ofNat m <<< 4 ||| UInt8.ofNat n =
      UInt8.ofNat m * 16 + UInt8.ofNat n := by
    decide +kernel
  have h := hall ⟨(hexValue a).toNat, hexValue_lt ha⟩ ⟨(hexValue b).toNat, hexValue_lt hb⟩
  rwa [UInt8.ofNat_toNat, UInt8.ofNat_toNat] at h

theorem decodePairs_cons_iff {x y : UInt8} {rest bytes : Bytes} :
    decodePairs (x :: y :: rest) = .ok bytes ↔ ∃ high low more, hexNibble x = .ok high ∧
      hexNibble y = .ok low ∧ decodePairs rest = .ok more ∧ bytes = (high <<< 4 ||| low) :: more := by
  rw [decodePairs]
  constructor
  · intro h
    obtain ⟨high, hhigh, h⟩ := Op.except_bind_ok h
    obtain ⟨low, hlow, h⟩ := Op.except_bind_ok h
    obtain ⟨more, hmore, h⟩ := Op.except_bind_ok h
    exact ⟨high, low, more, hhigh, hlow, hmore, (Except.ok.inj h).symm⟩
  · rintro ⟨high, low, more, hhigh, hlow, hmore, rfl⟩
    rw [hhigh, hlow, hmore]
    rfl

theorem hexNibble_ascii_ok_iff {c : Char} (h : c.toNat < 128) {x : UInt8} :
    hexNibble (UInt8.ofNat c.toNat) = .ok x ↔ isHexDigit c = true ∧ x = hexValue c := by
  rw [hexNibble_ascii h]
  cases isHexDigit c with
  | true =>
    rw [if_pos rfl, Except.ok.injEq, and_iff_right rfl]
    exact eq_comm
  | false =>
    rw [if_neg Bool.false_ne_true]
    exact ⟨fun h => (by cases h), fun h => (by cases h.1)⟩

theorem hexNibble_wide_ne {b x : UInt8} (h : 128 ≤ b.toNat) : hexNibble b ≠ .ok x := by
  obtain ⟨e, he⟩ := hexNibble_wide h
  rw [he]
  exact fun h => (by cases h)

theorem not_isHexDigit_wide {c : Char} (h : ¬ c.toNat < 128) : isHexDigit c ≠ true :=
  fun hc => h (toNat_lt_of_isHexDigit hc)

/-- A character of several bytes is not a digit in either half of a pair, so lengths in bytes and in characters agree
    on what is accepted. -/
theorem decodePairs_wide_ne {c : Char} (hc : ¬ c.toNat < 128) (rest bytes : Bytes) :
    decodePairs (String.utf8EncodeChar c ++ rest) ≠ .ok bytes := by
  obtain ⟨x, x', more, hwide, hx⟩ := utf8EncodeChar_wide (not_lt.mp hc)
  rw [hwide, List.cons_append, List.cons_append, ne_eq, decodePairs_cons_iff]
  rintro ⟨high, -, -, hhigh, -⟩
  exact hexNibble_wide_ne hx hhigh

theorem decodePairs_cons_wide_ne {c : Char} (hc : ¬ c.toNat < 128) (first : UInt8) (rest bytes : Bytes) :
    decodePairs (first :: (String.utf8EncodeChar c ++ rest)) ≠ .ok bytes := by
  obtain ⟨x, x', more, hwide, hx⟩ := utf8EncodeChar_wide (not_lt.mp hc)
  rw [hwide, List.cons_append, List.cons_append, ne_eq, decodePairs_cons_iff]
  rintro ⟨-, low, -, -, hlow, -⟩
  exact hexNibble_wide_ne hx hlow

/-- The bytes of a text are pairs of digits exactly if its characters are. The length that is checked is that of the
    bytes, so a character of several bytes has to be excluded. -/
theorem decodePairs_ok_iff {value : Str} {bytes : Bytes} (heven : (asBytes value).length % 2 = 0) :
    decodePairs (asBytes value) = .ok bytes ↔
      (∀ c ∈ value, isHexDigit c = true) ∧ bytes = unhex value := by
  -- characters two by two, while `decodePairs` goes on byte by byte: the two stay in step as long as every
  -- character is one byte, and a character of more bytes ends both
  induction value using unhex.induct generalizing bytes with
  | case1 a b rest ih =>
    rw [List.forall_mem_cons, List.forall_mem_cons, unhex]
    rw [asBytes_cons] at heven ⊢
    by_cases ha : a.toNat < 128
    · rw [utf8EncodeChar_ascii ha, List.singleton_append] at heven ⊢
      rw [asBytes_cons] at heven ⊢
      by_cases hb : b.toNat < 128
      · rw [utf8EncodeChar_ascii hb, List.singleton_append] at heven ⊢
        have heven' : (asBytes rest).length % 2 = 0 := by
          rw [List.length_cons, List.length_cons] at heven
          omega
        rw [decodePairs_cons_iff]
        constructor
        · rintro ⟨high, low, more, hhigh, hlow, hmore, rfl⟩
          obtain ⟨hdigit, rfl⟩ := (hexNibble_ascii_ok_iff ha).mp hhigh
          obtain ⟨hdigit', rfl⟩ := (hexNibble_ascii_ok_iff hb).mp hlow
          obtain ⟨hrest, rfl⟩ := (ih heven').mp hmore
          exact ⟨⟨hdigit, hdigit', hrest⟩, by rw [hexValue_shift hdigit hdigit']⟩
        · rintro ⟨⟨hdigit, hdigit', hrest⟩, rfl⟩
          exact ⟨hexValue a, hexValue b, unhex rest, (hexNibble_ascii_ok_iff ha).mpr ⟨hdigit, rfl⟩,
            (hexNibble_ascii_ok_iff hb).mpr ⟨hdigit', rfl⟩, (ih heven').mpr ⟨hrest, rfl⟩,
            by rw [hexValue_shift hdigit hdigit']⟩
      · exact iff_of_false (decodePairs_cons_wide_ne hb _ _ _) fun h => not_isHexDigit_wide hb h.1.2.1
    · exact iff_of_false (decodePairs_wide_ne ha _ _) fun h => not_isHexDigit_wide ha h.1.1
  | case2 value hshort =>
    -- less than two characters: none, or one that is not two bytes
    cases value with
    | nil => exact ⟨fun h => ⟨fun c hc => (by cases hc), (Except.ok.inj h).symm⟩, fun h => by rw [h.2]; rfl⟩
    | cons c rest =>
      cases rest with
      | cons d rest => exact absurd rfl (hshort c d rest)
      | nil =>
        rw [asBytes_cons] at heven ⊢
        by_cases hc : c.toNat < 128
        · rw [utf8EncodeChar_ascii hc] at heven
          exact absurd (show 1 % 2 = 0 from heven) (by decide)
        · exact iff_of_false (decodePairs_wide_ne hc _ _) fun h =>
            not_isHexDigit_wide hc (h.1 c List.mem_cons_self)

/-- `decodeHex` reads digits of either case, and nothing else. What is written has digits of one case only. -/
theorem decodeHex_ok_iff {n : Nat} {value : Str} {bytes : Bytes} :
    decodeHex n value = .ok bytes ↔ IsHex (n * 2) value ∧ bytes = unhex value := by
  rw [decodeHex]
  by_cases hlen : (asBytes value).length ≠ n * 2
  · rw [if_pos hlen]
    exact ⟨fun h => (by cases h), fun h => absurd h.1.length_asBytes hlen⟩
  · rw [if_neg hlen, decodePairs_ok_iff (by rw [not_not.mp hlen]; omega)]
    refine ⟨fun h => ⟨⟨?_, h.1⟩, h.2⟩, fun h => ⟨h.1.2, h.2⟩⟩
    rw [← not_not.mp hlen, length_asBytes_ascii fun c hc => toNat_lt_of_isHexDigit (h.1 c hc)]

/-! ## What was written is read -/

theorem encodeHex_cons (b : UInt8) (bytes : Bytes) : encodeHex (b :: bytes) =
    hexDigits.getD (b >>> 4).toNat '0' :: hexDigits.getD (b &&& 0x0f).toNat '0' :: encodeHex bytes := rfl

theorem encodeHex_digits (b : UInt8) :
    isHexDigit (hexDigits.getD (b >>> 4).toNat '0') = true ∧
      isHexDigit (hexDigits.getD (b &&& 0x0f).toNat '0') = true ∧
      hexValue (hexDigits.getD (b >>> 4).toNat '0') * 16 +
        hexValue (hexDigits.getD (b &&& 0x0f).toNat '0') = b := by
  have hall : ∀ n : Fin 256, isHexDigit (hexDigits.getD (UInt8.ofNat n >>> 4).toNat '0') = true ∧
      isHexDigit (hexDigits.getD (UInt8.ofNat n &&& 0x0f).toNat '0') = true ∧
      hexValue (hexDigits.getD (UInt8.ofNat n >>> 4).toNat '0') * 16 +
        hexValue (hexDigits.getD (UInt8.ofNat n &&& 0x0f).toNat '0') = UInt8.ofNat n := by
    decide +kernel
  have hb := hall ⟨b.toNat, b.toNat_lt⟩
  rwa [UInt8.ofNat_toNat] at hb

theorem isHex_encodeHex (bytes : Bytes) : IsHex (bytes.length * 2) (encodeHex bytes) := by
  induction bytes with
  | nil => exact ⟨rfl, fun c hc => (by cases hc)⟩
  | cons b bytes ih =>
    obtain ⟨hhigh, hlow, -⟩ := encodeHex_digits b
    rw [encodeHex_cons]
    refine ⟨?_, List.forall_mem_cons.mpr ⟨hhigh, List.forall_mem_cons.mpr ⟨hlow, ih.2⟩⟩⟩
    rw [List.length_cons, List.length_cons, List.length_cons, ih.1]
    omega

theorem unhex_encodeHex (bytes : Bytes) : unhex (encodeHex bytes) = bytes := by
  induction bytes with
  | nil => rfl
  | cons b bytes ih => rw [encodeHex_cons, unhex, (encodeHex_digits b).2.2, ih]

/-- Digits are on one line, and the line has no carriage return at its end that reading would take away. -/
theorem encodeHex_line (bytes : Bytes) : '\n' ∉ encodeHex bytes ∧ stripCr (encodeHex bytes) = encodeHex bytes := by
  have hdigits := (isHex_encodeHex bytes).2
  refine ⟨fun h => absurd (hdigits _ h) (by decide), if_neg fun h => ?_⟩
  exact absurd (hdigits _ (List.mem_of_getLast? h)) (by decide)

/-- Three lines that are all ended, the first of them written together with its end. -/
theorem lines_ended {start newline first second third : Str} (hnewline : newline = ['\n'])
    (hstart : start = first ++ ['\n'])
    (hlines : ∀ line ∈ [first, second, third], '\n' ∉ line ∧ stripCr line = line) :
    lines (start ++ second ++ newline ++ third ++ newline) = [first, second, third] := by
  have htext : start ++ second ++ newline ++ third ++ newline =
      [first, second, third].flatMap (· ++ ['\n']) ++ [] := by
    rw [hstart, hnewline]
    simp
  rw [htext, lines_flatMap hlines, lines_nil, List.append_nil]

theorem lines_encodeVerifier (salt hash : Bytes) :
    lines (encodeVerifier salt hash) = ["AFOS-AUTH-1".toList, encodeHex salt, encodeHex hash] := by
  have hheader : '\n' ∉ "AFOS-AUTH-1".toList ∧ stripCr "AFOS-AUTH-1".toList = "AFOS-AUTH-1".toList := by
    decide +kernel
  have hlines : ∀ line ∈ ["AFOS-AUTH-1".toList, encodeHex salt, encodeHex hash],
      '\n' ∉ line ∧ stripCr line = line := by
    rw [List.forall_mem_cons, List.forall_mem_cons, List.forall_mem_singleton]
    exact ⟨hheader, encodeHex_line salt, encodeHex_line hash⟩
  have hnewline : "\n".toList = ['\n'] := rfl
  have hstart : "AFOS-AUTH-1\n".toList = "AFOS-AUTH-1".toList ++ ['\n'] := by decide +kernel
  exact lines_ended hnewline hstart hlines

/-! ## The form of a verifier -/

/-- The first three lines of a verifier: the header, sixteen bytes and thirty-two in hexadecimal. Whatever lines
    follow are not looked at. -/
def Describes (data : Bytes) (saltLine hashLine : Str) : Prop :=
  ∃ text rest, fromUtf8 data = some text ∧
    lines text = "AFOS-AUTH-1".toList :: saltLine :: hashLine :: rest ∧
    IsHex 32 saltLine ∧ IsHex 64 hashLine

/-- The verifier that was written has the form, with the digits of what was put in. -/
theorem describes_encodeVerifier {salt hash : Bytes} (hsalt : salt.length = saltLen)
    (hhash : hash.length = hashLen) :
    Describes (asBytes (encodeVerifier salt hash)) (encodeHex salt) (encodeHex hash) :=
  ⟨encodeVerifier salt hash, [], fromUtf8_asBytes _, lines_encodeVerifier salt hash,
    by rw [← show salt.length * 2 = 32 from by rw [hsalt]; rfl]; exact isHex_encodeHex salt,
    by rw [← show hash.length * 2 = 64 from by rw [hhash]; rfl]; exact isHex_encodeHex hash⟩

/-! ## Setting and verifying -/

section Login

variable {σ : Type} [Platform σ]

theorem Vfs.write_securityPath (data : Bytes) :
    (Vfs.write securityPath data : Op Error (Vfs σ) Unit) =
      Vfs.onPlatform (Platform.storageWrite securityFile data) :=
  Vfs.routed_of_routes routes_securityPath _ _

variable [Argon2]

/-- A password that was set: a verifier for it has been written, under the salt that was supplied,
    and the failures are forgotten. -/
theorem SecurityManager.setPassword_ok {password : Str} (hne : password ≠ []) {s s' : System σ}
    (h : setPassword password s = (.ok (), s')) :
    ∃ (salt : Vector UInt8 saltLen) (p₁ : σ) (hash : Bytes) (p₂ : σ),
      Platform.fillRandom saltLen s.vfs.platform = (.ok salt, p₁) ∧
      derive (asBytes password) salt.toList = .ok hash ∧
      Platform.storageWrite securityFile (asBytes (encodeVerifier salt.toList hash)) p₁ =
        (.ok (), p₂) ∧
      s' = { s.withPlatform p₂ with security := {} } := by
  -- salt, hash, the file, and then a new failure counter
  rw [setPassword, if_neg hne] at h
  obtain ⟨salt, s₁, hsalt, h⟩ := Op.bind_ok h
  obtain ⟨hash, s₂, hhash, h⟩ := Op.bind_ok h
  obtain ⟨⟨⟩, s₃, hwrite, h⟩ := Op.bind_ok h
  obtain ⟨hsupplied, rfl⟩ := Prod.mk.inj hsalt
  obtain ⟨hderived, rfl⟩ := Prod.mk.inj hhash
  rw [Vfs.write_securityPath] at hwrite
  obtain ⟨hwritten, rfl⟩ := Prod.mk.inj hwrite
  cases h
  exact ⟨salt, _, hash, _, Prod.ext hsupplied rfl, hderived, Prod.ext hwritten rfl, rfl⟩

theorem length_of_derive {password salt hash : Bytes} (h : derive password salt = .ok hash) :
    hash.length = hashLen := by
  rw [derive] at h
  split at h
  · rename_i found hfound
    cases h
    exact Argon2.length_hashPassword hfound
  · cases h

/-- The storage gives back what was written to the verifier file, with a look at the clock in between. It is what
    `verify` does after `setPassword`. -/
def ReadsBack (σ : Type) [Platform σ] : Prop :=
  ∀ (data : Bytes) (p p' : σ), Platform.storageWrite securityFile data p = (.ok (), p') →
    ∃ p'', Platform.storageRead securityFile (Platform.monotonicMillis p').2 = (.ok data, p'')

/-- A verifier that has the form accepts or refuses by the hash, and by nothing else. -/
theorem verdict_of_describes {password saltLine hashLine : Str} {data actual : Bytes}
    (h : Describes data saltLine hashLine)
    (hactual : derive (asBytes password) (unhex saltLine) = .ok actual) :
    verdict password data = .ok (decide (actual = unhex hashLine)) := by
  obtain ⟨text, rest, htext, hlines, hsalt, hhash⟩ := h
  have hdecode : SecurityManager.decodeText data = .ok text := by
    rw [SecurityManager.decodeText, htext]
  have hparse : parseVerifier text = .ok (unhex saltLine, unhex hashLine) :=
    parseVerifier_ok_iff.mpr ⟨saltLine, hashLine, rest, hlines, decodeHex_ok_iff.mpr ⟨hsalt, rfl⟩,
      decodeHex_ok_iff.mpr ⟨hhash, rfl⟩⟩
  simp only [verdict, hdecode, hparse, hactual, bind, Except.bind]

/-- A verifier that has not the form says nothing: neither that the password is right nor that it is wrong. -/
theorem verdict_of_not_describes {password : Str} {data : Bytes}
    (h : ∀ saltLine hashLine, ¬ Describes data saltLine hashLine) :
    ∃ e, verdict password data = .error e := by
  cases hverdict : verdict password data with
  | error e => exact ⟨e, rfl⟩
  | ok accepted =>
    obtain ⟨text, htext, hrest⟩ := Op.except_bind_ok hverdict
    obtain ⟨⟨salt, hash⟩, hparse, -⟩ := Op.except_bind_ok hrest
    obtain ⟨saltLine, hashLine, rest, hlines, hsalt, hhash⟩ := parseVerifier_ok_iff.mp hparse
    -- a verdict needs text, and text that parses
    have hutf8 : fromUtf8 data = some text := by
      rw [SecurityManager.decodeText] at htext
      split at htext
      · rename_i found hfound
        rw [hfound, Except.ok.inj htext]
      · cases htext
    exact absurd ⟨text, rest, hutf8, hlines, (decodeHex_ok_iff.mp hsalt).1, (decodeHex_ok_iff.mp hhash).1⟩
      (h saltLine hashLine)

/-- **The verifier is correct.** With a hash that always answers and a storage that gives back what was
    written: a password that was set is accepted together with those of the same hash, and all others
    are refused; and whatever the file holds, it accepts only by its three lines. A file without them is
    an error that leaves the failure counter and the deadline alone; one that has them, for another hash,
    is a failure that counts. -/
theorem SecurityManager.verifier_correct
    (htotal : ∀ password salt, ∃ hash, derive password salt = .ok hash) (hstore : ReadsBack σ) :
    (∀ (s s' : System σ) (password : Str) (salt : Vector UInt8 saltLen) (p : σ), password ≠ [] →
      Platform.fillRandom saltLen s.vfs.platform = (.ok salt, p) →
      setPassword password s = (.ok (), s') → ∀ q,
      ((verify q s').1 = .ok () ↔
          derive (asBytes q) salt.toList = derive (asBytes password) salt.toList) ∧
        (derive (asBytes q) salt.toList ≠ derive (asBytes password) salt.toList →
          (verify q s').1 = .error .authenticationFailed)) ∧
    ∀ (s : System σ) (q : Str) (data : Bytes) (p : σ),
      Platform.storageRead securityFile (Platform.monotonicMillis s.vfs.platform).2 = (.ok data, p) →
      ((verify q s).1 = .ok () → ∃ saltLine hashLine, Describes data saltLine hashLine ∧
          derive (asBytes q) (unhex saltLine) = .ok (unhex hashLine)) ∧
        ((∀ saltLine hashLine, ¬ Describes data saltLine hashLine) →
          ∃ e, (verify q s).1 = .error e ∧ (verify q s).2.security = s.security) ∧
        ∀ saltLine hashLine, Describes data saltLine hashLine →
          derive (asBytes q) (unhex saltLine) ≠ .ok (unhex hashLine) →
          s.security.blockedUntil ≤ (Platform.monotonicMillis s.vfs.platform).1 →
          (verify q s).1 = .error .authenticationFailed ∧
            (verify q s).2.security =
              s.security.recordFailure (Platform.monotonicMillis s.vfs.platform).1 := by
  constructor
  · intro s s' password salt p hne hrandom hset q
    obtain ⟨salt', p₁, hash, p₂, hsalt, hhash, hwrite, rfl⟩ := setPassword_ok hne hset
    obtain rfl : salt' = salt := by
      rw [hrandom] at hsalt
      exact (Except.ok.inj (Prod.mk.inj hsalt).1).symm
    -- the file gives back what was written, after the clock has been looked at
    obtain ⟨p₃, hread⟩ := hstore _ _ _ hwrite
    obtain ⟨actual, hactual⟩ := htotal (asBytes q) salt'.toList
    have hform := describes_encodeVerifier salt'.length_toList (length_of_derive hhash)
    have hverdict : verdict q (asBytes (encodeVerifier salt'.toList hash)) =
        .ok (decide (actual = hash)) := by
      have h : verdict q (asBytes (encodeVerifier salt'.toList hash)) =
          .ok (decide (actual = unhex (encodeHex hash))) :=
        verdict_of_describes hform (by rw [unhex_encodeHex, hactual])
      rwa [unhex_encodeHex] at h
    have hverify := (verify_judged q
      (s := { s.withPlatform p₂ with security := {} }) (Nat.zero_le _) hread).1
    rw [hverify, hverdict, hactual, hhash, settle_ok_iff, ne_eq, Except.ok.injEq, Except.ok.injEq,
      decide_eq_true_iff]
    refine ⟨Iff.rfl, fun hne => ?_⟩
    rw [decide_eq_false hne]
    rfl
  · intro s q data p hread
    refine ⟨fun hok => ?_, fun hform => ?_, fun saltLine hashLine hform hother hlate => ?_⟩
    · -- too early an attempt is never accepted
      have hlate : s.security.blockedUntil ≤ (Platform.monotonicMillis s.vfs.platform).1 := by
        refine not_lt.mp fun hearly => ?_
        rw [(verify_early q hearly).1] at hok
        cases hok
      rw [(verify_judged q hlate hread).1, settle_ok_iff] at hok
      by_cases hform : ∃ saltLine hashLine, Describes data saltLine hashLine
      · obtain ⟨saltLine, hashLine, hform⟩ := hform
        obtain ⟨actual, hactual⟩ := htotal (asBytes q) (unhex saltLine)
        rw [verdict_of_describes hform hactual, Except.ok.injEq, decide_eq_true_iff] at hok
        exact ⟨saltLine, hashLine, hform, by rw [hactual, hok]⟩
      · obtain ⟨e, he⟩ : ∃ e, verdict q data = .error e :=
          verdict_of_not_describes fun saltLine hashLine h => hform ⟨saltLine, hashLine, h⟩
        rw [he] at hok
        cases hok
    · obtain ⟨e, he⟩ : ∃ e, verdict q data = .error e := verdict_of_not_describes hform
      -- it may be too early, and then the file is not looked at, or there is no verdict
      by_cases hearly : (Platform.monotonicMillis s.vfs.platform).1 < s.security.blockedUntil
      · exact ⟨_, verify_early q hearly⟩
      · have hjudged := verify_judged q (not_lt.mp hearly) hread
        rw [he] at hjudged
        exact ⟨e, hjudged⟩
    · obtain ⟨actual, hactual⟩ := htotal (asBytes q) (unhex saltLine)
      have hne : actual ≠ unhex hashLine := fun h => hother (by rw [hactual, h])
      have hjudged := verify_judged q hlate hread
      rw [verdict_of_describes hform hactual, decide_eq_false hne] at hjudged
      exact hjudged

end Login

/-! ## On bare metal -/

section OnBareMetal

variable {D η : Type} [BlockDevice D]

/-- A file that was written is there, under a name that is none of the directories on the way. On any tree,
    well-formed or not. -/
theorem BareMetalPlatform.lookup_of_storageWrite {path : Str} {data : Bytes}
    (hpath : path ∉ FileTree.walk (names (parent path)) []) {p p' : BareMetalPlatform D η}
    (h : storageWrite path data p = (.ok (), p')) :
    p'.tree.directories.contains path = false ∧ p'.tree.files.lookup path = some data := by
  rw [storageWrite, Op.run_bind_ok (Op.run_read p)] at h
  by_cases hdir : p.tree.directories.contains path = true
  · rw [if_pos hdir] at h
    cases h
  rw [if_neg hdir, Op.run_bind, run_onTree] at h
  rcases FileTree.addParentsFrom_cases (names (parent path)) [] p.tree with
    ⟨hadd, -⟩ | ⟨l, q, r, -, -, hadd⟩
  · rw [FileTree.addParents, hadd] at h
    obtain ⟨r, q, hrun, ⟨-, htree⟩ | ⟨⟨e, rfl⟩, -⟩⟩ := modify_commit_cases
      (fun tree => tree.insertFile path data) p.tree
      { p with tree := p.tree.insertDirs (FileTree.walk (names (parent path)) []) }
    · obtain ⟨-, rfl⟩ := Prod.mk.inj (hrun.symm.trans h)
      rw [htree]
      refine ⟨Bool.eq_false_iff.mpr fun hin => ?_, by simp [FileTree.insertFile]⟩
      -- the path is no directory: it was none before, and it is none of those that were made
      rcases FileTree.contains_insertDirs.mp hin with hin | hin
      · exact hdir hin
      · exact hpath hin
    · cases hrun.symm.trans h
  · rw [FileTree.addParents, hadd] at h
    cases h

theorem readsBack_bareMetal [Hardware η] : ReadsBack (BareMetalPlatform D η) := by
  intro data p p' h
  obtain ⟨hdir, hfile⟩ := BareMetalPlatform.lookup_of_storageWrite (by decide +kernel) h
  have hread : BareMetalPlatform.storageRead securityFile (BareMetalPlatform.monotonicMillis p').2 =
      (.ok data, (BareMetalPlatform.monotonicMillis p').2) := by
    have hdir' : (BareMetalPlatform.monotonicMillis p').2.tree.directories.contains securityFile = false := hdir
    have hfile' : (BareMetalPlatform.monotonicMillis p').2.tree.files.lookup securityFile = some data := hfile
    rw [BareMetalPlatform.storageRead, hdir', hfile']
    rfl
  exact ⟨_, hread⟩

end OnBareMetal

section Owner

attribute [local instance] lengthArgon2

/-- A system whose security file holds these bytes, on a machine without a disk and with nobody at its keyboard. -/
def secured (data : Bytes) : System (BareMetalPlatform NoDisk Keyboard) :=
  System.new (diskless (FileTree.empty.insertFile securityFile data) [])

/-- The verifier of a password of five characters, under the stand-in for the hash that looks at the length. -/
def fiveLetters : Bytes := asBytes (encodeVerifier (List.replicate 16 0) (List.replicate 32 5))

/-- A verifier that stops after the header, which is present and cannot be parsed. -/
def headerOnly : Bytes := asBytes "AFOS-AUTH-1".toList

/-- A machine without a password: there is no verifier, and every attempt fails on reading it. -/
def ownerless : System (BareMetalPlatform NoDisk Keyboard) := System.new (diskless FileTree.empty [])

/-- What the entropy of the keyboard machine supplies. -/
def zeroSalt : Vector UInt8 saltLen := Vector.replicate saltLen 0

namespace SecurityManager

/-- Content of the right form, for another password than the one that is tried: the failure counter
    goes up. -/
theorem other_verifier_counts :
    (Platform.storageRead securityFile
        (Platform.monotonicMillis (secured fiveLetters).vfs.platform).2).1 = .ok fiveLetters ∧
      (¬ ∃ saltLine hashLine, Describes fiveLetters saltLine hashLine ∧
        derive (asBytes "other guess".toList) (unhex saltLine) = .ok (unhex hashLine)) ∧
      (secured fiveLetters).security.failedAttempts = 0 ∧
      (verify "other guess".toList (secured fiveLetters)).1 = .error .authenticationFailed ∧
      (verify "other guess".toList (secured fiveLetters)).2.security.failedAttempts = 1 := by
  refine ⟨by decide +kernel, ?_, by decide +kernel, by decide +kernel, by decide +kernel⟩
  rintro ⟨saltLine, hashLine, hform, hhash⟩
  have hrefused : verdict "other guess".toList fiveLetters ≠ .ok true := by decide +kernel
  exact hrefused ((verdict_of_describes hform hhash).trans (congrArg Except.ok (decide_eq_true rfl)))

/-- The owner sets a password on a machine that has none: it is accepted, with every other of the same
    hash; and a verifier that stops after the header is an error that does not count. -/
theorem owner_logs_in :
    (∀ q, ((verify q (setPassword "owner".toList ownerless).2).1 = .ok () ↔
          derive (asBytes q) zeroSalt.toList = derive (asBytes "owner".toList) zeroSalt.toList) ∧
        (derive (asBytes q) zeroSalt.toList ≠ derive (asBytes "owner".toList) zeroSalt.toList →
          (verify q (setPassword "owner".toList ownerless).2).1 = .error .authenticationFailed)) ∧
      ∃ e, (verify "owner".toList (secured headerOnly)).1 = .error e ∧
        (verify "owner".toList (secured headerOnly)).2.security = (secured headerOnly).security := by
  have hset : (setPassword "owner".toList ownerless).1 = .ok () := by decide +kernel
  have hsalt : Platform.fillRandom saltLen ownerless.vfs.platform =
      (.ok zeroSalt, ownerless.vfs.platform) := rfl
  have hread : (Platform.storageRead securityFile
      (Platform.monotonicMillis (secured headerOnly).vfs.platform).2).1 = .ok headerOnly := by
    decide +kernel
  have hform : ∀ saltLine hashLine, ¬ Describes headerOnly saltLine hashLine := by
    have hunread : ∀ accepted, verdict [] headerOnly ≠ .ok accepted := by decide +kernel
    exact fun saltLine hashLine h => hunread _ (verdict_of_describes h rfl)
  have hcorrect := verifier_correct (fun password salt => ⟨_, rfl⟩)
    (readsBack_bareMetal (D := NoDisk) (η := Keyboard))
  constructor
  · cases hrun : setPassword "owner".toList ownerless with
    | mk r s =>
      rw [hrun] at hset
      obtain rfl := hset
      exact hcorrect.1 _ _ _ zeroSalt _ (List.cons_ne_nil _ _) hsalt hrun
  · cases hrun : Platform.storageRead securityFile
        (Platform.monotonicMillis (secured headerOnly).vfs.platform).2 with
    | mk r p =>
      rw [hrun] at hread
      obtain rfl := hread
      exact (hcorrect.2 _ "owner".toList headerOnly _ hrun).2.1 hform

end SecurityManager

end Owner

end Afos
