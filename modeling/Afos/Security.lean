import Afos.Vfs

/-!
# The master password

`crates/afos-core/src/security.rs`. The verifier file holds a salt and a hash in hexadecimal;
`verify` hashes the offered password under the stored salt and compares. Failures are counted,
and from the third on each one closes the door for a while.

The hash function is the `argon2` crate's, which is not part of the repository. `Argon2`
stands for it: a function of password and salt that answers 32 bytes or an error message.
-/

set_option autoImplicit false

namespace Afos

open Lib

/-- Argon2id with the parameters `derive` fixes, as a function of password and salt. No property of a hash is assumed
    but the length of its output, which the source fixes with an array type. -/
class Argon2 where
  hashPassword (password salt : Bytes) : Except Str Bytes
  length_hashPassword : ∀ {password salt hash : Bytes},
    hashPassword password salt = .ok hash → hash.length = 32

def securityPath : Str := "/user/config/security".toList

def saltLen : Nat := 16

def hashLen : Nat := 32

/-- The failure counter (32 bits) and the time before which no attempt is looked at. Both are in memory only: a
    restart forgets them, and the verifier file says nothing about them. -/
structure SecurityManager where
  failedAttempts : Nat := 0
  blockedUntil : Nat := 0
  deriving DecidableEq

/-- The filesystem and the state of the password check. There is one of these for a run of the shell, lent to each
    application's session in turn. -/
structure System (σ : Type) where
  vfs : Vfs σ
  security : SecurityManager

namespace System

variable {σ α : Type}

def onVfs (x : Op Error (Vfs σ) α) : Op Error (System σ) α :=
  Op.zoom vfs (fun v s => { s with vfs := v }) x

def onPlatform (x : Op Error σ α) : Op Error (System σ) α := onVfs (Vfs.onPlatform x)

end System

/-- The hash of a password under a salt. An error of the library is passed on with its name in front, as a runtime
    error. -/
def derive [Argon2] (password salt : Bytes) : Except Error Bytes :=
  match Argon2.hashPassword password salt with
  | .ok hash => .ok hash
  | .error error => .error (.runtime ("Argon2: ".toList ++ error))

def hexDigits : Str := "0123456789abcdef".toList

def encodeHex (bytes : Bytes) : Str :=
  bytes.flatMap fun (byte : UInt8) =>
    [hexDigits.getD (byte >>> 4).toNat '0', hexDigits.getD (byte &&& 0x0f).toNat '0']

/-- Digits of either case are read, although `encodeHex` writes the small ones only. -/
def hexNibble (value : UInt8) : Except Error UInt8 :=
  if 48 ≤ value ∧ value ≤ 57 then .ok (value - 48)
  else if 97 ≤ value ∧ value ≤ 102 then .ok (value - 97 + 10)
  else if 65 ≤ value ∧ value ≤ 70 then .ok (value - 65 + 10)
  else .error (.invalidInput "invalid hexadecimal value".toList)

/-- The bytes that pairs of digits stand for. The first digit that is none is an error, and a digit left over at the
    end is not looked at: `decodeHex` has tested the length before. -/
def decodePairs : Bytes → Except Error Bytes
  | high :: low :: rest => do
      let high ← hexNibble high
      let low ← hexNibble low
      let bytes ← decodePairs rest
      .ok ((high <<< 4 ||| low) :: bytes)
  | _ => .ok []

def decodeHex (n : Nat) (value : Str) : Except Error Bytes :=
  if (asBytes value).length ≠ n * 2 then
    .error (.invalidInput "invalid hexadecimal length".toList)
  else decodePairs (asBytes value)

/-- The text of a verifier file: a line that names the format, the salt, and the hash, each with a line end after
    it. -/
def encodeVerifier (salt hash : Bytes) : Str :=
  "AFOS-AUTH-1\n".toList ++ encodeHex salt ++ "\n".toList ++ encodeHex hash ++ "\n".toList

/-- The salt and the hash of a verifier file, read line by line. Lines after the third are ignored, and the salt is
    decoded before a missing hash is noticed, as the errors show. -/
def parseVerifier (encoded : Str) : Except Error (Bytes × Bytes) :=
  match lines encoded with
  | header :: rest =>
      if header ≠ "AFOS-AUTH-1".toList then
        .error (.invalidInput "invalid security configuration".toList)
      else match rest with
        | [] => .error (.invalidInput "missing password salt".toList)
        | salt :: rest => do
            let salt ← decodeHex saltLen salt
            match rest with
            | [] => .error (.invalidInput "missing password verifier".toList)
            | hash :: _ => do
                let expected ← decodeHex hashLen hash
                .ok (salt, expected)
  | [] => .error (.invalidInput "invalid security configuration".toList)

namespace SecurityManager

/-- The manager after one more failure at time `now`: both additions saturate. The delay starts with the third
    failure, at one second, and doubles up to 32 seconds. -/
def recordFailure (security : SecurityManager) (now : Nat) : SecurityManager :=
  let failed := min (security.failedAttempts + 1) (2 ^ 32 - 1)
  { failedAttempts := failed
    blockedUntil :=
      if 3 ≤ failed then min (now + 1000 * 2 ^ min (failed - 3) 5) (2 ^ 64 - 1)
      else security.blockedUntil }

variable {σ : Type} [Platform σ]

def hasPassword : Op Error (System σ) Bool := System.onVfs (Vfs.existsAt securityPath)

/-- Forget the failures, as a correct password and a new one both do. The counter and the time go together: there is
    no delay left over from failures that are no longer counted. -/
def reset : Op Error (System σ) Unit := Op.modify fun s => { s with security := {} }

variable [Argon2]

/-- An empty password removes the verifier, and any other one replaces it, with a fresh salt. The counter is reset
    only after the file has been written or removed. -/
def setPassword (password : Str) : Op Error (System σ) Unit :=
  if password = [] then do
    let present ← System.onVfs (Vfs.existsAt securityPath)
    if present then System.onVfs (Vfs.remove securityPath) else pure ()
    reset
  else do
    let salt ← System.onPlatform (Platform.fillRandom saltLen)
    let hash ← Op.ofExcept (derive (asBytes password) salt.toList)
    System.onVfs (Vfs.write securityPath (asBytes (encodeVerifier salt.toList hash)))
    reset

/-- One attempt. A closed door is tested first, before the verifier is read; a verifier that cannot be read or parsed
    is an error that is not counted as a failure. -/
def verify (password : Str) : Op Error (System σ) Unit := do
  let now ← System.onPlatform (Op.ofState Platform.monotonicMillis)
  let s ← Op.read
  if now < s.security.blockedUntil then Op.throw (.rateLimited (s.security.blockedUntil - now))
  else do
    let encoded ← System.onVfs (Vfs.readText securityPath)
    let (salt, expected) ← Op.ofExcept (parseVerifier encoded)
    let actual ← Op.ofExcept (derive (asBytes password) salt)
    if actual = expected then reset
    else do
      Op.modify fun s => { s with security := s.security.recordFailure now }
      Op.throw .authenticationFailed

end SecurityManager

end Afos
