import Afos.Lib.Lossy
import Afos.Session

/-!
# Receiving text in a script

`crates/afos-runtime-rhai/src/lib.rs`, the binding of `net_recv`. A script has signed numbers and text, no
bytes: the handle and the length come as numbers that may be negative, and what was received is decoded on
the spot, each call for itself. Errors are shown as they are before `rhai_error` puts them into text.
-/

set_option autoImplicit false

namespace Afos

open Lib

/-- A handle of a script, as the session takes it. One that is not negative may still be one that the session does not
    own. -/
def netHandleFromInt (handle : Int) : Except Error Nat :=
  if handle < 0 then .error (.invalidInput "invalid connection handle".toList) else .ok handle.toNat

namespace Rhai

variable {σ : Type} [Platform σ]

/-- Source name: `usize::try_from(max)`, in the binding of `net_recv`. There is no upper limit here; the buffer is
    made by the session. -/
def receiveLength (max : Int) : Except Error Nat :=
  if max < 0 then .error (.invalidInput "invalid receive length".toList) else .ok max.toNat

/-- The binding of `net_recv`. Bytes that are no text become replacement characters, and a character that is cut in
    two by the end of a buffer is lost in both halves. -/
def netRecv (handle max : Int) : Op Error (AppSession σ) Str := do
  let handle ← Op.ofExcept (netHandleFromInt handle)
  let max ← Op.ofExcept (receiveLength max)
  let bytes ← AppSession.netRecv handle max
  pure (fromUtf8Lossy bytes)

/-- The texts that successive calls return, one call for each length. The first error ends it, as it ends a script
    that does not catch it. -/
def recvEach (handle : Int) : List Int → Op Error (AppSession σ) (List Str)
  | [] => pure []
  | max :: rest => do
      let text ← netRecv handle max
      let texts ← recvEach handle rest
      pure (text :: texts)

end Rhai

namespace AppSession

variable {σ : Type} [Platform σ]

/-- The bytes that successive calls of the session return, one call for each length: what the texts above are decoded
    from, piece by piece. -/
def recvEach (handle : Nat) : List Nat → Op Error (AppSession σ) (List Bytes)
  | [] => pure []
  | max :: rest => do
      let chunk ← netRecv handle max
      let chunks ← recvEach handle rest
      pure (chunk :: chunks)

end AppSession

end Afos
