import Afos.Api

/-!
# A platform that keeps a record

`Recorded σ` is a backend `σ` together with the list of calls made to it, each with what it
was asked and what it answered. It is itself a `Platform`, built from any other one, so a
program modelled over `[Platform σ]` can be run over `Recorded σ` unchanged and its effects
read off afterwards. Nothing in the program can see the record.

An effect is thus an `Event`, and "the program touches storage only inside this subtree" is a
statement about the events a call appends (`Emits`).
-/

set_option autoImplicit false

namespace Afos

open Lib

/-- One platform call and its answer. Buffers are recorded as what is in them after the call, together with their
    length. -/
inductive Event where
  | consoleWrite (text : Str) (result : Except Error Unit)
  | consoleReadLine (prompt : Str) (secret : Bool) (result : Except Error Str)
  | consoleClear (result : Except Error Unit)
  | storageRead (path : Str) (result : Except Error Bytes)
  | storageWrite (path : Str) (data : Bytes) (result : Except Error Unit)
  | storageList (path : Str) (result : Except Error (List StorageEntry))
  | storageCreateDirAll (path : Str) (result : Except Error Unit)
  | storageRemove (path : Str) (result : Except Error Unit)
  | storageRename (source target : Str) (result : Except Error Unit)
  | storageExists (path : Str) (result : Except Error Bool)
  | monotonicMillis (result : Nat)
  | fillRandom (n : Nat) (result : Except Error Bytes)
  | systemInfo (result : SystemInfo)
  | pollCancel (result : Bool)
  | netStatus (result : Except Error NetStatus)
  | netConnect (host : Str) (port : UInt16) (result : Except Error Nat)
  | netSend (handle : Nat) (data : Bytes) (result : Except Error Nat)
  | netRecv (handle max : Nat) (result : Except Error (Nat × Bytes))
  | netClose (handle : Nat) (result : Except Error Unit)

/-- A backend, and the calls that were made to it, the oldest first. The record only ever grows, at its end. -/
structure Recorded (σ : Type) where
  inner : σ
  log : List Event

namespace Recorded

variable {σ α : Type}

/-- Make a call and record it. The backend's own answer and state are passed on as they are, so a program runs over
    `Recorded σ` as it does over `σ`. -/
def call (x : Op Error σ α) (event : Except Error α → Event) : Op Error (Recorded σ) α := fun w =>
  ((x w.inner).1, ⟨(x w.inner).2, w.log ++ [event (x w.inner).1]⟩)

/-- Make a call that cannot fail and record it, for the clock, the description of the system and the probe for a
    cancellation. -/
def ask (f : σ → α × σ) (event : α → Event) : Recorded σ → α × Recorded σ := fun w =>
  ((f w.inner).1, ⟨(f w.inner).2, w.log ++ [event (f w.inner).1]⟩)

open Platform in
instance [Platform σ] : Platform (Recorded σ) where
  consoleWrite text := call (consoleWrite text) (.consoleWrite text)
  consoleReadLine prompt secret := call (consoleReadLine prompt secret) (.consoleReadLine prompt secret)
  consoleClear := call consoleClear .consoleClear
  storageRead path := call (storageRead path) (.storageRead path)
  storageWrite path data := call (storageWrite path data) (.storageWrite path data)
  storageList path := call (storageList path) (.storageList path)
  storageCreateDirAll path := call (storageCreateDirAll path) (.storageCreateDirAll path)
  storageRemove path := call (storageRemove path) (.storageRemove path)
  storageRename source target := call (storageRename source target) (.storageRename source target)
  storageExists path := call (storageExists path) (.storageExists path)
  monotonicMillis := ask monotonicMillis .monotonicMillis
  fillRandom n := call (fillRandom n) fun r => .fillRandom n (r.map Vector.toList)
  systemInfo := ask systemInfo .systemInfo
  pollCancel := ask pollCancel .pollCancel
  netStatus := call netStatus .netStatus
  netConnect host port := call (netConnect host port) (.netConnect host port)
  netSend handle data := call (netSend handle data) (.netSend handle data)
  netRecv handle max := call (netRecv handle max) fun r =>
    .netRecv handle max (r.map fun p => (p.1, p.2.toList))
  netClose handle := call (netClose handle) (.netClose handle)

end Recorded

end Afos
