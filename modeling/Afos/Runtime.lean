import Afos.Lib.Dialogue
import Afos.Rhai

/-!
# The script runtime

`crates/afos-runtime-rhai/src/lib.rs`. The engine is not part of the repository: to the runtime, evaluating a
source is a dialogue in which the engine calls what was registered with it and ends with a value or an error. What
is registered are callbacks without a context of their own, so the session they act on is passed to them through a
static slot, which `execute` fills before it starts the engine and empties when it is done.

Every callback turns its numbers into what the session expects, calls the session once, and turns the answer into
a value of the engine. Two write to the console and ignore what comes of it, and the engine asks a third, between
its operations, whether to go on. Errors are shown as they are before `rhai_error` puts them into text.
-/

set_option autoImplicit false

namespace Afos

open Lib

/-- What the engine and the callbacks exchange. The engine has more kinds of values; these are the ones that callbacks
    take and return and that a script can end with. -/
inductive Dynamic where
  | unit
  | bool (value : Bool)
  | int (value : Int)
  | text (value : Str)
  | array (items : List Dynamic)
  | map (fields : List (Str × Dynamic))

/-- The registered functions that make a call of the session, with the arguments the engine passes. The numbers
    are `INT`, 64 bits with a sign. -/
inductive Registered where
  | printRaw (text : Str)
  | readLine (prompt : Str)
  | fsRead (path : Str)
  | fsWrite (path text : Str)
  | fsList (path : Str)
  | fsMkdir (path : Str)
  | fsRemove (path : Str)
  | fsRename (source target : Str)
  | appdataRead (path : Str)
  | appdataWrite (path text : Str)
  | monotonicMillis
  | systemInfo
  | netStatus
  | netConnect (host : Str) (port : Int)
  | netSend (handle : Int) (text : Str)
  | netRecv (handle max : Int)
  | netClose (handle : Int)
  deriving DecidableEq

/-- Everything the engine calls: its three hooks, two functions that only look at the session, and those that make a
    call of it. -/
inductive Binding where
  | onPrint (text : Str)
  | onDebug (text : Str) (source : Option Str) (position : Str)
  | onProgress
  | args
  | cwd
  | registered (function : Registered)
  deriving DecidableEq

/-- A source under evaluation, as the runtime sees it: a dialogue that may go any way the engine likes. The result is
    a value, or the text of an error. -/
abbrev Evaluation := Dialogue Binding (Except Error Dynamic) (Except Str Dynamic)

/-- A number that the engine can take. Source name: `INT::try_from`. The upper half of 64 bits does not fit, and is an
    error and not a negative number. -/
def toInt (what : Str) (value : Nat) : Except Error Dynamic :=
  if value < 2 ^ 63 then .ok (.int value)
  else .error (.resourceLimit (what ++ " exceeds Rhai integer".toList))

/-- Source name: `u16::try_from(port)`, in the binding of `net_connect`. The test comes before the session is called,
    so a bad port does not lead to a question to the user. -/
def portFromInt (port : Int) : Except Error UInt16 :=
  if 0 ≤ port ∧ port < 2 ^ 16 then .ok (UInt16.ofNat port.toNat)
  else .error (.invalidInput "port is out of range".toList)

def optionalString : Option Str → Dynamic
  | none => .unit
  | some value => .text value

/-- The name of an entry, as `fs_list` shows it: directories have a slash behind them, which is all that a script
    learns about the kind of an entry. -/
def entryName (entry : StorageEntry) : Str := if entry.isDir then entry.name ++ ['/'] else entry.name

namespace Registered

/-- The call of the session that a function makes, or the error of its arguments. No function makes more than one, and
    none chooses its call by anything but its arguments. -/
def request : Registered → Except Error ApiCall
  | printRaw text => .ok (.consoleWrite text)
  | readLine prompt => .ok (.consoleReadLine prompt)
  | fsRead path => .ok (.readText path)
  | fsWrite path text => .ok (.writeText path text)
  | fsList path => .ok (.list path)
  | fsMkdir path => .ok (.createDirAll path)
  | fsRemove path => .ok (.remove path)
  | fsRename source target => .ok (.rename source target)
  | appdataRead path => .ok (.appdataRead path)
  | appdataWrite path text => .ok (.appdataWrite path text)
  | monotonicMillis => .ok .monotonicMillis
  | systemInfo => .ok .systemInfo
  | netStatus => .ok .netStatus
  | netConnect host port => .netConnect host <$> portFromInt port
  | netSend handle text => (fun handle => .netSend handle (asBytes text)) <$> netHandleFromInt handle
  | netRecv handle max => do
      let handle ← netHandleFromInt handle
      let max ← Rhai.receiveLength max
      pure (.netRecv handle max)
  | netClose handle => .netClose <$> netHandleFromInt handle

/-- What a number is called that is too large, in the text of the error. The last line is for `netSend`, the only
    other function that is answered with a number. -/
def numberName : Registered → Str
  | monotonicMillis => "clock value".toList
  | netConnect _ _ => "connection handle".toList
  | _ => "byte count".toList

/-- What a function makes of the session's answer. It is written for every kind of answer, though a function only ever
    gets the kind of its own call. -/
def answer (function : Registered) : ApiValue → Except Error Dynamic
  | .unit => .ok .unit
  | .text text => .ok (.text text)
  | .entries entries => .ok (.array (entries.map fun entry => .text (entryName entry)))
  | .number value => toInt function.numberName value
  | .info info => .ok (.map
      [("name".toList, .text info.name), ("version".toList, .text info.version),
       ("platform".toList, .text info.platform), ("architecture".toList, .text info.architecture)])
  | .net status => .ok (.map
      [("link_up".toList, .bool status.linkUp), ("mac".toList, .text status.mac),
       ("address".toList, optionalString status.address), ("gateway".toList, optionalString status.gateway)])
  | .bytes bytes => .ok (.text (fromUtf8Lossy bytes))
  | .flag value => .ok (.bool value)

end Registered

/-- The text that `on_debug` writes: where the script is, as the engine tells it, and what it says. -/
def debugLine (text : Str) (source : Option Str) (position : Str) : Str :=
  "[debug ".toList ++ source.getD "<script>".toList ++ ':' :: position ++ "] ".toList ++ text ++ "\n".toList

/-- What `on_progress` returns to break off. The engine stops on any value there, and this one ends up in its
    error. -/
def executionCancelled : Str := "execution cancelled".toList

/-- A session, and whether the slot points at it. Source name of the first field: `API_SLOT`. The slot is a static of
    the process, and this is the part of it that matters. -/
structure Hosted (σ : Type) where
  installed : Bool
  session : AppSession σ

namespace Hosted

variable {σ α : Type}

/-- Source name: `ApiGuard::install`. The slot takes one session at a time, so a script that is started from within
    another one is refused. -/
def install : Op Error (Hosted σ) Unit := fun h =>
  if h.installed then (.error (.runtime "nested Rhai execution is not supported".toList), h)
  else (.ok (), { h with installed := true })

/-- Source name: `ApiGuard::drop`. It runs however the evaluation ends, since the guard goes out of scope in any
    case. -/
def release (h : Hosted σ) : Hosted σ := { h with installed := false }

/-- An operation on the session in the slot. Callbacks are only ever called between `install` and `release`, and the
    error is for when they are not. -/
def withApi (operation : Op Error (AppSession σ) α) : Op Error (Hosted σ) α := fun h =>
  if h.installed then
    ((operation h.session).1, { h with session := (operation h.session).2 })
  else (.error (.runtime "missing AFOS API context".toList), h)

/-- An operation whose outcome is ignored: what it did stays done, and a failure to write to the console is not an
    error of the script. -/
def ignored (x : Op Error (Hosted σ) α) : Op Error (Hosted σ) Dynamic := fun h => (.ok .unit, (x h).2)

variable [Platform σ] [Argon2]

/-- Source name: the closures of `engine`. With no session to ask, a cancellation counts as none. -/
def callback (b : Binding) : Op Error (Hosted σ) Dynamic :=
  match b with
  | .onPrint text => ignored (withApi (do
      AppSession.consoleWrite text
      AppSession.consoleWrite "\n".toList))
  | .onDebug text source position => ignored (withApi (AppSession.consoleWrite (debugLine text source position)))
  | .onProgress => fun h =>
      match withApi AppSession.cancelled h with
      | (.ok true, h) => (.ok (.text executionCancelled), h)
      | (_, h) => (.ok .unit, h)
  | .args => (fun s => .array (s.args.map .text)) <$> withApi Op.read
  | .cwd => (fun s => .text s.cwd) <$> withApi Op.read
  | .registered function => do
      let request ← Op.ofExcept function.request
      let value ← withApi (AppSession.call request)
      Op.ofExcept (function.answer value)

/-- What an evaluation comes to as an exit status. A script without a value has succeeded; any other value than a
    number of 32 bits is an error, although the script has done its work by then. -/
def exitStatus : Except Str Dynamic → Except Error Int
  | .error message => .error (.runtime message)
  | .ok .unit => .ok 0
  | .ok (.int value) =>
      if -2 ^ 31 ≤ value ∧ value < 2 ^ 31 then .ok value
      else .error (.runtime "application must return an integer exit status".toList)
  | .ok _ => .error (.runtime "application must return an integer exit status".toList)

/-- `execute` of the runtime, for an engine that does `evaluation`. An execution that `install` refuses leaves the
    slot to whoever has it; any other one leaves it empty. -/
def execute (evaluation : Evaluation) : Op Error (Hosted σ) Int := do
  install
  fun h =>
    let (result, h) := evaluation.run (fun b h => callback b h) h
    (exitStatus result, h.release)

end Hosted

end Afos
