import Afos.Lib.Op
import Afos.Lib.Text

/-!
# The public contracts

`crates/afos-api/src/lib.rs`: the error type, the records that cross the boundary, the
`Platform` trait as a class over the backend's state, and the calls of `SystemApi` as data.

A platform is *any* instance of the class. Every method may answer what it likes and leave
the backend in any state, so a result stated for `[Platform σ]` is a result about every
backend and every console input. The clock, the system description and the cancellation
probe cannot fail; they still thread the state, because two readings of a clock differ.

`SystemApi` is the other side: `ApiCall` lists what an application can ask for, and a script
is a finite tree of such calls (`Script`), each continuation choosing the next call by the
answer to the last. That is all an interpreter adapter may do with the interface it is given.
-/

set_option autoImplicit false

namespace Afos

open Lib

/-- The errors of the whole system, variant by variant as the source lists them. What a caller can see of a failure is
    one of these and its text; `Error.display` is the only place where the two meet. -/
inductive Error where
  | invalidPath
  | notFound (path : Str)
  | alreadyExists (path : Str)
  | notDirectory (path : Str)
  | isDirectory (path : Str)
  | readOnly (path : Str)
  | permissionDenied (message : Str)
  | capabilityNotDeclared (capability : Str)
  | authenticationFailed
  | authenticationRequired
  | rateLimited (milliseconds : Nat)
  | invalidInput (message : Str)
  | unsupported (message : Str)
  | resourceLimit (message : Str)
  | runtime (message : Str)
  | io (message : Str)
  deriving DecidableEq

/-- `Display` for `Error`, with the texts of the source: what the embedding program prints when the shell ends with an
    error, and what a script is given of a call that failed. -/
def Error.display : Error → Str
  | .invalidPath => "invalid path".toList
  | .notFound path => "not found: ".toList ++ path
  | .alreadyExists path => "already exists: ".toList ++ path
  | .notDirectory path => "not a directory: ".toList ++ path
  | .isDirectory path => "is a directory: ".toList ++ path
  | .readOnly path => "read-only path: ".toList ++ path
  | .permissionDenied message => "permission denied: ".toList ++ message
  | .capabilityNotDeclared capability => "capability not declared: ".toList ++ capability
  | .authenticationFailed => "authentication failed".toList
  | .authenticationRequired => "authentication required".toList
  | .rateLimited milliseconds => "authentication rate limited for ".toList ++ natToStr milliseconds ++ " ms".toList
  | .invalidInput message => "invalid input: ".toList ++ message
  | .unsupported message => "unsupported: ".toList ++ message
  | .resourceLimit message => "resource limit: ".toList ++ message
  | .runtime message => "runtime error: ".toList ++ message
  | .io message => "I/O error: ".toList ++ message

structure SystemInfo where
  name : Str
  version : Str
  platform : Str
  architecture : Str
  deriving DecidableEq

/-- One line of a directory listing. The length of a directory is 0 except on the desktop, where it is whatever figure
    the host has for it. -/
structure StorageEntry where
  name : Str
  isDir : Bool
  len : Nat
  deriving DecidableEq

structure NetStatus where
  linkUp : Bool
  mac : Str
  address : Option Str
  gateway : Option Str
  deriving DecidableEq

/-- What an application has to declare in its header before it may ask. The path of the two filesystem capabilities is
    everything at or below it, the host of a network capability is one name or `*`. -/
inductive Capability where
  | fsRead (path : Str)
  | fsWrite (path : Str)
  | clock
  | systemInfo
  | network (host : Str)
  deriving DecidableEq

/-- `Display` for `Capability`: the text a permission request shows. -/
def Capability.display : Capability → Str
  | .fsRead path => "fs.read:".toList ++ path
  | .fsWrite path => "fs.write:".toList ++ path
  | .clock => "clock".toList
  | .systemInfo => "system.info".toList
  | .network host => "net:".toList ++ host

/-- What is known of an application from where it was found and from its header. `trusted` is decided by the path
    alone; nothing that the source of the application says can set it. -/
structure AppIdentity where
  id : Str
  sourcePath : Str
  trusted : Bool
  apiVersion : Nat
  capabilities : List Capability
  deriving DecidableEq

def netUnavailable : Error :=
  .unsupported "networking is unavailable on this platform".toList

/-- The `Platform` trait. Connection handles are 64-bit numbers, ports 16-bit ones;
    `fillRandom n` fills a buffer of `n` bytes, and `netRecv` a buffer of `max` bytes,
    answering how many of them it received. -/
class Platform (σ : Type) where
  consoleWrite (text : Str) : Op Error σ Unit
  consoleReadLine (prompt : Str) (secret : Bool) : Op Error σ Str
  consoleClear : Op Error σ Unit
  storageRead (path : Str) : Op Error σ Bytes
  storageWrite (path : Str) (data : Bytes) : Op Error σ Unit
  storageList (path : Str) : Op Error σ (List StorageEntry)
  storageCreateDirAll (path : Str) : Op Error σ Unit
  storageRemove (path : Str) : Op Error σ Unit
  storageRename (source target : Str) : Op Error σ Unit
  storageExists (path : Str) : Op Error σ Bool
  monotonicMillis : σ → Nat × σ
  fillRandom (n : Nat) : Op Error σ (Vector UInt8 n)
  systemInfo : σ → SystemInfo × σ
  pollCancel : σ → Bool × σ := fun s => (false, s)
  netStatus : Op Error σ NetStatus := Op.throw netUnavailable
  netConnect (host : Str) (port : UInt16) : Op Error σ Nat := Op.throw netUnavailable
  netSend (handle : Nat) (data : Bytes) : Op Error σ Nat := Op.throw netUnavailable
  netRecv (handle max : Nat) : Op Error σ (Nat × Vector UInt8 max) := Op.throw netUnavailable
  netClose (handle : Nat) : Op Error σ Unit := Op.throw netUnavailable

/-- The calls an application can make. -/
inductive ApiCall where
  | consoleWrite (text : Str)
  | consoleReadLine (prompt : Str)
  | readText (path : Str)
  | writeText (path text : Str)
  | list (path : Str)
  | createDirAll (path : Str)
  | remove (path : Str)
  | rename (source target : Str)
  | appdataRead (path : Str)
  | appdataWrite (path text : Str)
  | monotonicMillis
  | systemInfo
  | netStatus
  | netConnect (host : Str) (port : UInt16)
  | netSend (handle : Nat) (data : Bytes)
  | netRecv (handle max : Nat)
  | netClose (handle : Nat)
  | cancelled
  deriving DecidableEq

/-- What a call can answer when it does not fail. -/
inductive ApiValue where
  | unit
  | text (text : Str)
  | entries (entries : List StorageEntry)
  | number (value : Nat)
  | info (info : SystemInfo)
  | net (status : NetStatus)
  | bytes (bytes : Bytes)
  | flag (value : Bool)
  deriving DecidableEq

/-- What an interpreter does with a `SystemApi`: end with an exit status or an error, or make
    a call and go on by its answer. -/
inductive Script where
  | done (status : Except Error Int)
  | call (request : ApiCall) (next : Except Error ApiValue → Script)

/-- The `AppRuntime` trait: the extension a runtime claims, and what it makes of a source. Of the `SystemApi` that
    `execute` is handed, `app`, `args` and `cwd` answer the same as long as the session lasts, so that a runtime gets
    them once, before it starts; everything else that it asks for is a call of its script. -/
structure AppRuntime where
  extension : Str
  execute (source : Str) (app : AppIdentity) (args : List Str) (cwd : Str) : Script

end Afos
