import Afos.System

/-!
# Application sessions

The second half of `crates/afos-core/src/system.rs`: the session an application runs in, and
its implementation of every call of `SystemApi`.

The paths of the filesystem calls are resolved against the session's current directory,
authorized under the resolved text, and handed to the filesystem, which normalizes them
again. The appdata calls are authorized by nothing but the shape of the path they resolve to.
-/

set_option autoImplicit false

namespace Afos

open Lib

/-- What an application has while it runs. The system is the shell's own, lent for the run; everything else, the list
    of its connections above all, ends with the session. -/
structure AppSession (σ : Type) where
  system : System σ
  app : AppIdentity
  args : List Str
  cwd : Str
  appdataRoot : Str
  sockets : List Nat

/-- The directory private to an application. It is made of the application's `id`, so two applications that give
    themselves the same one share it. -/
def appdataRootOf (app : AppIdentity) : Str := "/user/appdata/".toList ++ app.id

namespace AppSession

variable {σ α : Type}

def new (system : System σ) (app : AppIdentity) (args : List Str) (cwd : Str) : AppSession σ :=
  { system, app, args, cwd, appdataRoot := appdataRootOf app, sockets := [] }

def onSystem (x : Op Error (System σ) α) : Op Error (AppSession σ) α :=
  Op.zoom system (fun y s => { s with system := y }) x

def onVfs (x : Op Error (Vfs σ) α) : Op Error (AppSession σ) α := onSystem (System.onVfs x)

def onPlatform (x : Op Error σ α) : Op Error (AppSession σ) α := onSystem (System.onPlatform x)

/-- A path of the application, made absolute against the directory that the shell was in when it started the
    application. -/
def resolve (path : Str) : Op Error (AppSession σ) Str := do
  let s ← Op.read
  Op.ofExcept (normalizePath s.cwd path)

/-- Refuse a handle this session did not open. The answer is `notFound`, whether or not the backend has a connection
    of this number. -/
def ownedSocket (handle : Nat) : Op Error (AppSession σ) Unit := do
  let s ← Op.read
  if s.sockets.contains handle then pure ()
  else Op.throw (.notFound ("network connection ".toList ++ natToStr handle))

/-- A path in the application's own directory. Dots are resolved before the test, so leaving the directory and coming
    back to it is allowed. -/
def resolveAppdata (path : Str) : Op Error (AppSession σ) Str := do
  let s ← Op.read
  let resolved ← Op.ofExcept (normalizePath s.appdataRoot path)
  if !pathPrefix s.appdataRoot resolved then
    Op.throw (.permissionDenied "path escapes application data".toList)
  else pure resolved

variable [Platform σ] [Argon2]

def authorize (capability : Capability) (resource : Str) : Op Error (AppSession σ) Unit := do
  let s ← Op.read
  onSystem (System.authorize s.app capability resource)

def consoleWrite (text : Str) : Op Error (AppSession σ) Unit :=
  onPlatform (Platform.consoleWrite text)

def consoleReadLine (prompt : Str) : Op Error (AppSession σ) Str :=
  onPlatform (Platform.consoleReadLine prompt false)

/-- A filesystem call with one path: resolve it, authorize the capability for it, act. What is authorized and what is
    acted on are the same text, and the filesystem normalizes it once more without effect. -/
def withPath (capability : Str → Capability) (path : Str)
    (act : Str → Op Error (Vfs σ) α) : Op Error (AppSession σ) α := do
  let path ← resolve path
  authorize (capability path) path
  onVfs (act path)

def readText (path : Str) : Op Error (AppSession σ) Str :=
  withPath .fsRead path Vfs.readText

def writeText (path text : Str) : Op Error (AppSession σ) Unit :=
  withPath .fsWrite path fun path => Vfs.write path (asBytes text)

def list (path : Str) : Op Error (AppSession σ) (List StorageEntry) :=
  withPath .fsRead path Vfs.list

def createDirAll (path : Str) : Op Error (AppSession σ) Unit :=
  withPath .fsWrite path Vfs.createDirAll

def remove (path : Str) : Op Error (AppSession σ) Unit :=
  withPath .fsWrite path Vfs.remove

/-- Both ends are resolved before the first is authorized, and each needs its own permission to write; for an
    installed application the user is asked twice. -/
def rename (source target : Str) : Op Error (AppSession σ) Unit := do
  let source ← resolve source
  let target ← resolve target
  authorize (.fsWrite source) source
  authorize (.fsWrite target) target
  onVfs (Vfs.rename source target)

def appdataRead (path : Str) : Op Error (AppSession σ) Str := do
  let path ← resolveAppdata path
  onVfs (Vfs.readText path)

/-- No capability is asked for. The application's directory is made first; a subdirectory that is missing is the
    backend's business. -/
def appdataWrite (path text : Str) : Op Error (AppSession σ) Unit := do
  let path ← resolveAppdata path
  let s ← Op.read
  onVfs (Vfs.createDirAll s.appdataRoot)
  onVfs (Vfs.write path (asBytes text))

def monotonicMillis : Op Error (AppSession σ) Nat := do
  authorize .clock "monotonic clock".toList
  onPlatform (Op.ofState Platform.monotonicMillis)

def systemInfo : Op Error (AppSession σ) SystemInfo := do
  authorize .systemInfo "system information".toList
  onPlatform (Op.ofState Platform.systemInfo)

/-- The one call that tests a declaration without `authorize`: it needs some network capability, and the user is not
    asked. -/
def netStatus : Op Error (AppSession σ) NetStatus := do
  let s ← Op.read
  if !declaresAnyNetwork s.app then Op.throw (.capabilityNotDeclared "net:<host>".toList)
  else onPlatform Platform.netStatus

/-- The resource a connection request names, as it is shown to the user. The capability has the host alone, so a
    declaration is for all ports. -/
def netResource (host : Str) (port : UInt16) : Str := host ++ ':' :: natToStr port.toNat

def netConnect (host : Str) (port : UInt16) : Op Error (AppSession σ) Nat :=
  if host = [] then Op.throw (.invalidInput "empty network host".toList)
  else do
    authorize (.network host) (netResource host port)
    let handle ← onPlatform (Platform.netConnect host port)
    Op.modify fun s => { s with sockets := s.sockets ++ [handle] }
    pure handle

def netSend (handle : Nat) (data : Bytes) : Op Error (AppSession σ) Nat := do
  ownedSocket handle
  onPlatform (Platform.netSend handle data)

/-- What the backend says it has put into the buffer, cut off at the buffer's end in case it says more. -/
def netRecv (handle max : Nat) : Op Error (AppSession σ) Bytes := do
  ownedSocket handle
  let (count, buffer) ← onPlatform (Platform.netRecv handle max)
  pure (buffer.toList.take count)

/-- The handle is forgotten before the backend is told, so a connection that fails to close cannot be used again. -/
def netClose (handle : Nat) : Op Error (AppSession σ) Unit := do
  ownedSocket handle
  Op.modify fun s => { s with sockets := s.sockets.filter (fun x => x != handle) }
  onPlatform (Platform.netClose handle)

def cancelled : Op Error (AppSession σ) Bool := onPlatform (Op.ofState Platform.pollCancel)

/-- The session's answer to a call of `SystemApi`. This is the whole surface between an application and the system:
    results about every script come down to one case for each line here. -/
def call : ApiCall → Op Error (AppSession σ) ApiValue
  | .consoleWrite text => (fun _ => .unit) <$> consoleWrite text
  | .consoleReadLine prompt => .text <$> consoleReadLine prompt
  | .readText path => .text <$> readText path
  | .writeText path text => (fun _ => .unit) <$> writeText path text
  | .list path => .entries <$> list path
  | .createDirAll path => (fun _ => .unit) <$> createDirAll path
  | .remove path => (fun _ => .unit) <$> remove path
  | .rename source target => (fun _ => .unit) <$> rename source target
  | .appdataRead path => .text <$> appdataRead path
  | .appdataWrite path text => (fun _ => .unit) <$> appdataWrite path text
  | .monotonicMillis => .number <$> monotonicMillis
  | .systemInfo => .info <$> systemInfo
  | .netStatus => .net <$> netStatus
  | .netConnect host port => .number <$> netConnect host port
  | .netSend handle data => .number <$> netSend handle data
  | .netRecv handle max => .bytes <$> netRecv handle max
  | .netClose handle => (fun _ => .unit) <$> netClose handle
  | .cancelled => .flag <$> cancelled

/-- Run a script in a session: each call is answered before the script goes on. A call that fails does not end the
    script, which is given the error and may choose what to do about it. -/
def runScript : Script → Op Error (AppSession σ) Int
  | .done status => Op.ofExcept status
  | .call request next => fun s => runScript (next (call request s).1) (call request s).2

end AppSession

end Afos
