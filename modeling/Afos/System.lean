import Afos.Security

/-!
# The system: setup, passwords and authorization

The first half of `crates/afos-core/src/system.rs`. `authorize` is the gate in front of
the protected operations, of which only the state of the network is answered without it: the
verifier's own path is refused outright, the capability has to be declared, and for an installed
application the user is asked, and asked for the password when there is one. Nothing it finds
out is kept.
-/

set_option autoImplicit false

namespace Afos

open Lib

def initializedPath : Str := "/user/config/initialized".toList

/-- The answers that count as consent: `y` and `yes` in either case, with nothing around them. Everything else is a
    refusal, the empty line included, as the `[y/N]` of the questions announces. -/
def isYes (answer : Str) : Bool :=
  eqIgnoreAsciiCase answer "y".toList || eqIgnoreAsciiCase answer "yes".toList

/-- A path at or below `pre`. The root is an exception to the test for a slash, since what comes after it in a path
    does not begin with one. -/
def pathPrefix (pre path : Str) : Bool :=
  pre == "/".toList || path == pre ||
    (stripPrefix pre path).any (fun suffix => suffix.head? == some '/')

/-- One declared capability against one requested. The declared path is normalized when it is compared and not when it
    is parsed, so a header with a path that has no normal form is accepted and covers nothing. -/
def covers (declared requested : Capability) : Bool :=
  match declared, requested with
  | .fsRead pre, .fsRead path | .fsWrite pre, .fsWrite path =>
      match normalizePath "/".toList pre with
      | .ok normalized => pathPrefix normalized path
      | .error _ => false
  | .clock, .clock | .systemInfo, .systemInfo => true
  | .network pattern, .network host => pattern == "*".toList || eqIgnoreAsciiCase pattern host
  | _, _ => false

def declares (app : AppIdentity) (requested : Capability) : Bool :=
  app.capabilities.any fun declared => covers declared requested

/-- What `netStatus` asks for in place of `declares`: the state of the link is not about one host, so any host will
    do. -/
def declaresAnyNetwork (app : AppIdentity) : Bool :=
  app.capabilities.any fun capability =>
    match capability with
    | .network _ => true
    | _ => false

/-- At the verifier's path, or below it. The resource of a filesystem call is its resolved path, so no spelling of the
    path gets by. -/
def isSecurityResource (resource : Str) : Bool :=
  resource == securityPath ||
    (stripPrefix securityPath resource).any (fun suffix => suffix.head? == some '/')

/-- What a permission request shows: the application, what it wants to do, and with what. The texts are shown as they
    are, and an application chooses its own `id`. -/
def permissionRequest (app : AppIdentity) (capability : Capability) (resource : Str) : Str :=
  "\nPermission request\n  app: ".toList ++ app.id ++ "\n  operation: ".toList ++
    capability.display ++ "\n  resource: ".toList ++ resource ++ "\n".toList

namespace System

variable {σ : Type}

def new (platform : σ) : System σ := { vfs := ⟨platform, []⟩, security := {} }

def withVfs (vfs : Vfs σ) : System σ := { vfs, security := {} }

variable [Platform σ] [Argon2]

def consoleWrite (text : Str) : Op Error (System σ) Unit := onPlatform (Platform.consoleWrite text)

def consoleReadLine (prompt : Str) (secret : Bool) : Op Error (System σ) Str :=
  onPlatform (Platform.consoleReadLine prompt secret)

/-- The new password is asked for twice, but an empty one, which disables the check, only once. -/
def promptNewPassword : Op Error (System σ) Unit := do
  let password ← consoleReadLine "New master password (empty disables it): ".toList true
  if password = [] then SecurityManager.setPassword password
  else do
    let confirmation ← consoleReadLine "Confirm master password: ".toList true
    if password ≠ confirmation then
      Op.throw (.invalidInput "password confirmation does not match".toList)
    else SecurityManager.setPassword password

/-- The question first-run setup asks when it may. A setup that is not interactive leaves the system without a
    password. -/
def offerPassword (interactive : Bool) : Op Error (System σ) Unit :=
  if interactive then do
    let answer ← consoleReadLine "Configure a master password? [y/N] ".toList false
    if isYes answer then promptNewPassword else pure ()
  else pure ()

/-- Source name: `initialize`. The marker is written last, so a setup that fails half way is begun again at the next
    start. -/
def initializeSystem (interactive : Bool) : Op Error (System σ) Unit := do
  onVfs Vfs.initializeLayout
  let done ← onVfs (Vfs.existsAt initializedPath)
  if done then pure ()
  else do
    consoleWrite "AFOS first-run setup\n".toList
    offerPassword interactive
    onVfs (Vfs.write initializedPath (asBytes "AFOS-SETUP-1\n".toList))

/-- The commands `passwd` and `setup`. The current password is asked for if there is one, and a failed attempt counts
    here as it does anywhere else. -/
def changePassword : Op Error (System σ) Unit := do
  let present ← SecurityManager.hasPassword
  if present then do
    let current ← consoleReadLine "Current master password: ".toList true
    SecurityManager.verify current
  else pure ()
  promptNewPassword

/-- The part of `authorize` that talks to the user: the request, the question, and the password if one is set. The
    password is asked for only after the user has agreed. -/
def requestPermission (app : AppIdentity) (capability : Capability) (resource : Str) :
    Op Error (System σ) Unit := do
  consoleWrite (permissionRequest app capability resource)
  let answer ← consoleReadLine "Allow this operation once? [y/N] ".toList false
  if !isYes answer then Op.throw (.permissionDenied "request denied".toList)
  else do
    let present ← SecurityManager.hasPassword
    if present then do
      let password ← consoleReadLine "Master password: ".toList true
      SecurityManager.verify password
    else pure ()

/-- The gate that the protected calls of a session go through. The tests stand in the order of the source: the
    verifier is refused before the declaration is looked at, and trust is looked at last, so that not even an
    application that comes with the system can do what it has not declared. -/
def authorize (app : AppIdentity) (capability : Capability) (resource : Str) :
    Op Error (System σ) Unit :=
  if isSecurityResource resource then
    Op.throw (.permissionDenied "security configuration is not exposed to applications".toList)
  else if !declares app capability then Op.throw (.capabilityNotDeclared capability.display)
  else if app.trusted then pure ()
  else requestPermission app capability resource

end System

end Afos
