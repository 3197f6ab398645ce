import Afos.App

/-!
# The shell

`crates/afos-core/src/shell.rs`: the command tokenizer, the builtins, application lookup, and
the interactive loop. `executeApp` is cut in two where the application starts: `loadApp`
resolves the command, reads the source and parses its header, `startApp` runs it in a session
of its own. The loop runs until a command exits or fails, so it is modelled with fuel, and the
results about it say how much is enough.
-/

set_option autoImplicit false

namespace Afos

open Lib

/-! ## Splitting a command line -/

/-- The variables of the loop of `splitCommandLine`: the words so far, the one being read, the quote it is in, and
    whether the last character was a backslash. -/
structure Splitter where
  output : List Str := []
  current : Str := []
  quote : Option Char := none
  escaped : Bool := false
  deriving DecidableEq

namespace Splitter

def push (s : Splitter) (c : Char) : Splitter := { s with current := s.current ++ [c] }

/-- One character. A backslash escapes in quotes as well as outside of them, and a quote may begin or end in the
    middle of a word. -/
def step (s : Splitter) (c : Char) : Splitter :=
  if s.escaped then { s.push c with escaped := false }
  else if c = '\\' then { s with escaped := true }
  else match s.quote with
    | some active => if c = active then { s with quote := none } else s.push c
    | none =>
        if c = '\'' ∨ c = '"' then { s with quote := some c }
        else if isWhitespace c then
          if s.current = [] then s else { s with output := s.output ++ [s.current], current := [] }
        else s.push c

/-- The end of the line. A backslash with nothing after it stands for itself, and an open quote is an error; a quoted
    empty word leaves nothing behind and is lost. -/
def finish (s : Splitter) : Except Error (List Str) :=
  let current := if s.escaped then s.current ++ ['\\'] else s.current
  if s.quote.isSome then .error (.invalidInput "unterminated quote".toList)
  else .ok (if current = [] then s.output else s.output ++ [current])

end Splitter

def splitCommandLine (input : Str) : Except Error (List Str) :=
  (input.foldl Splitter.step {}).finish

/-! ## Commands -/

/-- Source names: `Continue` and `Exit`. The code of a command that goes on is not looked at by the loop; only an
    embedding program that runs single commands sees it. -/
inductive CommandOutcome where
  | next (code : Int)
  | exit (code : Int)
  deriving DecidableEq

structure ShellConfig where
  interactiveSetup : Bool := true
  banner : Bool := true

/-- Source name: `Afos`. The state between two commands: the system, the runtimes that applications can be run with,
    and the current directory, which only `cd` changes. -/
structure Shell (σ : Type) where
  system : System σ
  runtimes : RuntimeRegistry
  cwd : Str

/-- An application about to start: where it was found, what it says, who it is, and its arguments with its own `id` in
    front. -/
structure Launch where
  path : Str
  source : Str
  identity : AppIdentity
  args : List Str

/-- Whether an application at this path is trusted: it sits directly in `/sys/apps`. A subdirectory is not enough,
    although what is in it cannot be changed either. -/
def isTrustedPath (path : Str) : Bool :=
  (stripPrefix "/sys/apps/".toList path).any fun suffix => !suffix.contains '/'

def maxSourceLen : Nat := 1024 * 1024

namespace Shell

variable {σ α : Type}

def onSystem (x : Op Error (System σ) α) : Op Error (Shell σ) α :=
  Op.zoom system (fun y s => { s with system := y }) x

def onVfs (x : Op Error (Vfs σ) α) : Op Error (Shell σ) α := onSystem (System.onVfs x)

def onPlatform (x : Op Error σ α) : Op Error (Shell σ) α := onSystem (System.onPlatform x)

variable [Platform σ] [Argon2]

/-- The search through the application directories, for a command without a slash. The system's directory comes first,
    so an installed application cannot take the name of one that came with the system. -/
def searchRoots (command : Str) : List Str → Op Error (Shell σ) Str
  | [] => Op.throw (.notFound command)
  | root :: rest => do
      let path := if command.contains '.' then root ++ '/' :: command
        else root ++ '/' :: (command ++ ".rhai".toList)
      let present ← onVfs (Vfs.existsAt path)
      let s ← Op.read
      if present && s.runtimes.supports path then pure path else searchRoots command rest

/-- The name after the last slash of a path has a dot in it. Such a name is taken as it is; any other one is tried
    with `.rhai` after it as well. -/
def hasDottedName (path : Str) : Bool := (lastName path).contains '.'

/-- Where the application of a command is. A command with a slash is a path against the current directory, and the two
    application directories are not searched for it. -/
def resolveCommand (command : Str) : Op Error (Shell σ) Str :=
  if command.contains '/' then do
    let s ← Op.read
    let path ← Op.ofExcept (normalizePath s.cwd command)
    let present ← onVfs (Vfs.existsAt path)
    let s ← Op.read
    if present && s.runtimes.supports path then pure path
    else if !hasDottedName path then do
      let rhaiPath := path ++ ".rhai".toList
      let present ← onVfs (Vfs.existsAt rhaiPath)
      if present then pure rhaiPath else Op.throw (.notFound path)
    else Op.throw (.notFound path)
  else searchRoots command ["/sys/apps".toList, "/apps".toList]

/-- `executeApp` up to the point where the application starts. Nothing has been run yet when one of these steps fails,
    and nothing has been written. -/
def loadApp (command : Str) (args : List Str) : Op Error (Shell σ) Launch := do
  let path ← resolveCommand command
  let source ← onVfs (Vfs.readText path)
  if (asBytes source).length > maxSourceLen then
    Op.throw (.resourceLimit "application source exceeds 1 MiB".toList)
  else do
    let identity ← Op.ofExcept (parseMetadata path source (isTrustedPath path))
    pure { path, source, identity, args := identity.id :: args }

/-- Run an application in its session, and report a failing exit status. The report goes through the session's
    console, under the `id` that the application has given itself. -/
def runSession (runtimes : RuntimeRegistry) (launch : Launch) : Op Error (AppSession σ) Int := do
  let code ← runtimes.execute launch.path launch.source
  if code ≠ 0 then do
    let s ← Op.read
    AppSession.consoleWrite
      (s.app.id ++ " exited with status ".toList ++ intToStr code ++ "\n".toList)
    pure code
  else pure code

/-- The session is built from the shell's state and taken apart again: the system comes back, whatever the outcome,
    and the rest of the session is dropped. -/
def startApp (launch : Launch) : Op Error (Shell σ) Int := fun s =>
  let session := AppSession.new s.system launch.identity launch.args s.cwd
  ((runSession s.runtimes launch session).1,
    { s with system := (runSession s.runtimes launch session).2.system })

def executeApp (command : Str) (args : List Str) : Op Error (Shell σ) Int := do
  let launch ← loadApp command args
  startApp launch

/-- `cd`, with `/user` as the default. The directory is listed to see that it is there, and the current one is left as
    it was if that fails. -/
def changeDirectory (args : List Str) : Op Error (Shell σ) CommandOutcome := do
  let s ← Op.read
  let target ← Op.ofExcept (normalizePath s.cwd (args.headD "/user".toList))
  let _ ← onVfs (Vfs.list target)
  Op.modify fun s => { s with cwd := target }
  pure (.next 0)

def exitStatus (args : List Str) : Except Error Int :=
  match args with
  | [] => .ok 0
  | value :: _ => match parseI32 value with
    | some code => .ok code
    | none => .error (.invalidInput "exit status must be an integer".toList)

/-- The part of `runCommand` after the line has been split. The names of the builtins come before any application, and
    `run` is the way to an application that has such a name. -/
def dispatch (command : Str) (args : List Str) : Op Error (Shell σ) CommandOutcome :=
  if command = "cd".toList then changeDirectory args
  else if command = "exit".toList then .exit <$> Op.ofExcept (exitStatus args)
  else if command = "clear".toList then do
    onPlatform Platform.consoleClear
    pure (.next 0)
  else if command = "passwd".toList ∨ command = "setup".toList then do
    onSystem System.changePassword
    onPlatform (Platform.consoleWrite "Master password updated.\n".toList)
    pure (.next 0)
  else if command = "run".toList then
    match args with
    | [] => Op.throw (.invalidInput "usage: run <app> [args...]".toList)
    | path :: rest => .next <$> executeApp path rest
  else .next <$> executeApp command args

def runCommand (line : Str) : Op Error (Shell σ) CommandOutcome := do
  let args ← Op.ofExcept (splitCommandLine line)
  match args with
  | [] => pure (.next 0)
  | command :: args => dispatch command args

/-! ## The interactive loop -/

/-- One turn of the loop up to the command: prompt and read a line. The prompt shows the current directory. -/
def readCommand : Op Error (Shell σ) Str := do
  let s ← Op.read
  onPlatform (Platform.consoleReadLine ("AFOS:".toList ++ s.cwd ++ "$ ".toList) false)

/-- The loop, for at most `fuel` commands; `none` when they did not end it. An error of a command is an error of the
    loop: nothing here catches one. -/
def loop : Nat → Op Error (Shell σ) (Option Int)
  | 0 => pure none
  | fuel + 1 => do
      let line ← readCommand
      let outcome ← runCommand line
      match outcome with
      | .next _ => loop fuel
      | .exit code => pure (some code)

def banner : Str :=
  "AFOS 0.2.0 — portable application environment\nType `help` for commands.\n\n".toList

/-- `runInteractive` before its loop: first-run setup, and then the banner if the configuration asks for it. -/
def startup (config : ShellConfig) : Op Error (Shell σ) Unit := do
  onSystem (System.initializeSystem config.interactiveSetup)
  if config.banner then onPlatform (Platform.consoleWrite banner) else pure ()

def runInteractive (config : ShellConfig) (fuel : Nat) : Op Error (Shell σ) (Option Int) := do
  startup config
  loop fuel

end Shell

example : splitCommandLine "echo \"hello world\" one\\ two".toList =
    .ok ["echo".toList, "hello world".toList, "one two".toList] := by decide

end Afos
