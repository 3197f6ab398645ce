import Afos.Session

/-!
# Application headers and the runtime registry

`crates/afos-core/src/app.rs`. A header is the leading comment lines of a source; the first
line that is neither blank nor a comment ends it. The identifier defaults to the stem of the
file name, which is not put through the test an `id` directive has to pass.
-/

set_option autoImplicit false

namespace Afos

open Lib

/-- What stands after the last slash: `rsplit('/').next()`, which is always there. For a path without a slash it is
    the whole path. -/
def lastName (path : Str) : Str := (path.splitOn '/').getLast (List.splitOn_ne_nil _ _)

/-- The name after the last slash, without its extension, which is what stands after the last dot. A name that begins
    with its only dot has no stem, and is no application. -/
def fileStem (sourcePath : Str) : Option Str :=
  let name := lastName sourcePath
  let stem := match rsplitOnce '.' name with
    | some (stem, _) => stem
    | none => name
  if stem = [] then none else some stem

/-- One item of a `capabilities` directive. The paths are taken as they stand and only looked at when they are
    compared; a host has at least to be there. -/
def parseCapability (value : Str) : Except Error Capability :=
  if value = "clock".toList then .ok .clock
  else if value = "system.info".toList then .ok .systemInfo
  else match stripPrefix "fs.read:".toList value with
    | some path => .ok (.fsRead path)
    | none => match stripPrefix "fs.write:".toList value with
      | some path => .ok (.fsWrite path)
      | none => match stripPrefix "net:".toList value with
        | some host =>
            if host = [] then
              .error (.invalidInput "network capability requires a host pattern".toList)
            else .ok (.network host)
        | none => .error (.invalidInput ("unknown capability: ".toList ++ value))

/-- The characters an `id` directive may use. There is no slash among them, but there is the dot, and an `id` of dots
    alone passes the test. -/
def isIdChar (c : Char) : Bool := c.isAlphanum || c == '.' || c == '-' || c == '_'

/-- What the directives read so far have set: the variables `id`, `api_version` and `capabilities` of
    `parse_metadata`, with the defaults that it starts from. -/
structure Header where
  id : Str
  apiVersion : Nat
  capabilities : List Capability
  deriving DecidableEq

namespace Header

/-- The version has to be a number of 16 bits before it is compared with the only one there is, so the two errors tell
    apart what is malformed from what is too new. -/
def setApi (header : Header) (value : Str) : Except Error Header :=
  match parseU16 (trim value) with
  | none => .error (.invalidInput "invalid API version".toList)
  | some version =>
      if version ≠ 1 then
        .error (.unsupported ("application API version ".toList ++ natToStr version))
      else .ok { header with apiVersion := version }

def setId (header : Header) (value : Str) : Except Error Header :=
  if trim value = [] ∨ !(trim value).all isIdChar then
    .error (.invalidInput "invalid application ID".toList)
  else .ok { header with id := trim value }

/-- Empty items are skipped, and the directive may be repeated: the lists are put together, and nothing is taken back
    by a later line. -/
def addCapabilities (header : Header) (value : Str) : Except Error Header :=
  (((value.splitOn ',').map trim).filter (· ≠ [])).foldlM
    (fun header item => (parseCapability item).map fun capability =>
      { header with capabilities := header.capabilities ++ [capability] })
    header

/-- One directive, by its key. A key that is not known is an error, so a header cannot ask for something that this
    version would silently ignore. -/
def directive (header : Header) (key value : Str) : Except Error Header :=
  if key = "api".toList then header.setApi value
  else if key = "id".toList then header.setId value
  else if key = "capabilities".toList then header.addCapabilities value
  else .error (.invalidInput ("unknown AFOS directive: ".toList ++ key))

/-- The loop over the lines of a source. Blank lines and other comments are passed over, and the first line of code
    ends the header; a directive further down is an ordinary comment. -/
def parseLines : List Str → Header → Except Error Header
  | [], header => .ok header
  | line :: rest, header =>
      let trimmed := trim line
      if trimmed = [] then parseLines rest header
      else match stripPrefix "// afos:".toList trimmed with
        | none => if startsWith "//".toList trimmed then parseLines rest header else .ok header
        | some text => match splitOnce '=' text with
          | none => .error (.invalidInput "AFOS directive must use key=value".toList)
          | some (key, value) => do
              let header ← header.directive (trim key) value
              parseLines rest header

end Header

/-- The header of an application, with the file name as the default for its `id`. Whether it is trusted is an
    argument, and the header has no say in it. -/
def parseMetadata (sourcePath source : Str) (trusted : Bool) : Except Error AppIdentity :=
  match fileStem sourcePath with
  | none => .error (.invalidInput "application has no file name".toList)
  | some filename =>
      (Header.parseLines (lines source) ⟨filename, 1, []⟩).map fun header =>
        { id := header.id, sourcePath, trusted, apiVersion := header.apiVersion,
          capabilities := header.capabilities }

abbrev RuntimeRegistry := List AppRuntime

namespace RuntimeRegistry

/-- Extensions are unique in the registry, so it does not matter in which order the runtimes were registered. -/
def register (runtimes : RuntimeRegistry) (runtime : AppRuntime) : Except Error RuntimeRegistry :=
  if runtimes.any (fun registered => registered.extension == runtime.extension) then
    .error (.alreadyExists runtime.extension)
  else .ok (runtimes ++ [runtime])

/-- The runtime registered for an extension. Upper and lower case are told apart, so `.RHAI` is the extension of
    nothing that is registered as `rhai`. -/
def lookup (runtimes : RuntimeRegistry) (extension : Str) : Option AppRuntime :=
  runtimes.find? fun runtime => runtime.extension == extension

def supports (runtimes : RuntimeRegistry) (path : Str) : Bool :=
  (rsplitOnce '.' path).any fun p =>
    runtimes.any fun runtime => runtime.extension == p.2

variable {σ : Type} [Platform σ] [Argon2]

/-- The runtime is chosen by the extension of the path and given the source, the identity, the arguments and the
    directory. What it does with the session is a script of calls, run by `AppSession.runScript`. -/
def execute (runtimes : RuntimeRegistry) (path source : Str) : Op Error (AppSession σ) Int :=
  match rsplitOnce '.' path with
  | none => Op.throw (.unsupported "application has no extension".toList)
  | some (_, extension) => match runtimes.lookup extension with
    | none => Op.throw (.unsupported ("*.".toList ++ extension ++ " applications".toList))
    | some runtime => fun s => AppSession.runScript (runtime.execute source s.app s.args s.cwd) s

end RuntimeRegistry

/-- The header of the unit test in the source. -/
example :
    parseMetadata "/apps/notes.rhai".toList
      ("// afos:api=1\n// afos:id=com.example.notes\n".toList ++
        "// afos:capabilities=clock,fs.read:/user/saves\nprint(1);".toList) false =
      .ok { id := "com.example.notes".toList, sourcePath := "/apps/notes.rhai".toList,
            trusted := false, apiVersion := 1,
            capabilities := [.clock, .fsRead "/user/saves".toList] } := by
  decide

end Afos
