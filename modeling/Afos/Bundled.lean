import Afos.Runtime
import Afos.Shell

/-!
# Bundled applications

Scripts of `fs/sys/apps`, with their sources and what the engine does with them: the callbacks it calls, in which
order, and the value at the end. Nothing in them catches an error, so the first one ends the script; its text, which
tells the place in the source, is the engine's and is left open (`uncaught`).

Between any two operations the engine asks `on_progress` whether to go on, and it may find that one of its limits is
reached. None of this is written into the scripts (see `Bundled.Runs`).
-/

set_option autoImplicit false

namespace Afos

open Lib

namespace Dynamic

/-- A text; the scripts below use only texts where a text is called for. What the empty text stands for here is an
    error of the engine that cannot come up. -/
def asText : Dynamic → Str
  | text value => value
  | _ => []

def asTexts : Dynamic → List Str
  | array items => items.map asText
  | _ => []

end Dynamic

namespace Bundled

variable (uncaught : Error → Str)

/-- A step of a script: ask for something and go on with the answer. An error ends the script with a text of the
    engine's making. -/
def ask (b : Binding) (next : Dynamic → Evaluation) : Evaluation :=
  .ask b fun
    | .ok value => next value
    | .error e => .done (.error (uncaught e))

def call (function : Registered) (next : Dynamic → Evaluation) : Evaluation :=
  ask uncaught (.registered function) next

/-- The value of a script, which is the last thing it evaluates. All of the scripts here end with a number. -/
def value (status : Int) : Evaluation := .done (.ok (.int status))

/-- A usage line, and the status that goes with it. It is printed and no call is made, so a wrong number of arguments
    changes nothing. -/
def usage (text : Str) : Evaluation := ask uncaught (.onPrint text) fun _ => value 2

/-- A function called for each text in turn. The first error ends the loop and the script, and what was done for the
    texts before it stays done. -/
def forEach (function : Str → Registered) (rest : Evaluation) : List Str → Evaluation
  | [] => rest
  | text :: texts => call uncaught (function text) fun _ => forEach function rest texts

/-- The scripts that do something to each of their arguments. The first argument is the script's own name, so there is
    nothing to do with fewer than two. -/
def eachArgument (usageLine : Str) (function : Str → Registered) : Evaluation :=
  ask uncaught .args fun values =>
    if values.asTexts.length < 2 then usage uncaught usageLine
    else forEach uncaught function (value 0) (values.asTexts.drop 1)

def rm : Evaluation := eachArgument uncaught "usage: rm <path>...".toList .fsRemove

def mkdir : Evaluation := eachArgument uncaught "usage: mkdir <directory>...".toList .fsMkdir

def touch : Evaluation := eachArgument uncaught "usage: touch <file>...".toList fun path => .fsWrite path []

def cp : Evaluation :=
  ask uncaught .args fun values =>
    match values.asTexts with
    | [_, source, destination] =>
        call uncaught (.fsRead source) fun text =>
          call uncaught (.fsWrite destination text.asText) fun _ => value 0
    | _ => usage uncaught "usage: cp <source> <destination>".toList

def mv : Evaluation :=
  ask uncaught .args fun values =>
    match values.asTexts with
    | [_, source, destination] => call uncaught (.fsRename source destination) fun _ => value 0
    | _ => usage uncaught "usage: mv <source> <destination>".toList

/-! ## The sources -/

/-- The text of a source, with a line end behind each of its lines, as the files have it. -/
def source (lines : List String) : Str := lines.flatMap fun line => line.toList ++ ['\n']

def rmSource : Str := source
  ["// afos:api=1",
   "// afos:id=afos.rm",
   "// afos:capabilities=fs.write:/",
   "",
   "let values = args();",
   "if values.len < 2 \x7b",
   "    print(\"usage: rm <path>...\");",
   "    2",
   "\x7d else \x7b",
   "    for index in 1..values.len \x7b",
   "        fs_remove(values[index]);",
   "    \x7d",
   "    0",
   "\x7d"]

def mkdirSource : Str := source
  ["// afos:api=1",
   "// afos:id=afos.mkdir",
   "// afos:capabilities=fs.write:/",
   "",
   "let values = args();",
   "if values.len < 2 \x7b",
   "    print(\"usage: mkdir <directory>...\");",
   "    2",
   "\x7d else \x7b",
   "    for index in 1..values.len \x7b",
   "        fs_mkdir(values[index]);",
   "    \x7d",
   "    0",
   "\x7d"]

def touchSource : Str := source
  ["// afos:api=1",
   "// afos:id=afos.touch",
   "// afos:capabilities=fs.write:/",
   "",
   "let values = args();",
   "if values.len < 2 \x7b",
   "    print(\"usage: touch <file>...\");",
   "    2",
   "\x7d else \x7b",
   "    for index in 1..values.len \x7b",
   "        fs_write(values[index], \"\");",
   "    \x7d",
   "    0",
   "\x7d"]

def cpSource : Str := source
  ["// afos:api=1",
   "// afos:id=afos.cp",
   "// afos:capabilities=fs.read:/,fs.write:/",
   "",
   "let values = args();",
   "if values.len != 3 \x7b",
   "    print(\"usage: cp <source> <destination>\");",
   "    2",
   "\x7d else \x7b",
   "    fs_write(values[2], fs_read(values[1]));",
   "    0",
   "\x7d"]

def mvSource : Str := source
  ["// afos:api=1",
   "// afos:id=afos.mv",
   "// afos:capabilities=fs.write:/",
   "",
   "let values = args();",
   "if values.len != 3 \x7b",
   "    print(\"usage: mv <source> <destination>\");",
   "    2",
   "\x7d else \x7b",
   "    fs_rename(values[1], values[2]);",
   "    0",
   "\x7d"]

/-! ## Running them -/

/-- The ways the engine may run a script: as it is, with looks for a cancellation anywhere in between, and breaking
    off anywhere with an error. -/
def Runs : Evaluation → Evaluation → Prop :=
  Dialogue.Interrupted .onProgress (.ok .unit) fun result => ∃ message, result = .error message

/-- A script as an engine runs it that looks for a cancellation before everything the script asks for, and breaks off
    with what `on_progress` returns to it. -/
def polled : Evaluation → Evaluation
  | .done result => .done result
  | .ask b next => .ask .onProgress fun
      | .ok .unit => .ask b fun answer => polled (next answer)
      | _ => .done (.error executionCancelled)

end Bundled

end Afos
