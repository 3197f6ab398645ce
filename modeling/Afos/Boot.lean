import Afos.BareMetal
import Afos.Heap
import Afos.Package
import Afos.Shell

/-!
# Starting the kernel

`_start` and `load_boot_files` of `platforms/bare-metal/src/main.rs`: the kernel sorts the modules that the boot loader
has loaded into its table of system files and into the files that a machine without a snapshot starts with. What
`fail` is called with is the error here.

The boot loader stands between the packaging and the kernel. Of its configuration it is taken to read the lines that
`limine_config` writes: a `module_path` is loaded from the image, and the `module_string` on the next line comes with
it. It would also replace macros, which are a name in braces behind a dollar sign; that is not modelled.
-/

set_option autoImplicit false

namespace Afos

open Lib

/-! ## The boot loader -/

/-- A module as the kernel gets it: the text of its `module_string`, and its bytes. The path it was loaded from is
    there too, and not looked at. -/
structure LimineFile where
  cmdline : Str
  data : Bytes

/-- The modules of a configuration, from an image; none if one of them is not in it, in which case the loader is taken
    to give up. -/
def readModules (image : Str → Option Bytes) : List Str → Option (List LimineFile)
  | [] => some []
  | line :: rest =>
    match stripPrefix "module_path: boot():/".toList line with
    | none => readModules image rest
    | some path => do
        let data ← image path
        let modules ← readModules image rest
        some (⟨(rest.head?.bind (stripPrefix "module_string: ".toList)).getD [], data⟩ :: modules)

/-- A file of the image, which has the bundle in its directory `fs`. Paths are compared as bytes, and the first file
    of that path is taken. -/
def imageFile (staged : SourceDir) (path : Str) : Option Bytes :=
  (stripPrefix "fs/".toList path).bind fun relative =>
    (staged.files.find? fun file => decide (pathBytes file.1 = asBytes relative)).map Prod.snd

/-! ## The kernel -/

structure BootFiles where
  system : List EmbeddedFile
  mutable : List InitialFile

/-- A path at or below one of the three mounts. The slash is written out in the comparison, so a directory whose name
    only begins like a mount is outside. -/
def isMounted (path : Str) : Bool :=
  path = "/sys".toList || startsWith "/sys/".toList path || path = "/apps".toList ||
    startsWith "/apps/".toList path || path = "/user".toList || startsWith "/user/".toList path

/-- The loop of `loadBootFiles`. Modules of another kind are passed over; one that has the mark and a path that is
    outside the mounts, or not in its normal form, makes the whole list invalid. -/
def loadModules : List LimineFile → BootFiles → Option BootFiles
  | [], files => some files
  | module :: rest, files =>
    match stripPrefix "afos-file:".toList module.cmdline with
    | none => loadModules rest files
    | some path =>
      if !isMounted path || (normalizePath "/".toList path).toOption ≠ some path then none
      else if path = "/sys".toList || startsWith "/sys/".toList path then
        loadModules rest { files with system := files.system ++ [⟨path, module.data⟩] }
      else
        match stripPrefix ['/'] path with
        | none => none
        | some relative => loadModules rest { files with mutable := files.mutable ++ [⟨relative, module.data⟩] }

/-- A system without a single system file is refused as well, because the commands are among them. -/
def loadBootFiles (modules : List LimineFile) : Option BootFiles :=
  (loadModules modules ⟨[], []⟩).filter fun files => !files.system.isEmpty

/-- What the boot loader answers the kernel's requests with, as far as the file system depends on it. Every answer may
    be missing. -/
structure BootResponses where
  revisionSupported : Bool
  hhdm : Option UInt64
  memoryMap : Option (List MemmapEntry)
  modules : Option (List LimineFile)
  tscFrequency : Option Nat

/-- `_start`, up to the shell. Each step that can fail ends in `fail` with the text that is the error here, and the
    steps stand in the order of the source. -/
def start {D η : Type} [BlockDevice D] [Hardware η] (boot : BootResponses) (block : Option D) (hardware : η)
    (rhai : AppRuntime) : Except Str (Shell (BareMetalPlatform D η)) := do
  if !boot.revisionSupported then .error "unsupported Limine boot protocol revision".toList
  else do
    let _ ← initializeHeap boot.hhdm boot.memoryMap
    match boot.modules with
    | none => .error "Limine did not provide the AFOS filesystem".toList
    | some modules =>
      match loadBootFiles modules with
      | none => .error "Limine filesystem modules are invalid".toList
      | some files =>
        let counterFrequency := (boot.tscFrequency.map (max · 1)).getD 1000000
        match BareMetalPlatform.new counterFrequency files.mutable block hardware with
        | .error e => .error e.display
        | .ok platform =>
          match RuntimeRegistry.register [] rhai with
          | .error _ => .error "failed to register Rhai".toList
          | .ok runtimes =>
            .ok { system := System.withVfs ⟨platform, files.system⟩, runtimes := runtimes, cwd := "/user".toList }

end Afos
