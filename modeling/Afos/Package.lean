import Afos.Lib.Directory
import Afos.Lib.Lossy
import Afos.Lib.Segments

/-!
# Packaging the file system

The part of `package` in `xtask/src/main.rs` that is about the file system of the bundle: the directory `fs` of the
workspace is copied to the package, the directories that must be there are made, it is copied once more to where the
image is made from, its files are listed, and the boot loader is told to load each of them as a module.

A name on the host is a string of bytes. Building the kernel, calling the tools that make the image and what else
`package` writes to the disk are left out, and so are the failures of the host when it reads or writes.
-/

set_option autoImplicit false

namespace Afos

open Lib

abbrev OsName := Bytes

abbrev SourceDir := Directory OsName Bytes

/-- A directory that git is to keep has a file of this name. Whatever has the name is left out, be it a file, a
    directory or a link. -/
def gitkeep : OsName := asBytes ".gitkeep".toList

/-- Source name: `Path::display`, of a path below `root`. Bytes that are no text are shown as replacement
    characters. -/
def displayPath (root : Str) (path : List OsName) : Str := join (root :: path.map fromUtf8Lossy)

/-- What is copied of a directory at `path` below `source`. A link is an error, with its path in the text; what is
    neither file, directory nor link is passed over in silence. -/
def copyDirectory (source : Str) : List OsName → SourceDir → Except Str SourceDir
  | _, .nil => .ok .nil
  | path, .file name data rest =>
    if name = gitkeep then copyDirectory source path rest
    else do
      let rest ← copyDirectory source path rest
      .ok (.file name data rest)
  | path, .sub name inner rest =>
    if name = gitkeep then copyDirectory source path rest
    else do
      let inner ← copyDirectory source (path ++ [name]) inner
      let rest ← copyDirectory source path rest
      .ok (.sub name inner rest)
  | path, .link name rest =>
    if name = gitkeep then copyDirectory source path rest
    else .error ("package source may not contain symlinks: ".toList ++ displayPath source (path ++ [name]))
  | path, .other _ rest => copyDirectory source path rest

/-- The directories that `prepare_bundle_filesystem` makes, in its order. They are made after the copy, so that a
    workspace without them still has them in its bundle. -/
def bundleDirectories : List (List OsName) :=
  [["apps"], ["user", "config"], ["user", "saves"], ["user", "appdata"]].map
    (List.map fun name : String => asBytes name.toList)

/-- The directory `fs` of the package. A file of the workspace in the place of one of the directories is the one way
    in which making them fails here. -/
def prepareBundleFilesystem (source : Str) (directory : SourceDir) : Except Str SourceDir := do
  let filesystem ← copyDirectory source [] directory
  (bundleDirectories.foldlM (fun filesystem path => Directory.createDirAll path filesystem) filesystem).mapError
    Errno.display

/-- The directory `fs` of the image, which is a copy of the one of the package. The two copies are made by the same
    function and name different directories in their errors. -/
def stageFilesystem (workspace package : Str) (directory : SourceDir) : Except Str SourceDir := do
  let filesystem ← prepareBundleFilesystem (workspace ++ "/fs".toList) directory
  copyDirectory (package ++ "/fs".toList) [] filesystem

/-- The paths of the files, in the order in which the directory is read. Links cannot be here after the copy, and are
    tested for again all the same. -/
def collectFiles (root : Str) : List OsName → SourceDir → Except Str (List (List OsName))
  | _, .nil => .ok []
  | path, .file name _ rest =>
    if name = gitkeep then collectFiles root path rest
    else do
      let files ← collectFiles root path rest
      .ok ((path ++ [name]) :: files)
  | path, .sub name inner rest =>
    if name = gitkeep then collectFiles root path rest
    else do
      let inside ← collectFiles root (path ++ [name]) inner
      let files ← collectFiles root path rest
      .ok (inside ++ files)
  | path, .link name rest =>
    if name = gitkeep then collectFiles root path rest
    else .error ("filesystem source may not contain symlinks: ".toList ++ displayPath root (path ++ [name]))
  | path, .other _ rest => collectFiles root path rest

/-- The bytes of a relative path, with a slash between two names. -/
def pathBytes (path : List OsName) : Bytes := List.intercalate (asBytes ['/']) path

/-- The name under which a file is in the image. Backslashes become slashes, also where they are part of a name, and
    characters that would break a line of the configuration are refused. -/
def bundleName (root : Str) (path : List OsName) : Except Str Str :=
  match fromUtf8 (pathBytes path) with
  | none => .error ("non-UTF-8 filesystem path: ".toList ++ displayPath root path)
  | some text =>
    let relative := text.map fun c => if c = '\\' then '/' else c
    if relative.any fun c => c = '\n' ∨ c = '\r' ∨ c = '\x00' then
      .error ("unsupported filesystem path: ".toList ++ displayPath root path)
    else .ok ("fs/".toList ++ relative)

/-- The files of the bundle under their names in the image. Paths are sorted by their names, from the top down, before
    they become text; so the order is not always that of the texts. -/
def bundleFiles (root : Str) (directory : SourceDir) : Except Str (List Str) := do
  let files ← collectFiles root [] directory
  (files.insertionSort (· ≤ ·)).mapM (bundleName root)

def limineHeader : Str :=
  ("timeout: 0\nquiet: yes\nserial: yes\ninterface_branding: AFOS\n\n/AFOS\nprotocol: limine\n" ++
    "path: boot():/boot/afos.elf\n").toList

/-- The configuration of the boot loader: one entry, with two lines for each file. The path in the running system is
    the name in the image without its `fs`. -/
def limineConfig (files : List Str) : Str :=
  limineHeader ++ files.flatMap fun file =>
    let virtualPath := (stripPrefix "fs".toList file).getD file
    "module_path: boot():/".toList ++ file ++ "\nmodule_string: afos-file:".toList ++ virtualPath ++ "\n".toList

end Afos
