import Afos.Lib.Op
import Afos.Lib.Host
import Afos.Lib.Segments

/-!
# File system calls

The calls of a POSIX system on a `Host`, as Linux answers them and as a standard library that
passes absolute paths on wraps them. A path is walked one component at a time, from a directory
to its entry; a link on the way is replaced by the components of its text, at most `maxLinks`
times in one walk. The walk gives back how many more links it might have followed, so that
walking `xs ++ ys` *is* walking `xs` and then `ys` (`walk_append`).

What the last component of a path is allowed to be is each call's own matter. `canonicalize`
follows it, `mkdir` and `rename` do not, an `open` that may create follows it even to a name that
is not there yet; and a path that ends in a slash or in a dot asks for a directory. Permissions,
full disks and bounds on the length of a name are left out: a call fails here only for what the
tree looks like.
-/

set_option autoImplicit false

namespace Afos.Lib

/-- The ways a call can fail. `nul` is the refusal, before any call, of a path with a NUL in it; the others are
    answers of the system. -/
inductive Errno where
  | noEntry
  | busy
  | fileExists
  | notDirectory
  | isDirectory
  | invalid
  | notEmpty
  | tooManyLinks
  | nul
  deriving DecidableEq

namespace Errno

/-- The text of an error, with its number where the system has one for it. The refusal of a NUL is not the system's
    and has none. -/
def display : Errno → Str
  | .noEntry => "No such file or directory (os error 2)".toList
  | .busy => "Device or resource busy (os error 16)".toList
  | .fileExists => "File exists (os error 17)".toList
  | .notDirectory => "Not a directory (os error 20)".toList
  | .isDirectory => "Is a directory (os error 21)".toList
  | .invalid => "Invalid argument (os error 22)".toList
  | .notEmpty => "Directory not empty (os error 39)".toList
  | .tooManyLinks => "Too many levels of symbolic links (os error 40)".toList
  | .nul => "file name contained an unexpected NUL byte".toList

end Errno

/-- A step of a walk: stay, which takes a directory, go up, or go down to an entry. Going up from the root stays
    there. -/
inductive Component where
  | here
  | up
  | name (c : Str)
  deriving DecidableEq

/-- How the text of a path ends. The end decides whether a link in the last place is followed, so it cannot be dropped
    with the rest of the punctuation. -/
inductive Tail where
  | plain
  | slash
  | dot
  deriving DecidableEq

/-- An absolute path without `..`: its names, and its end. Links may still contain `..`, and are read when they are
    come to. -/
structure HostPath where
  names : List Str
  tail : Tail
  deriving DecidableEq

namespace HostPath

def hasNul (p : HostPath) : Bool := p.names.any fun c => c.contains '\x00'

/-- The components of a path, its end included: after a slash or a dot at the end there is one more step, which takes
    a directory. -/
def components (p : HostPath) : List Component :=
  p.names.map .name ++ (if p.tail = .plain then [] else [.here])

end HostPath

/-- The text of a link as components. Unlike the paths that are handed in, it may go up. -/
def component (c : Str) : Component :=
  if c = [] ∨ c = ".".toList then .here else if c = "..".toList then .up else .name c

def linkComponents (target : Str) : List Component := (target.splitOn '/').map component

/-- Where the text of a link in the directory `d` is read from: from the root if it is absolute, and otherwise from
    where the link is. -/
def linkStart (d : List Str) (target : Str) : List Str :=
  if target.head? = some '/' then [] else d

def maxLinks : Nat := 40

namespace Host

/-! ## Walking -/

/-- What the next component of a walk can do: end it, take it to a place, or put the components of
    a link in its way. -/
inductive Step where
  | fails (e : Errno)
  | enters (p : List Str)
  | follows (start : List Str) (cs : List Component)

/-- The next component of a walk that is at `cur`. Every step has to start in a directory, so a file in the middle of
    a path is found out by the step after it. -/
def step (h : Host) (cur : List Str) (x : Component) : Step :=
  if h.node cur ≠ some .dir then .fails .notDirectory
  else match x with
    | .here => .enters cur
    | .up => .enters cur.dropLast
    | .name c =>
        match h.node (cur ++ [c]) with
        | none => .fails .noEntry
        | some (.link target) => .follows (linkStart cur target) (linkComponents target)
        | some _ => .enters (cur ++ [c])

/-- What a walk comes to, and the number of links it had left, which the rest of a walk has to do with. -/
abbrev Walked := Except Errno (List Str × Nat)

/-- A walk from `cur`, up to the first link; `follow` goes on from there. The recursion is on the components alone,
    and following a link may make more of them. -/
def walkWith (h : Host) (follow : List Str → List Component → Walked) (left : Nat) :
    List Str → List Component → Walked
  | cur, [] => .ok (cur, left)
  | cur, x :: cs =>
      match h.step cur x with
      | .fails e => .error e
      | .enters p => walkWith h follow left p cs
      | .follows start target => follow start (target ++ cs)

/-- A walk from `cur` that may follow `left` links. The recursion is on the links, so a circle of them ends in an
    error and not in a loop. -/
def walk (h : Host) : Nat → List Str → List Component → Walked
  | 0 => walkWith h (fun _ _ => .error .tooManyLinks) 0
  | left + 1 => walkWith h (walk h left) (left + 1)

/-- The real path a path leads to. There is something at it, and it is no link. -/
def resolve (h : Host) (cs : List Component) : Except Errno (List Str) :=
  (h.walk maxLinks [] cs).map Prod.fst

def canonicalize (h : Host) (p : HostPath) : Except Errno (List Str) :=
  if p.hasNul then .error .nul else h.resolve p.components

/-- Source name: `Path::is_dir`. Links are followed, and whatever goes wrong on the way counts as a no. -/
def isDir (h : Host) (p : HostPath) : Bool :=
  match h.canonicalize p with
  | .ok d => h.node d = some .dir
  | .error _ => false

/-- The directory and the name that the last component of a path stands for; none where the last
    component is a dot, or where there is none. -/
def locate (h : Host) (p : HostPath) : Except Errno (Option (List Str × Str)) :=
  if p.hasNul then .error .nul
  else match p.names.getLast?, p.tail with
    | none, _ => .ok none
    | some _, .dot => (h.resolve p.components).map fun _ => none
    | some c, _ =>
        match h.resolve (p.names.dropLast.map .name) with
        | .error e => .error e
        | .ok d => if h.node d ≠ some .dir then .error .notDirectory else .ok (some (d, c))

/-- Source name: `symlink_metadata`. A path that ends in a slash or a dot is followed; any other one is looked at
    where it ends, so that a link can be seen. -/
def lstat (h : Host) (p : HostPath) : Except Errno Inode :=
  match p.tail with
  | .plain =>
      match h.locate p with
      | .error e => .error e
      | .ok none => .ok .dir
      | .ok (some (d, c)) =>
          match h.node (d ++ [c]) with
          | none => .error .noEntry
          | some n => .ok n
  | _ => (h.canonicalize p).map fun _ => .dir

/-! ## Calls -/

def readFile (h : Host) (p : HostPath) : Except Errno Bytes :=
  match h.canonicalize p with
  | .error e => .error e
  | .ok q =>
      match h.node q with
      | some (.file data) => .ok data
      | _ => .error .isDirectory

def readDir (h : Host) (p : HostPath) : Except Errno (List (Str × Inode)) :=
  match h.canonicalize p with
  | .error e => .error e
  | .ok d => if h.node d ≠ some .dir then .error .notDirectory else .ok (h.children d)

def mkdir (p : HostPath) : Op Errno Host Unit := fun h =>
  match h.locate p with
  | .error e => (.error e, h)
  | .ok none => (.error .fileExists, h)
  | .ok (some (d, c)) =>
      if h.node (d ++ [c]) = none then (.ok (), h.put d c .dir) else (.error .fileExists, h)

/-- Make a directory, and be content if there is one, also one at the end of a link. Any other failure is that of
    making it. -/
def ensureDir (p : HostPath) : Op Errno Host Unit := fun h =>
  match mkdir p h with
  | (.ok (), h') => (.ok (), h')
  | (.error e, h') => if h'.isDir p then (.ok (), h') else (.error e, h')

/-- `createDirAll`, on the names of the path from the last one up: the directory above is made only when making this
    one has failed for the lack of it. -/
def createUpwards : List Str → Tail → Op Errno Host Unit
  | [], tail => ensureDir ⟨[], tail⟩
  | c :: above, tail => fun h =>
      match mkdir ⟨(c :: above).reverse, tail⟩ h with
      | (.ok (), h') => (.ok (), h')
      | (.error .noEntry, h') =>
          (createUpwards above .plain >>= fun _ => ensureDir ⟨(c :: above).reverse, tail⟩) h'
      | (.error e, h') =>
          if h'.isDir ⟨(c :: above).reverse, tail⟩ then (.ok (), h') else (.error e, h')

def createDirAll (p : HostPath) : Op Errno Host Unit := createUpwards p.names.reverse p.tail

/-- The entry that an `open` which may create comes to. A link in the last place is followed, and
    what it leads to need not be there. -/
def openEntry (h : Host) : Nat → Nat → List Str → List Component → Except Errno (List Str × Str)
  | 0, _, _, _ => .error .tooManyLinks
  | fuel + 1, left, cur, cs =>
      match cs.getLast? with
      | some (.name c) =>
          match h.walk left cur cs.dropLast with
          | .error e => .error e
          | .ok (d, left) =>
              if h.node d ≠ some .dir then .error .notDirectory
              else match h.node (d ++ [c]), left with
                | some (.link _), 0 => .error .tooManyLinks
                | some (.link target), left + 1 =>
                    openEntry h fuel left (linkStart d target) (linkComponents target)
                | _, _ => .ok (d, c)
      | _ => .error .isDirectory

/-- Source name: `fs::write`. The file is made if it is not there, and emptied if it is. A link in the last place is
    followed. -/
def writeFile (p : HostPath) (data : Bytes) : Op Errno Host Unit := fun h =>
  if p.hasNul then (.error .nul, h)
  else match h.openEntry (maxLinks + 1) maxLinks [] p.components with
    | .error e => (.error e, h)
    | .ok (d, c) =>
        if h.node (d ++ [c]) = some .dir then (.error .isDirectory, h)
        else (.ok (), h.put d c (.file data))

def removeFile (p : HostPath) : Op Errno Host Unit := fun h =>
  match h.locate p with
  | .error e => (.error e, h)
  | .ok none => (.error .isDirectory, h)
  | .ok (some (d, c)) =>
      match h.node (d ++ [c]) with
      | none => (.error .noEntry, h)
      | some .dir => (.error .isDirectory, h)
      | some _ => if p.tail = .plain then (.ok (), h.prune (d ++ [c])) else (.error .notDirectory, h)

/-- Take away a directory with what is below it, where links are entries like others. The root and
    a dot are cleared, and then they cannot be taken away themselves. -/
def removeDirAll (p : HostPath) : Op Errno Host Unit := fun h =>
  match h.locate p with
  | .error e => (.error e, h)
  | .ok none => (.error .busy, h.clear ((h.resolve p.components).toOption.getD []))
  | .ok (some (d, c)) =>
      match h.node (d ++ [c]) with
      | none => (.error .noEntry, h)
      | some (.file _) => (.error .notDirectory, h)
      | some _ => (.ok (), h.prune (d ++ [c]))

/-- Whether an entry may take the place of what is at the target: a directory only that of an empty directory, and
    anything else only that of something that is no directory. -/
def displaces (h : Host) (n : Inode) (target : List Str) : Except Errno Unit :=
  match n, h.node target with
  | _, none => .ok ()
  | .dir, some .dir => if (h.children target).isEmpty then .ok () else .error .notEmpty
  | .dir, some _ => .error .notDirectory
  | _, some .dir => .error .isDirectory
  | _, some _ => .ok ()

/-- Source name: `fs::rename`. Links in the last place are moved and not followed, at both ends, and what is at the
    target goes. -/
def rename (source target : HostPath) : Op Errno Host Unit := fun h =>
  match h.locate source, h.locate target with
  | .error e, _ | _, .error e => (.error e, h)
  | .ok none, _ | _, .ok none => (.error .busy, h)
  | .ok (some (ds, cs)), .ok (some (dt, ct)) =>
      match h.node (ds ++ [cs]) with
      | none => (.error .noEntry, h)
      | some n =>
          if n ≠ .dir ∧ (source.tail ≠ .plain ∨ target.tail ≠ .plain) then (.error .notDirectory, h)
          else if ds ++ [cs] = dt ++ [ct] then (.ok (), h)
          else if (ds ++ [cs]).isPrefixOf (dt ++ [ct]) then (.error .invalid, h)
          else if (dt ++ [ct]).isPrefixOf (ds ++ [cs]) then (.error .notEmpty, h)
          else match h.displaces n (dt ++ [ct]) with
            | .error e => (.error e, h)
            | .ok () => (.ok (), h.relocate (ds ++ [cs]) dt ct)

end Host

end Afos.Lib
