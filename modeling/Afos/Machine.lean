import Afos.BareMetal
import Afos.Security

/-!
# A machine to evaluate on

The smallest bare-metal machine: no disk, no network, no entropy device, and a keyboard whose
lines have been typed in advance. Counterexamples and instances of the general results are
evaluated on it.
-/

set_option autoImplicit false

namespace Afos

open Lib

/-- The block device of a machine that has none. No platform here holds one; the type is there because a platform has
    a type of devices even when it has no device. -/
structure NoDisk where
  deriving DecidableEq

def noDiskError : StorageError := .device "no disk".toList

instance : BlockDevice NoDisk where
  blockCount _ := 0
  readBlocks _ _ := Op.throw noDiskError
  writeBlocks _ _ := Op.throw noDiskError
  flush := Op.throw noDiskError

/-- A console with its input typed in advance; past the end it reads empty lines. What is written to it is not
    kept. -/
structure Keyboard where
  lines : List Str
  deriving DecidableEq

/-- Source name: `net_unavailable`, of the bare-metal platform. -/
def noNetworkDevice : Error := .unsupported "no network device is available".toList

instance : Hardware Keyboard where
  consoleWrite _ k := k
  consoleReadLine _ _ k := (k.lines.headD [], ⟨k.lines.tail⟩)
  consoleClear k := k
  pollCancel k := (false, k)
  counter k := (0, k)
  entropy _ k := (none, k)
  hardwareRandom n k := (some (Vector.replicate n 0), k)
  netStatus := Op.throw noNetworkDevice
  netConnect _ _ := Op.throw noNetworkDevice
  netSend _ _ := Op.throw noNetworkDevice
  netRecv _ _ := Op.throw noNetworkDevice
  netClose _ := Op.throw noNetworkDevice
  version := "0.2.0".toList
  architecture := "x86_64".toList

/-- Hardware at which nobody types anything, with a network device or without one. Every line that is read is empty,
    so every question is answered with no. -/
structure Unattended (wired : Bool) where
  deriving DecidableEq

/-- The state of the network device, if there is one. -/
def wiredStatus : NetStatus where
  linkUp := true
  mac := "02:00:00:00:00:01".toList
  address := none
  gateway := none

instance (wired : Bool) : Hardware (Unattended wired) where
  consoleWrite _ h := h
  consoleReadLine _ _ h := ([], h)
  consoleClear h := h
  pollCancel h := (false, h)
  counter h := (0, h)
  entropy _ h := (none, h)
  hardwareRandom n h := (some (Vector.replicate n 0), h)
  netStatus := if wired then pure wiredStatus else Op.throw noNetworkDevice
  netConnect _ _ := Op.throw noNetworkDevice
  netSend _ _ := Op.throw noNetworkDevice
  netRecv _ _ := Op.throw noNetworkDevice
  netClose _ := Op.throw noNetworkDevice
  version := "0.2.0".toList
  architecture := "x86_64".toList

/-- Hardware whose counter stands at a value, whatever is done in the meantime. Nothing else about it differs from the
    others. -/
structure Ticking where
  count : Nat
  deriving DecidableEq

instance : Hardware Ticking where
  consoleWrite _ h := h
  consoleReadLine _ _ h := ([], h)
  consoleClear h := h
  pollCancel h := (false, h)
  counter h := (h.count, h)
  entropy _ h := (none, h)
  hardwareRandom n h := (some (Vector.replicate n 0), h)
  netStatus := Op.throw noNetworkDevice
  netConnect _ _ := Op.throw noNetworkDevice
  netSend _ _ := Op.throw noNetworkDevice
  netRecv _ _ := Op.throw noNetworkDevice
  netClose _ := Op.throw noNetworkDevice
  version := "0.2.0".toList
  architecture := "x86_64".toList

/-- A machine without a disk that has been running on this tree. Its counter has stood still since it was started. -/
def diskless (tree : FileTree) (lines : List Str) : BareMetalPlatform NoDisk Keyboard :=
  { tree, persistence := none, hardware := ⟨lines⟩, started := 0, counterFrequency := 1 }

/-- A tree with the directory of the user and a file in it, which says `hi`. -/
def noteTree : FileTree :=
  (FileTree.empty.insertDir "user".toList).insertFile "user/a".toList (asBytes "hi".toList)

/-- A backend that agrees to everything and remembers nothing: every path is there, every file is empty, and every
    write is answered with `Ok`. -/
structure Obliging where
  deriving DecidableEq

instance : Platform Obliging where
  consoleWrite _ := pure ()
  consoleReadLine _ _ := pure []
  consoleClear := pure ()
  storageRead _ := pure []
  storageWrite _ _ := pure ()
  storageList _ := pure []
  storageCreateDirAll _ := pure ()
  storageRemove _ := pure ()
  storageRename _ _ := pure ()
  storageExists _ := pure true
  monotonicMillis s := (0, s)
  fillRandom n := pure (Vector.replicate n 0)
  systemInfo s := (⟨[], [], [], []⟩, s)

/-- The same with a network: every connection comes about, with the next number, and can be closed. -/
structure Switchboard where
  next : Nat
  deriving DecidableEq

instance : Platform Switchboard where
  consoleWrite _ := pure ()
  consoleReadLine _ _ := pure []
  consoleClear := pure ()
  storageRead _ := pure []
  storageWrite _ _ := pure ()
  storageList _ := pure []
  storageCreateDirAll _ := pure ()
  storageRemove _ := pure ()
  storageRename _ _ := pure ()
  storageExists _ := pure true
  monotonicMillis s := (0, s)
  fillRandom n := pure (Vector.replicate n 0)
  systemInfo s := (⟨[], [], [], []⟩, s)
  netConnect _ _ s := (.ok s.next, ⟨s.next + 1⟩)
  netClose _ := pure ()

/-- A backend with a connection on which these bytes are waiting. Each call takes as many of them as fit its
    buffer. -/
structure Feed where
  stream : Bytes
  deriving DecidableEq

instance : Platform Feed where
  consoleWrite _ := pure ()
  consoleReadLine _ _ := pure []
  consoleClear := pure ()
  storageRead _ := pure []
  storageWrite _ _ := pure ()
  storageList _ := pure []
  storageCreateDirAll _ := pure ()
  storageRemove _ := pure ()
  storageRename _ _ := pure ()
  storageExists _ := pure true
  monotonicMillis s := (0, s)
  fillRandom n := pure (Vector.replicate n 0)
  systemInfo s := (⟨[], [], [], []⟩, s)
  netRecv _ max s :=
    (.ok (min max s.stream.length, Vector.ofFn fun i => s.stream.getD i 0), ⟨s.stream.drop max⟩)

/-- A stand-in for the hash, for runs on fixed passwords: it tells apart what differs in length, modulo 256, and does
    not look at the salt. -/
@[reducible] def lengthArgon2 : Argon2 where
  hashPassword password _ := .ok (List.replicate 32 (UInt8.ofNat password.length))
  length_hashPassword h := by
    obtain rfl := Except.ok.inj h
    exact List.length_replicate

end Afos
