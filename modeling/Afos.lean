import Afos.Lib.Op
import Afos.Lib.Trace
import Afos.Lib.OrdMap
import Afos.Lib.Text
import Afos.Lib.Segments
import Afos.Lib.LittleEndian
import Afos.Lib.Volatile
import Afos.Lib.Run
import Afos.Lib.Sim
import Afos.Lib.Host
import Afos.Lib.Posix
import Afos.Lib.Walk
import Afos.Lib.Triple
import Afos.Lib.Fold
import Afos.Lib.Utf8
import Afos.Lib.Hex
import Afos.Lib.Moves
import Afos.Lib.Lines
import Afos.Lib.Lossy
import Afos.Lib.Align
import Afos.Lib.Raw
import Afos.Lib.Checked
import Afos.Lib.Confined
import Afos.Lib.Tty
import Afos.Lib.Dialogue
import Afos.Lib.Paging
import Afos.Lib.Directory
import Afos.Api
import Afos.Recorded
import Afos.Vfs
import Afos.Security
import Afos.System
import Afos.Session
import Afos.Rhai
import Afos.Runtime
import Afos.App
import Afos.Shell
import Afos.Bundled
import Afos.Storage
import Afos.BareMetal
import Afos.Disk
import Afos.Desktop
import Afos.Net
import Afos.Heap
import Afos.Framebuffer
import Afos.Console
import Afos.DevicePage
import Afos.Package
import Afos.Boot
import Afos.Words
import Afos.Machine
import Afos.Power
import Afos.Proof.Tree
import Afos.Proof.StorageCalls
import Afos.Proof.Exact
import Afos.Proof.Containment
import Afos.Proof.Path
import Afos.Proof.Mirror
import Afos.Proof.Backends
import Afos.Proof.Effects
import Afos.Proof.Mediation
import Afos.Proof.Sessions
import Afos.Proof.Runtime
import Afos.Proof.Appdata
import Afos.Proof.Frame
import Afos.Proof.Verifier
import Afos.Proof.Verdict
import Afos.Proof.Throttle
import Afos.Proof.Lockout
import Afos.Proof.Login
import Afos.Proof.Layout
import Afos.Proof.Interchange
import Afos.Proof.Mounts
import Afos.Proof.Password
import Afos.Proof.Launch
import Afos.Proof.Resolve
import Afos.Proof.CommandLine
import Afos.Proof.Metadata
import Afos.Proof.Chunks
import Afos.Proof.Region
import Afos.Proof.Screen
import Afos.Proof.Console
import Afos.Proof.DevicePage
import Afos.Proof.Package
import Afos.Proof.Interactive
import Afos.Proof.Connections
import Afos.Proof.Lifetime
import Afos.Proof.Views
import Afos.Proof.Refusal
import Afos.Proof.Codec
import Afos.Proof.Slots
import Afos.Proof.Crash
import Afos.Proof.Durability
import Afos.Proof.Cancellation
import Afos.Proof.Boot
import Afos.Proof.Bundled
import Afos.Proof.Damage
import Afos.Proof.Reopen
import Afos.Proof.Corruption
import Afos.Proof.Listing
import Afos.Proof.Bounds
import Afos.Proof.Sockets
import Afos.Proof.Ports
