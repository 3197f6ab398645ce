import Afos.Lib.OrdMap
import Afos.Lib.Text
import Afos.Lib.Triple

/-!
# The network stack

`platforms/bare-metal/src/net.rs`: TCP connections under small numbers, over an interface and a set
of sockets that `smoltcp` keeps. Every call polls in a loop until the socket it waits for shows
something, the user cancels or the deadline passes.

What the outside does during a call is an argument of the call: the first reading of the clock, what
`smoltcp` answers, and for each loop one `Round` for each time round it. A call whose rounds are
spent is still running (`Exit.running`), with the stack as it is at that moment; a call that has
returned has an answer or a `NetError`. Of the sockets, the stack holds what accounting for them
takes: which handles are in the set, of what kind, with what local port, and which queries of the
DNS socket are outstanding. What poll does inside `smoltcp` is seen through the rounds only, and does
not add or remove sockets or queries.
-/

set_option autoImplicit false

namespace Afos

open Lib

/-! ## What `smoltcp` provides -/

abbrev SocketHandle := Nat

abbrev QueryHandle := Nat

abbrev Ipv4Address := Vector UInt8 4

structure Ipv4Cidr where
  address : Ipv4Address
  prefixLen : Nat
deriving DecidableEq, Repr

/-- The two ends of a TCP connection. The address of the near end is that of the interface and not kept with the
    socket; its port is the one that `allocatePort` gave out. -/
structure Ends where
  address : Ipv4Address
  port : UInt16
  localPort : Nat
deriving DecidableEq, Repr

/-- A socket of the set. A TCP socket has ends once it has been told to connect; one that has none was added to the
    set by a call that failed before that. -/
inductive Socket where
  | dhcp
  | dns
  | tcp (ends : Option Ends)
deriving DecidableEq, Repr

abbrev SocketSet := OrdMap SocketHandle Socket

/-- How handles are chosen is left to `smoltcp`; those that are taken are not chosen. Results hold for every choice,
    so none depends on handles being numbered in order or used again. -/
class Handles where
  socket : SocketSet → SocketHandle
  query : List QueryHandle → QueryHandle
  socket_fresh : ∀ sockets : SocketSet, sockets.contains (socket sockets) = false
  query_fresh : ∀ queries, query queries ∉ queries

inductive TcpState where
  | closed | listen | synSent | synReceived | established
  | finWait1 | finWait2 | closeWait | closing | lastAck | timeWait
deriving DecidableEq, Repr

/-- What the DNS socket says of a query. Both final answers release the query, and a pending one leaves it in the
    socket, also when the caller has stopped asking. -/
inductive QueryResult where
  | found (addresses : List Ipv4Address)
  | pending
  | failed (error : Str)
deriving DecidableEq, Repr

inductive DhcpEvent where
  | configured (address : Ipv4Cidr) (router : Option Ipv4Address) (dnsServers : List Ipv4Address)
  | deconfigured
deriving DecidableEq, Repr

/-- Once round a polling loop: the event that polling brings, what the socket that is waited for
    shows after it, whether the user cancels, and the time. -/
structure Round (α : Type) where
  event : Option DhcpEvent
  seen : α
  cancel : Bool
  clock : Nat

/-! ## The stack -/

inductive NetError where
  | noLease
  | nameResolution (message : Str)
  | timeout (message : Str)
  | cancelled
  | closed
  | socket (message : Str)
deriving DecidableEq, Repr

/-- Why a call has no answer: it failed, or it has not come to an end. Only the first is an error of the program; the
    second is where a loop is when the rounds that were given are spent. -/
inductive Exit where
  | failed (error : NetError)
  | running
deriving DecidableEq, Repr

def firstEphemeralPort : Nat := 49152

/-- The stack between two calls. `connections` is the table of the numbers that applications hold; the sockets are
    `smoltcp`'s, and a TCP socket that is not in the table by then cannot be closed by anyone. -/
structure NetStack where
  sockets : SocketSet
  queries : List QueryHandle
  dhcp : SocketHandle
  dns : SocketHandle
  connections : OrdMap Nat SocketHandle
  nextHandle : Nat
  nextPort : Nat
  address : Option Ipv4Cidr
  gateway : Option Ipv4Address
  dnsServers : List Ipv4Address
deriving DecidableEq

/-- The deadline of a call that starts at `now`, in 64 bits: the addition saturates, so a timeout that is too long
    never passes instead of having passed already. -/
def deadlineAfter (now timeout : Nat) : Nat := min (now + timeout) (2 ^ 64 - 1)

/-- Four numbers of eight bits with dots between them. Anything else is a name for the DNS socket, an address with too
    large a number included. -/
def parseIpv4 (value : Str) : Option Ipv4Address :=
  match value.splitOn '.' with
  | [a, b, c, d] => do
      let a ← parseU8 a
      let b ← parseU8 b
      let c ← parseU8 c
      let d ← parseU8 d
      pure #v[a, b, c, d]
  | _ => none

/-- What the outside does while `connect` runs: the reading of the clock that sets the deadline, the
    rounds of the wait for a lease, the answer of `start_query`, the rounds of the wait for its
    result, the answer of the TCP socket's `connect`, and the rounds of the wait for the handshake. -/
structure Connecting where
  start : Nat
  waiting : List (Round Unit)
  query : Except Str Unit
  resolving : List (Round QueryResult)
  dial : Except Str Unit
  connecting : List (Round TcpState)

namespace NetStack

/-- The local ports go round: after the last port of 16 bits comes the first of the ephemeral ones again, whether or
    not it is still in use. -/
def advance (port : Nat) : Nat :=
  if port = 2 ^ 16 - 1 then firstEphemeralPort else port + 1

/-- Polling, as far as it shows: the lease that an event brings or takes away. A lease that is taken
    away leaves the servers of the last one. -/
def poll (event : Option DhcpEvent) (s : NetStack) : NetStack :=
  match event with
  | some (.configured address router servers) =>
      { s with address := some address, gateway := router, dnsServers := servers }
  | some .deconfigured => { s with address := none, gateway := none }
  | none => s

def isConfigured (s : NetStack) : Bool := s.address.isSome

/-- Once round a loop: poll, look, and give up if the user cancels or it is too late. What is waited for is looked at
    first, so an answer that comes with the deadline is still taken. -/
def round {σ α : Type} (deadline : Nat) (late : NetError) (look : σ → Op Exit NetStack (Option α))
    (giveUp : NetStack → NetStack) (r : Round σ) : Op Exit NetStack (Option α) := do
  Op.modify (poll r.event)
  match ← look r.seen with
  | some a => pure (some a)
  | none =>
      if r.cancel then do
        Op.modify giveUp
        Op.throw (.failed .cancelled)
      else if deadline ≤ r.clock then do
        Op.modify giveUp
        Op.throw (.failed late)
      else pure none

/-- Round a polling loop. The five loops of the source differ in what they look at, in the error when it is too late,
    and in whether they clean up when they give up. -/
def pollUntil {σ α : Type} (deadline : Nat) (late : NetError)
    (look : σ → Op Exit NetStack (Option α)) (giveUp : NetStack → NetStack)
    (rounds : List (Round σ)) : Op Exit NetStack α :=
  Op.loop .running (round deadline late look giveUp) rounds

def allocatePort : Op Exit NetStack Nat := do
  let s ← Op.read
  Op.modify fun s => { s with nextPort := advance s.nextPort }
  pure s.nextPort

def removeSocket (handle : SocketHandle) (s : NetStack) : NetStack :=
  { s with sockets := s.sockets.remove handle }

def leased (_ : Unit) : Op Exit NetStack (Option Unit) := do
  let s ← Op.read
  pure (if s.isConfigured then some () else none)

/-- The first part of `connect`. With a lease there is nothing to wait for, and the stack is not polled even once. -/
def awaitLease (deadline : Nat) (rounds : List (Round Unit)) : Op Exit NetStack Unit := do
  let s ← Op.read
  if s.isConfigured then pure ()
  else pollUntil deadline .noLease leased (fun s => s) rounds

/-- The result of a query, which is released when it is the final one. The first address is taken; a name without one
    is an error of its own. -/
def queryResult (query : QueryHandle) (result : QueryResult) :
    Op Exit NetStack (Option Ipv4Address) :=
  match result with
  | .found addresses => do
      Op.modify fun s => { s with queries := s.queries.erase query }
      match addresses.head? with
      | some address => pure (some address)
      | none => Op.throw (.failed (.nameResolution "host has no IPv4 address".toList))
  | .pending => pure none
  | .failed error => do
      Op.modify fun s => { s with queries := s.queries.erase query }
      Op.throw (.failed (.nameResolution error))

variable [Handles]

/-- The two sockets that every stack has, and no connection. Numbers begin at 1, so 0 is never the number of a
    connection until they have gone all the way round. -/
def new : NetStack :=
  let dhcp := Handles.socket OrdMap.empty
  let sockets := (OrdMap.empty : SocketSet).insert dhcp .dhcp
  let dns := Handles.socket sockets
  { sockets := sockets.insert dns .dns
    queries := []
    dhcp := dhcp
    dns := dns
    connections := OrdMap.empty
    nextHandle := 1
    nextPort := firstEphemeralPort
    address := none
    gateway := none
    dnsServers := [] }

def startQuery (answer : Except Str Unit) : Op Exit NetStack QueryHandle := do
  let s ← Op.read
  match answer with
  | .error error => Op.throw (.failed (.nameResolution error))
  | .ok () => do
      let query := Handles.query s.queries
      Op.modify fun s => { s with queries := query :: s.queries }
      pure query

/-- The address of a host. A query that is cancelled or comes too late is not taken back: giving up does nothing here,
    and the DNS socket keeps it. -/
def resolve (host : Str) (deadline : Nat) (e : Connecting) : Op Exit NetStack Ipv4Address :=
  match parseIpv4 host with
  | some address => pure address
  | none => do
      let s ← Op.read
      if s.dnsServers.isEmpty then
        Op.throw (.failed (.nameResolution "no DNS server was offered by DHCP".toList))
      else do
        let query ← startQuery e.query
        pollUntil deadline (.timeout "DNS resolution timed out".toList) (queryResult query)
          (fun s => s) e.resolving

/-- A TCP socket without ends in a new place of the set. The set grows on the heap, so there is always one. -/
def addSocket : Op Exit NetStack SocketHandle := do
  let s ← Op.read
  let handle := Handles.socket s.sockets
  Op.modify fun s => { s with sockets := s.sockets.insert handle (.tcp none) }
  pure handle

/-- The TCP socket's own `connect`. Its error leaves through `?`, and the socket that was added a line before stays in
    the set. -/
def dial (handle : SocketHandle) (ends : Ends) (answer : Except Str Unit) :
    Op Exit NetStack Unit :=
  match answer with
  | .error error => Op.throw (.failed (.socket error))
  | .ok () => Op.modify fun s => { s with sockets := s.sockets.insert handle (.tcp (some ends)) }

/-- The state of the handshake. A refused one has its socket removed at once; the states between sending and being
    established are all the same to the loop. -/
def handshake (handle : SocketHandle) (state : TcpState) : Op Exit NetStack (Option Unit) :=
  if state = .established then pure (some ())
  else if state = .closed then do
    Op.modify (removeSocket handle)
    Op.throw (.failed (.socket "connection refused".toList))
  else pure none

/-- The new entry, under the next number of 64 bits. The sum wraps as it does in a release build. -/
def register (handle : SocketHandle) : Op Exit NetStack Nat := do
  let s ← Op.read
  Op.modify fun s =>
    { s with nextHandle := (s.nextHandle + 1) % 2 ^ 64
             connections := s.connections.insert s.nextHandle handle }
  pure s.nextHandle

/-- The whole of `connect`, with one deadline for its three waits: time spent on the lease is not there for the
    handshake. -/
def connect (host : Str) (port : UInt16) (timeout : Nat) (e : Connecting) :
    Op Exit NetStack Nat := do
  let deadline := deadlineAfter e.start timeout
  awaitLease deadline e.waiting
  let address ← resolve host deadline e
  let localPort ← allocatePort
  let handle ← addSocket
  dial handle ⟨address, port, localPort⟩ e.dial
  pollUntil deadline (.timeout "connection timed out".toList) (handshake handle)
    (removeSocket handle) e.connecting
  register handle

end NetStack

/-- What the outside does while `send` runs: the clock, what the socket shows in each round (whether
    it may send and whether it can now), the answer of `send_slice`, and what the last poll brings. -/
structure Sending where
  start : Nat
  rounds : List (Round (Bool × Bool))
  sent : Bytes → Except Str Nat
  event : Option DhcpEvent

/-- The same of `recv`: whether the socket can receive now and whether it still may, and the answer
    of `recv_slice`. -/
structure Receiving where
  start : Nat
  rounds : List (Round (Bool × Bool))
  received : Except Str Bytes

namespace NetStack

/-- The socket of a connection. A number that is not in the table is answered like a connection that the peer has
    closed. -/
def socketOf (id : Nat) : Op Exit NetStack SocketHandle := do
  let s ← Op.read
  match s.connections.lookup id with
  | some handle => pure handle
  | none => Op.throw (.failed .closed)

/-- What `send` looks at. A socket that may no longer send is an error at once; one that may, but has no room, is
    waited for. -/
def sendable (data : Bytes) (e : Sending) (seen : Bool × Bool) :
    Op Exit NetStack (Option Nat) :=
  if !seen.1 then Op.throw (.failed .closed)
  else if seen.2 then
    match e.sent data with
    | .error error => Op.throw (.failed (.socket error))
    | .ok written => do
        Op.modify (poll e.event)
        pure (some written)
  else pure none

def send (id : Nat) (data : Bytes) (e : Sending) : Op Exit NetStack Nat := do
  let _handle ← socketOf id
  pollUntil (deadlineAfter e.start 15000) (.timeout "send timed out".toList) (sendable data e)
    (fun s => s) e.rounds

/-- What `recv` looks at. Waiting bytes come first, so what arrived before the peer closed its half is still read, and
    only then is the end reported, as no bytes. -/
def receivable (size : Nat) (e : Receiving) (seen : Bool × Bool) :
    Op Exit NetStack (Option Bytes) :=
  if seen.1 then
    match e.received with
    | .error error => Op.throw (.failed (.socket error))
    | .ok data => pure (some (data.take size))
  -- the peer has closed its half
  else if !seen.2 then pure (some [])
  else pure none

/-- The bytes that `recv` puts into a buffer of `size` bytes. The deadline is fixed at 15 seconds, as that of `send`
    is, and no argument of the caller changes it. -/
def recv (id size : Nat) (e : Receiving) : Op Exit NetStack Bytes := do
  let _handle ← socketOf id
  pollUntil (deadlineAfter e.start 15000) (.timeout "receive timed out".toList)
    (receivable size e) (fun s => s) e.rounds

/-- The entry goes first and the socket last. A number that is not in the table is closed without an error. -/
def close (id : Nat) (event : Option DhcpEvent) : Op Exit NetStack Unit := do
  let s ← Op.read
  match s.connections.lookup id with
  | some handle => do
      Op.modify fun s => { s with connections := s.connections.remove id }
      Op.modify (poll event)
      Op.modify (removeSocket handle)
  | none => pure ()

end NetStack

/-! ## Calls -/

/-- A call, with what the outside does while it runs. A list of these is a run of the stack with everything that
    `smoltcp`, the clock and the user contribute to it. -/
inductive NetCall where
  | connect (host : Str) (port : UInt16) (timeout : Nat) (e : Connecting)
  | send (id : Nat) (data : Bytes) (e : Sending)
  | recv (id size : Nat) (e : Receiving)
  | close (id : Nat) (event : Option DhcpEvent)

/-- What a call answers when it has come to an end without an error, with the kind of the call told apart. -/
inductive NetAnswer where
  | connected (id : Nat)
  | sent (written : Nat)
  | received (data : Bytes)
  | done
deriving DecidableEq

namespace NetCall

variable [Handles]

def run : NetCall → Op Exit NetStack NetAnswer
  | connect host port timeout e => .connected <$> NetStack.connect host port timeout e
  | send id data e => .sent <$> NetStack.send id data e
  | recv id size e => .received <$> NetStack.recv id size e
  | close id event => (fun _ => .done) <$> NetStack.close id event

/-- The stack after a call, or where the call is, if it is still running. A call that failed has an after as well, and
    what it left behind is in it. -/
def after (s : NetStack) (call : NetCall) : NetStack := (call.run s).2

/-- The call comes to an end: with an answer or with an error, but not by running out of rounds. -/
def Returns (s : NetStack) (call : NetCall) : Prop := (call.run s).1 ≠ .error .running

instance (s : NetStack) (call : NetCall) : Decidable (call.Returns s) :=
  inferInstanceAs (Decidable (_ ≠ _))

end NetCall

end Afos
