import Afos.Lib.Run
import Afos.Net

/-!
# Who holds a socket

Every socket of the set has an owner: two of them the stack itself, the others a connection. What a
call can do to the sockets is said once, in `connect_spec` and `close_held`; sending and receiving do
nothing to them. `connect` opens exactly one socket for one new entry or leaves things as they were,
except on two of its ways out (`Left`): given up while the name is being looked up, it leaves the
query behind, and with its TCP socket refusing to connect it leaves the socket behind.
-/

set_option autoImplicit false

namespace Afos

open Lib

/-- The round is the last, whatever the socket shows: each loop of the source looks at the socket first, and if that
    settles nothing it polls for a cancellation and then compares the clock with the deadline. -/
def Round.GivesUp {σ : Type} (deadline : Nat) (r : Round σ) : Prop :=
  r.cancel = true ∨ deadline ≤ r.clock

/-- The first round that is not merely a wait for the result gives up on it. A result that comes in an earlier round,
    or in this one, is taken before the deadline is looked at. -/
def Abandons (deadline : Nat) : List (Round QueryResult) → Prop
  | [] => False
  | r :: rest => r.seen = .pending ∧ (r.GivesUp deadline ∨ Abandons deadline rest)

namespace NetStack

/-- All of the stack but the lease. Polling the stack changes the lease, as DHCP tells, and nothing else; so what a
    loop leaves alone is said as an equation between these. -/
def held (s : NetStack) :
    SocketSet × List QueryHandle × SocketHandle × SocketHandle × OrdMap Nat SocketHandle × Nat × Nat :=
  (s.sockets, s.queries, s.dhcp, s.dns, s.connections, s.nextHandle, s.nextPort)

@[simp] theorem held_poll (event : Option DhcpEvent) (s : NetStack) : (poll event s).held = s.held := by
  cases event with
  | none => rfl
  | some event => cases event <;> rfl

/-- Stacks that hold the same differ in the lease only. -/
theorem exists_of_held {s s' : NetStack} (h : s'.held = s.held) :
    ∃ address gateway servers,
      s' = { s with address := address, gateway := gateway, dnsServers := servers } := by
  refine ⟨s'.address, s'.gateway, s'.dnsServers, ?_⟩
  simp only [held, Prod.mk.injEq] at h
  obtain ⟨h1, h2, h3, h4, h5, h6, h7⟩ := h
  rw [← h1, ← h2, ← h3, ← h4, ← h5, ← h6, ← h7]

/-! ## Once round a loop -/

section Rounds

variable {σ α : Type} {deadline : Nat} {late : NetError} {look : σ → Op Exit NetStack (Option α)}
  {giveUp : NetStack → NetStack}

theorem keeps_round (hlook : ∀ x, Op.Keeps (Op.Same held) (look x))
    (hgiveUp : ∀ s, (giveUp s).held = s.held) (r : Round σ) :
    Op.Keeps (Op.Same held) (round deadline late look giveUp r) := by
  refine Op.Keeps.bind (fun s => held_poll r.event s) fun _ => Op.Keeps.bind (hlook r.seen) fun out => ?_
  cases out with
  | some a => exact Op.Keeps.pure _
  | none =>
    exact Op.Keeps.ite (Op.Keeps.bind hgiveUp fun _ => Op.Keeps.throw _)
      (Op.Keeps.ite (Op.Keeps.bind hgiveUp fun _ => Op.Keeps.throw _) (Op.Keeps.pure _))

theorem keeps_pollUntil (hlook : ∀ x, Op.Keeps (Op.Same held) (look x))
    (hgiveUp : ∀ s, (giveUp s).held = s.held) (rounds : List (Round σ)) :
    Op.Keeps (Op.Same held) (pollUntil deadline late look giveUp rounds) :=
  Op.Keeps.loop (keeps_round hlook hgiveUp) rounds

/-- A round, from what its look does and from what giving up does. `J` is what holds when the look has settled
    nothing, and `K` what the next round starts from; `E` has to hold on all ways out with an error. -/
theorem round_spec {P J K : NetStack → Prop} {Q : α → NetStack → Prop} {E : Exit → NetStack → Prop}
    {r : Round σ} (hpoll : ∀ s, P s → P (poll r.event s))
    (hlook : Op.Triple P (look r.seen) (Op.Turn Q J) E)
    (hgiveUp : ∀ error s, J s → r.GivesUp deadline → E (.failed error) (giveUp s))
    (hnext : ∀ s, J s → ¬ r.GivesUp deadline → K s) :
    Op.Triple P (round deadline late look giveUp r) (Op.Turn Q K) E := by
  refine Op.Triple.bind (Op.Triple.modify hpoll) fun _ => Op.Triple.bind hlook fun out => ?_
  cases out with
  | some a => exact Op.Triple.pure fun s hs => hs
  | none =>
    refine Op.Triple.ite (fun hc => ?_) fun hc => Op.Triple.ite (fun hd => ?_) fun hd => ?_
    · exact Op.Triple.bind (Op.Triple.modify fun s hs => hgiveUp .cancelled s hs (Or.inl hc))
        fun _ => Op.Triple.throw fun s hs => hs
    · exact Op.Triple.bind (Op.Triple.modify fun s hs => hgiveUp late s hs (Or.inr hd))
        fun _ => Op.Triple.throw fun s hs => hs
    · exact Op.Triple.pure fun s hs => hnext s hs fun hup => hup.elim hc hd

end Rounds

/-! ## Calls that leave the sockets alone -/

theorem keeps_socketOf (id : Nat) : Op.Keeps (Op.Same held) (socketOf id) := by
  refine Op.Keeps.bind Op.Keeps.read fun s => ?_
  split
  · exact Op.Keeps.pure _
  · exact Op.Keeps.throw _

theorem keeps_sendable (data : Bytes) (e : Sending) (seen : Bool × Bool) :
    Op.Keeps (Op.Same held) (sendable data e seen) := by
  refine Op.Keeps.ite (Op.Keeps.throw _) (Op.Keeps.ite ?_ (Op.Keeps.pure _))
  split
  · exact Op.Keeps.throw _
  · exact Op.Keeps.bind (held_poll e.event) fun _ => Op.Keeps.pure _

theorem keeps_receivable (size : Nat) (e : Receiving) (seen : Bool × Bool) :
    Op.Keeps (Op.Same held) (receivable size e seen) := by
  refine Op.Keeps.ite ?_ (Op.Keeps.ite (Op.Keeps.pure _) (Op.Keeps.pure _))
  split
  · exact Op.Keeps.throw _
  · exact Op.Keeps.pure _

theorem keeps_send (id : Nat) (data : Bytes) (e : Sending) :
    Op.Keeps (Op.Same held) (send id data e) :=
  Op.Keeps.bind (keeps_socketOf id) fun _ =>
    keeps_pollUntil (keeps_sendable data e) (fun _ => rfl) e.rounds

theorem keeps_recv (id size : Nat) (e : Receiving) : Op.Keeps (Op.Same held) (recv id size e) :=
  Op.Keeps.bind (keeps_socketOf id) fun _ =>
    keeps_pollUntil (keeps_receivable size e) (fun _ => rfl) e.rounds

theorem keeps_awaitLease (deadline : Nat) (rounds : List (Round Unit)) :
    Op.Keeps (Op.Same held) (awaitLease deadline rounds) :=
  Op.Keeps.bind Op.Keeps.read fun _ => Op.Keeps.ite (Op.Keeps.pure _)
    (keeps_pollUntil (fun _ => Op.Keeps.bind Op.Keeps.read fun _ => Op.Keeps.pure _) (fun _ => rfl)
      rounds)

/-! ## Closing -/

/-- The stack without a connection and its socket. -/
def closed (s : NetStack) (id : Nat) (handle : SocketHandle) : NetStack :=
  { s with connections := s.connections.remove id, sockets := s.sockets.remove handle }

theorem close_held (s : NetStack) (id : Nat) (event : Option DhcpEvent) :
    (close id event s).2.held = s.held ∧ s.connections.lookup id = none ∨
      ∃ handle, s.connections.lookup id = some handle ∧
        (close id event s).2.held = (s.closed id handle).held := by
  simp only [close]
  rw [Op.run_bind, Op.run_read]
  dsimp only
  cases h : s.connections.lookup id with
  | none => exact Or.inl ⟨rfl, rfl⟩
  | some handle =>
    refine Or.inr ⟨handle, rfl, ?_⟩
    cases event with
    | none => rfl
    | some event => cases event <;> rfl

/-! ## Connecting -/

/-- The stack with a new connection. -/
def opened (s : NetStack) (handle : SocketHandle) (ends : Ends) : NetStack :=
  { s with sockets := s.sockets.insert handle (.tcp (some ends))
           connections := s.connections.insert s.nextHandle handle
           nextHandle := (s.nextHandle + 1) % 2 ^ 64
           nextPort := advance s.nextPort }

/-- The stack with its next port used up. -/
def skipped (s : NetStack) : NetStack := { s with nextPort := advance s.nextPort }

/-- The stack with a TCP socket that no connection has. -/
def dangling (s : NetStack) (handle : SocketHandle) (ends : Option Ends) : NetStack :=
  { s.skipped with sockets := s.sockets.insert handle (.tcp ends) }

def querying (s : NetStack) (query : QueryHandle) : NetStack :=
  { s with queries := query :: s.queries }

section Stages

variable (s : NetStack) (host : Str) (timeout : Nat) (e : Connecting)

/-- A `connect` gets to asking a name server: there is a lease, now or in time, and a server came with it, and the
    host is a name. Whether the query is taken and what comes of it is not said. -/
def Queries : Prop :=
  parseIpv4 host = none ∧ (awaitLease (deadlineAfter e.start timeout) e.waiting s).1 = .ok () ∧
    (awaitLease (deadlineAfter e.start timeout) e.waiting s).2.dnsServers ≠ []

instance : Decidable (Queries s host timeout e) := inferInstanceAs (Decidable (_ ∧ _))

variable [Handles]

/-- `connect` up to the point where it takes a port. -/
def findAddress : Op Exit NetStack Ipv4Address := do
  awaitLease (deadlineAfter e.start timeout) e.waiting
  resolve host (deadlineAfter e.start timeout) e

/-- A `connect` gets to taking a port and opening a socket: it has a lease and an address to connect to. -/
def Dials : Prop := (findAddress host timeout e s).1.isOk = true

instance : Decidable (Dials s host timeout e) := inferInstanceAs (Decidable (_ = _))

end Stages

/-- What a `connect` without an answer leaves behind: nothing, or a port used up, or a query that is
    outstanding, because it is waiting for it or has given up on it, or a socket, because it is
    waiting for it or could not make it connect. A query is left only by a call that got to asking one, and a
    socket by one that got to opening one. -/
inductive Left [Handles] (s : NetStack) (host : Str) (timeout : Nat) (e : Connecting) : Exit → NetStack → Prop
  | nothing {x s'} (h : s'.held = s.held) : Left s host timeout e x s'
  | port {x s'} (h : s'.held = s.skipped.held) : Left s host timeout e x s'
  | query {x s' query} (h : s'.held = (s.querying query).held)
      (why : x = .running ∨ s.Queries host timeout e ∧ e.query = .ok () ∧
        Abandons (deadlineAfter e.start timeout) e.resolving) : Left s host timeout e x s'
  | socket {x s' handle ends} (fresh : s.sockets.contains handle = false)
      (h : s'.held = (s.dangling handle ends).held)
      (why : x = .running ∨ s.Dials host timeout e ∧ e.dial ≠ .ok ()) : Left s host timeout e x s'

/-- What a `connect` with an answer has done: one socket that was not in the set, one entry for it under the number
    that was next, and one port used up. -/
def Opened (s : NetStack) (id : Nat) (s' : NetStack) : Prop :=
  id = s.nextHandle ∧ ∃ handle ends, s.sockets.contains handle = false ∧
    ends.localPort = s.nextPort ∧ s'.held = (s.opened handle ends).held

section Connect

variable [Handles] {s : NetStack} {host : Str} {timeout : Nat} {e : Connecting}

/-- The final result of a query is taken and the query is gone. smoltcp frees the place of a query when its result is
    asked for and is not pending, whether or not there is an address in it. -/
theorem queryResult_spec {query : QueryHandle} (result : QueryResult) {J : Prop} :
    Op.Triple (fun s' => s'.held = (s.querying query).held ∧ J) (queryResult query result)
      (Op.Turn (fun _ s' => s'.held = s.held)
        fun s' => (s'.held = (s.querying query).held ∧ J) ∧ result = .pending)
      (Left s host timeout e) := by
  have htake : ∀ s' : NetStack, s'.held = (s.querying query).held ∧ J →
      ({ s' with queries := s'.queries.erase query } : NetStack).held = s.held := by
    rintro s' ⟨h, -⟩
    obtain ⟨_, _, _, rfl⟩ := exists_of_held h
    simp [held, querying]
  cases result with
  | pending => exact Op.Triple.pure fun s' hs => ⟨hs, rfl⟩
  | failed error =>
    exact Op.Triple.bind (R := fun _ s' => s'.held = s.held) (Op.Triple.modify htake)
      fun _ => Op.Triple.throw fun s' hs => .nothing hs
  | found addresses =>
    refine Op.Triple.bind (R := fun _ s' => s'.held = s.held) (Op.Triple.modify htake) fun _ => ?_
    cases addresses.head? with
    | some address => exact Op.Triple.pure fun s' hs => hs
    | none => exact Op.Triple.throw fun s' hs => .nothing hs

/-- The wait for the result of a query. On the way out through a cancellation or the deadline nothing takes the query
    back: the source has no call for it there. -/
theorem awaitResult_spec {query : QueryHandle} {late : NetError}
    (hqueries : s.Queries host timeout e) (hquery : e.query = .ok ()) :
    Op.Triple (fun s' => s'.held = (s.querying query).held)
      (pollUntil (deadlineAfter e.start timeout) late (queryResult query) (fun s' => s') e.resolving)
      (fun _ s' => s'.held = s.held) (Left s host timeout e) := by
  -- the invariant is over the rounds that are left: if those abandon the query, all of them together do
  have hrounds : Op.Triple
      (fun s' => s'.held = (s.querying query).held ∧
        (Abandons (deadlineAfter e.start timeout) e.resolving →
          Abandons (deadlineAfter e.start timeout) e.resolving))
      (pollUntil (deadlineAfter e.start timeout) late (queryResult query) (fun s' => s') e.resolving)
      (fun _ s' => s'.held = s.held) (Left s host timeout e) := by
    refine Op.Triple.loop (I := fun rounds (s' : NetStack) => s'.held = (s.querying query).held ∧
      (Abandons (deadlineAfter e.start timeout) rounds →
        Abandons (deadlineAfter e.start timeout) e.resolving)) (fun r rest => ?_) ?_ e.resolving
    · refine round_spec (fun s' hs => by rwa [held_poll]) (queryResult_spec r.seen) ?_ ?_
      · rintro error s' ⟨⟨hs, hmore⟩, hpending⟩ hup
        exact .query hs (Or.inr ⟨hqueries, hquery, hmore ⟨hpending, Or.inl hup⟩⟩)
      · rintro s' ⟨⟨hs, hmore⟩, hpending⟩ -
        exact ⟨hs, fun h => hmore ⟨hpending, Or.inr h⟩⟩
    · exact fun s' hs => .query hs.1 (Or.inl rfl)
  exact hrounds.mono (fun s' hs => ⟨hs, id⟩) (fun _ _ hs => hs) fun _ _ hs => hs

/-- The wait for the handshake. Here every way out but the one with a connection removes the socket, so that only the
    port is used up. -/
theorem awaitHandshake_spec {handle : SocketHandle} {ends : Ends} {deadline : Nat} {late : NetError}
    (hfresh : s.sockets.contains handle = false) (rounds : List (Round TcpState)) :
    Op.Triple (fun s' => s'.held = (s.dangling handle (some ends)).held)
      (pollUntil deadline late (handshake handle) (removeSocket handle) rounds)
      (fun _ s' => s'.held = (s.dangling handle (some ends)).held) (Left s host timeout e) := by
  have hremove : ∀ s' : NetStack, s'.held = (s.dangling handle (some ends)).held →
      (removeSocket handle s').held = s.skipped.held := by
    intro s' h
    obtain ⟨_, _, _, rfl⟩ := exists_of_held h
    simp only [held, removeSocket, dangling, skipped, OrdMap.remove_insert hfresh]
  refine Op.Triple.loop (I := fun _ (s' : NetStack) => s'.held = (s.dangling handle (some ends)).held)
    (fun r rest => ?_) (fun s' hs => .socket hfresh hs (Or.inl rfl)) rounds
  refine round_spec (J := fun s' => s'.held = (s.dangling handle (some ends)).held)
    (fun s' hs => by rwa [held_poll]) ?_ (fun error s' hs _ => .port (hremove s' hs))
    fun s' hs _ => hs
  refine Op.Triple.ite (fun _ => Op.Triple.pure fun s' hs => hs) fun _ =>
    Op.Triple.ite (fun _ => ?_) fun _ => Op.Triple.pure fun s' hs => hs
  exact Op.Triple.bind (R := fun _ s' => s'.held = s.skipped.held) (Op.Triple.modify hremove)
    fun _ => Op.Triple.throw fun s' hs => .port hs

/-- The call of smoltcp that starts a connection. Its error is passed on with `map_err` and `?`, and the socket that
    was added before it stays in the set. -/
theorem dial_spec {handle : SocketHandle} (hdials : s.Dials host timeout e)
    (hfresh : s.sockets.contains handle = false) (ends : Ends) :
    Op.Triple (fun s' => s'.held = (s.dangling handle none).held) (dial handle ends e.dial)
      (fun _ s' => s'.held = (s.dangling handle (some ends)).held) (Left s host timeout e) := by
  cases hdial : e.dial with
  | error error =>
    refine Op.Triple.throw fun s' hs => .socket hfresh hs (Or.inr ⟨hdials, ?_⟩)
    rw [hdial]
    exact fun h => by cases h
  | ok u =>
    refine Op.Triple.modify fun s' hs => ?_
    obtain ⟨_, _, _, rfl⟩ := exists_of_held hs
    simp only [held, dangling, skipped, OrdMap.insert_insert]

omit [Handles] in
/-- The entry of a connection, under the next number. Whether that number is in use is not tested. -/
theorem register_spec {handle : SocketHandle} (hfresh : s.sockets.contains handle = false)
    {ends : Ends} (hport : ends.localPort = s.nextPort) {E : Exit → NetStack → Prop} :
    Op.Triple (fun s' => s'.held = (s.dangling handle (some ends)).held) (register handle)
      (Opened s) E := by
  intro s' hs
  obtain ⟨_, _, _, rfl⟩ := exists_of_held hs
  exact ⟨rfl, handle, ends, hfresh, hport, rfl⟩

/-- The address of the host, looked up once there is a lease. -/
theorem resolve_spec :
    Op.Triple
      (fun s₁ => awaitLease (deadlineAfter e.start timeout) e.waiting s = (.ok (), s₁) ∧ s₁.held = s.held)
      (resolve host (deadlineAfter e.start timeout) e) (fun _ s' => s'.held = s.held) (Left s host timeout e) := by
  rw [resolve]
  cases hhost : parseIpv4 host with
  | some address => exact Op.Triple.pure fun s' hs => hs.2
  | none =>
    refine Op.Triple.read fun s₁ hs₁ => Op.Triple.ite (fun _ => ?_) fun hservers => ?_
    · exact Op.Triple.throw fun s' hs => .nothing (by rw [hs, hs₁.2])
    · have hqueries : s.Queries host timeout e := by
        rw [Queries, hs₁.1]
        exact ⟨hhost, rfl, fun h => hservers (List.isEmpty_iff.mpr h)⟩
      refine Op.Triple.bind (R := fun query s' => e.query = .ok () ∧
        s'.held = (s.querying query).held) ?_ fun query => ?_
      · refine Op.Triple.read fun s₂ hs₂ => ?_
        cases hquery : e.query with
        | error error => exact Op.Triple.throw fun s' hs => .nothing (by rw [hs, hs₂, hs₁.2])
        | ok u =>
          refine Op.Triple.bind (R := fun _ s' => s'.held = (s.querying (Handles.query s₂.queries)).held)
            (Op.Triple.modify fun s' hs => ?_) fun _ => Op.Triple.pure fun s' hs => ⟨rfl, hs⟩
          subst hs hs₂
          obtain ⟨_, _, _, rfl⟩ := exists_of_held hs₁.2
          rfl
      · by_cases hquery : e.query = .ok ()
        · exact (awaitResult_spec hqueries hquery).mono (fun _ hs => hs.2) (fun _ _ hs => hs)
            fun _ _ hs => hs
        · exact fun s' hs => absurd hs.1 hquery

/-- The first half of `connect` leaves everything as it was when it finds an address, and otherwise nothing or a
    query behind. -/
theorem findAddress_spec (s : NetStack) (host : Str) (timeout : Nat) (e : Connecting) :
    Op.Triple (fun s' => s' = s) (findAddress host timeout e)
      (fun _ s' => s.Dials host timeout e ∧ s'.held = s.held) (Left s host timeout e) := by
  have hlease := (keeps_awaitLease (deadlineAfter e.start timeout) e.waiting).triple s
  have hfind : Op.Triple (fun s' => s' = s) (findAddress host timeout e) (fun _ s' => s'.held = s.held)
      (Left s host timeout e) :=
    Op.Triple.bind (.of_cases (fun hs hx => ⟨hs ▸ hx, hlease.ok rfl (hs ▸ hx)⟩)
      fun hs hx => .nothing (hlease.error rfl (hs ▸ hx))) fun _ => resolve_spec
  refine .of_cases (fun hs hx => ⟨?_, hfind.ok hs hx⟩) fun hs hx => hfind.error hs hx
  rw [Dials, ← hs, hx]
  rfl

/-- The port and the socket of a new connection. From here on the port is used up, whatever comes of it. -/
theorem allocate_spec {E : Exit → NetStack → Prop} {α : Type} {f : Nat → SocketHandle → Op Exit NetStack α}
    {Q : α → NetStack → Prop}
    (hf : ∀ handle, s.sockets.contains handle = false →
      Op.Triple (fun s' => s'.held = (s.dangling handle none).held) (f s.nextPort handle) Q E) :
    Op.Triple (fun s' => s'.held = s.held)
      (do
        let localPort ← allocatePort
        let handle ← addSocket
        f localPort handle) Q E := by
  intro s' hs
  obtain ⟨_, _, _, rfl⟩ := exists_of_held hs
  exact hf (Handles.socket s.sockets) (Handles.socket_fresh s.sockets) _ rfl

/-- What `connect` does, in every case: with an answer it has opened a connection, and without one it has left
    something or nothing behind. Whatever is said of the sockets over a run follows from this and `close_held`. -/
theorem connect_spec (s : NetStack) (host : Str) (port : UInt16) (timeout : Nat) (e : Connecting) :
    Op.Triple (fun s' => s' = s) (connect host port timeout e)
      (fun id s' => s.Dials host timeout e ∧ Opened s id s') (Left s host timeout e) := by
  rw [connect, ← Op.bind_bind]
  refine Op.Triple.bind (findAddress_spec s host timeout e) fun address => ?_
  by_cases hdials : s.Dials host timeout e
  · refine (allocate_spec fun handle hfresh => Op.Triple.bind (dial_spec hdials hfresh _) fun _ =>
      Op.Triple.bind (awaitHandshake_spec hfresh e.connecting) fun _ => register_spec hfresh rfl).mono
        (fun _ hs => hs.2) (fun _ _ hs => ⟨hdials, hs⟩) fun _ _ hs => hs
  · exact fun s' hs => absurd hs.1 hdials

end Connect

/-! ## The accounts -/

/-- Every entry has a socket of its own, and the stack has its two. This half holds over all runs; the other, that
    there is nothing else in the set, is the one that a failed `connect` can break. -/
structure Connected (s : NetStack) : Prop where
  dhcp : s.sockets.lookup s.dhcp = some .dhcp
  dns : s.sockets.lookup s.dns = some .dns
  entry : ∀ {id handle}, s.connections.lookup id = some handle →
    ∃ ends, s.sockets.lookup handle = some (.tcp (some ends))
  unshared : ∀ {id id' handle}, s.connections.lookup id = some handle →
    s.connections.lookup id' = some handle → id = id'

/-- Nothing is in the set but these, and no query is outstanding. -/
structure Accounted (s : NetStack) : Prop extends Connected s where
  covered : ∀ {handle socket}, s.sockets.lookup handle = some socket →
    handle = s.dhcp ∨ handle = s.dns ∨ ∃ id, s.connections.lookup id = some handle
  quiet : s.queries = []

section Accounts

variable {s s' : NetStack} {handle : SocketHandle}

theorem Accounted.of_held (hs : s.Accounted) (h : s'.held = s.held) : s'.Accounted := by
  obtain ⟨_, _, _, rfl⟩ := exists_of_held h
  exact ⟨⟨hs.dhcp, hs.dns, hs.entry, hs.unshared⟩, hs.covered, hs.quiet⟩

/-- A socket that is not in the set is no connection's. -/
theorem Connected.ne_of_fresh (hs : s.Connected) (hfresh : s.sockets.contains handle = false)
    {id : Nat} {h : SocketHandle} (hid : s.connections.lookup id = some h) : handle ≠ h := by
  rintro rfl
  obtain ⟨ends, hl⟩ := hs.entry hid
  rw [OrdMap.contains_eq_false_iff.mp hfresh] at hl
  cases hl

theorem lookup_insert_of_fresh {m : SocketSet} {x : Socket} (hfresh : m.contains handle = false)
    {h : SocketHandle} {socket : Socket} (hl : m.lookup h = some socket) :
    (m.insert handle x).lookup h = some socket := by
  rw [OrdMap.lookup_insert, if_neg, hl]
  rintro rfl
  rw [OrdMap.contains_eq_false_iff.mp hfresh] at hl
  cases hl

theorem Connected.dangling (hs : s.Connected) (hfresh : s.sockets.contains handle = false)
    (ends : Option Ends) : (s.dangling handle ends).Connected where
  dhcp := lookup_insert_of_fresh hfresh hs.dhcp
  dns := lookup_insert_of_fresh hfresh hs.dns
  entry hid := (hs.entry hid).imp fun _ hl => lookup_insert_of_fresh hfresh hl
  unshared := hs.unshared

theorem Connected.opened (hs : s.Connected) (hfresh : s.sockets.contains handle = false)
    (ends : Ends) : (s.opened handle ends).Connected where
  dhcp := lookup_insert_of_fresh hfresh hs.dhcp
  dns := lookup_insert_of_fresh hfresh hs.dns
  entry {id h} hid := by
    rw [NetStack.opened, OrdMap.lookup_insert] at hid
    split at hid
    · cases hid
      exact ⟨ends, by rw [NetStack.opened, OrdMap.lookup_insert, if_pos rfl]⟩
    · exact (hs.entry hid).imp fun _ hl => lookup_insert_of_fresh hfresh hl
  unshared {id id' h} hid hid' := by
    -- two entries with one socket: both old, both the new one, or one of each, and then the socket was not new
    rw [NetStack.opened, OrdMap.lookup_insert] at hid hid'
    split at hid
    case isTrue heq =>
      split at hid'
      case isTrue heq' => exact heq.symm.trans heq'
      case isFalse => exact absurd (Option.some.inj hid) (hs.ne_of_fresh hfresh hid')
    case isFalse =>
      split at hid'
      case isTrue => exact absurd (Option.some.inj hid') (hs.ne_of_fresh hfresh hid)
      case isFalse => exact hs.unshared hid hid'

/-- A connection goes with its socket. The sockets of the other entries stay, since none of them is shared, and the
    stack's own do, since they are not TCP sockets. -/
theorem Connected.closed (hs : s.Connected) {id : Nat}
    (hid : s.connections.lookup id = some handle) : (s.closed id handle).Connected := by
  obtain ⟨ends, hends⟩ := hs.entry hid
  have hdhcp : handle ≠ s.dhcp := by
    rintro rfl
    rw [hs.dhcp] at hends
    cases hends
  have hdns : handle ≠ s.dns := by
    rintro rfl
    rw [hs.dns] at hends
    cases hends
  have hkeep : ∀ {h socket}, s.sockets.lookup h = some socket → handle ≠ h →
      (s.sockets.remove handle).lookup h = some socket := fun hl hne => by
    rw [OrdMap.lookup_remove, if_neg hne, hl]
  have hother : ∀ {i h}, (s.connections.remove id).lookup i = some h →
      id ≠ i ∧ s.connections.lookup i = some h := fun hl => by
    rw [OrdMap.lookup_remove] at hl
    split at hl
    · cases hl
    · exact ⟨‹_›, hl⟩
  exact
    { dhcp := hkeep hs.dhcp hdhcp
      dns := hkeep hs.dns hdns
      entry := fun hl => by
        obtain ⟨hne, hl⟩ := hother hl
        exact (hs.entry hl).imp fun _ hsocket =>
          hkeep hsocket fun heq => hne (hs.unshared hid (heq ▸ hl))
      unshared := fun hl hl' => hs.unshared (hother hl).2 (hother hl').2 }

/-- A new connection under a number that is not in use. If it were in use, the entry would be overwritten, and the
    socket of the old connection would have no owner any more. -/
theorem Accounted.opened (hs : s.Accounted) (hfresh : s.sockets.contains handle = false)
    (hfree : s.connections.contains s.nextHandle = false) (ends : Ends) :
    (s.opened handle ends).Accounted where
  toConnected := hs.toConnected.opened hfresh ends
  covered {h socket} hl := by
    rw [NetStack.opened, OrdMap.lookup_insert] at hl
    simp only [NetStack.opened, OrdMap.lookup_insert]
    split at hl
    case isTrue heq => exact Or.inr (Or.inr ⟨s.nextHandle, by rw [if_pos rfl, heq]⟩)
    case isFalse =>
      refine (hs.covered hl).imp_right (Or.imp_right fun ⟨id, hid⟩ => ⟨id, ?_⟩)
      rw [if_neg, hid]
      rintro rfl
      rw [OrdMap.contains_eq_false_iff.mp hfree] at hid
      cases hid
  quiet := hs.quiet

theorem Accounted.closed (hs : s.Accounted) {id : Nat}
    (hid : s.connections.lookup id = some handle) : (s.closed id handle).Accounted where
  toConnected := hs.toConnected.closed hid
  covered {h socket} hl := by
    rw [NetStack.closed, OrdMap.lookup_remove] at hl
    simp only [NetStack.closed, OrdMap.lookup_remove]
    split at hl
    · cases hl
    · rename_i hne
      refine (hs.covered hl).imp_right (Or.imp_right fun ⟨i, hi⟩ => ⟨i, ?_⟩)
      rw [if_neg, hi]
      rintro rfl
      exact hne (Option.some.inj (hid.symm.trans hi))
  quiet := hs.quiet

theorem accounted_new [Handles] : new.Accounted where
  dhcp := by
    refine lookup_insert_of_fresh (Handles.socket_fresh _) ?_
    rw [OrdMap.lookup_insert]
    exact if_pos rfl
  dns := by rw [new, OrdMap.lookup_insert, if_pos rfl]
  entry hid := by cases hid
  unshared hid := by cases hid
  covered {h socket} hl := by
    simp only [new, OrdMap.lookup_insert, OrdMap.lookup_empty] at hl
    split at hl
    case isTrue heq => exact Or.inr (Or.inl heq.symm)
    case isFalse =>
      split at hl
      case isTrue heq => exact Or.inl heq.symm
      case isFalse => cases hl
  quiet := rfl

end Accounts

end NetStack

/-! ## Whole runs -/

namespace NetCall

variable [Handles] {s : NetStack}

/-- A `connect` that is not made to leave anything: if it gets to asking a name server, it is not given up before
    the answer, and if it gets to opening a socket, the socket does not refuse to connect and the number of the new
    connection is not in use. Of a call that gets to neither, as for want of a lease, nothing is asked. -/
def Clean (s : NetStack) : NetCall → Prop
  | connect host _ timeout e =>
      ¬ (s.Queries host timeout e ∧ e.query = .ok () ∧ Abandons (deadlineAfter e.start timeout) e.resolving) ∧
        (s.Dials host timeout e → e.dial = .ok () ∧ s.connections.contains s.nextHandle = false)
  | _ => True

theorem accounted_connect (hs : s.Accounted) {host : Str} {port : UInt16} {timeout : Nat}
    {e : Connecting} (hret : (connect host port timeout e).Returns s)
    (hclean : (connect host port timeout e).Clean s) :
    ((connect host port timeout e).after s).Accounted := by
  obtain ⟨hquery, hdial⟩ := hclean
  have hspec := NetStack.connect_spec s host port timeout e
  rw [Returns, run, Op.fst_map] at hret
  rw [after, run, Op.snd_map]
  cases hrun : NetStack.connect host port timeout e s with
  | mk out s' =>
    rw [hrun] at hret
    cases out with
    | ok id =>
      obtain ⟨hdials, -, handle, ends, hfresh, -, hheld⟩ := hspec.ok rfl hrun
      exact (hs.opened hfresh (hdial hdials).2 ends).of_held hheld
    | error x =>
      have hx : x ≠ .running := fun hx => hret (by rw [hx]; rfl)
      -- of the four things that can be left, two are nobody's, and these are excluded by the condition
      cases hspec.error rfl hrun with
      | nothing h => exact hs.of_held h
      | port h =>
        have hskip : s.skipped.Accounted :=
          ⟨⟨hs.dhcp, hs.dns, hs.entry, hs.unshared⟩, hs.covered, hs.quiet⟩
        exact hskip.of_held h
      | query h why => exact absurd (why.resolve_left hx) hquery
      | socket hfresh h why =>
        obtain ⟨hdials, hrefused⟩ := why.resolve_left hx
        exact absurd (hdial hdials).1 hrefused

/-- A call that does not connect leaves what is held as it is, or takes one connection out. For a property of what is
    held, `connect` and `close` are the only two steps there are. -/
theorem after_cases (call : NetCall) (s : NetStack) :
    (∃ host port timeout e, call = connect host port timeout e) ∨ (call.after s).held = s.held ∨
      ∃ id handle, s.connections.lookup id = some handle ∧ (call.after s).held = (s.closed id handle).held := by
  cases call with
  | connect host port timeout e => exact Or.inl ⟨host, port, timeout, e, rfl⟩
  | send id data e =>
    rw [after, run, Op.snd_map]
    exact Or.inr (Or.inl (NetStack.keeps_send id data e s))
  | recv id size e =>
    rw [after, run, Op.snd_map]
    exact Or.inr (Or.inl (NetStack.keeps_recv id size e s))
  | close id event =>
    rw [after, run, Op.snd_map]
    exact Or.inr ((NetStack.close_held s id event).imp And.left fun h => ⟨id, h⟩)

theorem accounted_after (hs : s.Accounted) {call : NetCall} (hret : call.Returns s)
    (hclean : call.Clean s) : (call.after s).Accounted := by
  rcases after_cases call s with ⟨host, port, timeout, e, rfl⟩ | h | ⟨id, handle, hid, h⟩
  · exact accounted_connect hs hret hclean
  · exact hs.of_held h
  · exact (hs.closed hid).of_held h

/-- After every call of every run, whatever it returned, each socket has its owner and no query is outstanding, as
    long as no `connect` of the run is made to leave something. A socket that is left behind keeps its buffers, and
    nothing in the stack can get hold of it again to remove it. -/
theorem sockets_accounted {calls : List NetCall}
    (hrun : Along after (fun s call => call.Returns s ∧ call.Clean s) NetStack.new calls) :
    (runFrom after NetStack.new calls).Accounted :=
  Along.invariant NetStack.Accounted (fun _ _ hs h => accounted_after hs h.1 h.2) hrun
    NetStack.accounted_new

end NetCall

/-! ## Two ways to leave something -/

/-- The lowest number that is not taken. Among one more numbers than are taken there is one. -/
def firstFree (taken : List Nat) : Nat :=
  ((List.range (taken.length + 1)).find? fun n => n ∉ taken).getD 0

theorem firstFree_not_mem (taken : List Nat) : firstFree taken ∉ taken := by
  rw [firstFree]
  cases h : (List.range (taken.length + 1)).find? fun n => n ∉ taken with
  | some n => simpa using List.find?_some h
  | none =>
    have hall : List.range (taken.length + 1) ⊆ taken := fun n hn => by
      simpa using List.find?_eq_none.mp h n hn
    have hlength := (List.nodup_range.subperm hall).length_le
    rw [List.length_range] at hlength
    exact absurd hlength (by omega)

/-- The handles of sockets and of queries are indices, and a new one takes the first free place. -/
@[reducible] def places : Handles where
  socket sockets := firstFree sockets.keys
  query := firstFree
  socket_fresh sockets := by
    rw [← Bool.not_eq_true, ← OrdMap.mem_keys_iff]
    exact firstFree_not_mem _
  query_fresh := firstFree_not_mem

attribute [local instance] places

namespace NetCall

/-- An address, a router and a name server. -/
def lease : DhcpEvent := .configured ⟨#v[10, 0, 0, 2], 24⟩ (some #v[10, 0, 0, 1]) [#v[10, 0, 0, 1]]

/-- To port 0 of an address, to which no TCP socket connects. -/
def toPortZero : NetCall :=
  connect "10.0.0.1".toList 0 30000
    { start := 0, waiting := [⟨some lease, (), false, 1⟩], query := .ok (), resolving := []
      dial := .error "Unaddressable".toList, connecting := [] }

/-- To a name, with the user cancelling before the name server has answered. -/
def toSlowName : NetCall :=
  connect "example".toList 80 30000
    { start := 0, waiting := [⟨some lease, (), false, 1⟩], query := .ok ()
      resolving := [⟨none, .pending, true, 2⟩], dial := .ok (), connecting := [] }

/-- Both calls return an error. The first leaves a TCP socket in the set that no connection has, and
    the second leaves its query outstanding. -/
theorem failed_connects_leave_resources :
    (toPortZero.run NetStack.new).1 = .error (.failed (.socket "Unaddressable".toList)) ∧
      (toPortZero.after NetStack.new).sockets.lookup 2 = some (.tcp none) ∧
      (toPortZero.after NetStack.new).connections = OrdMap.empty ∧
      ¬ (toPortZero.after NetStack.new).Accounted ∧
      (toSlowName.run NetStack.new).1 = .error (.failed .cancelled) ∧
      (toSlowName.after NetStack.new).queries = [0] ∧
      ¬ (toSlowName.after NetStack.new).Accounted := by
  have hsocket : (toPortZero.after NetStack.new).sockets.lookup 2 = some (.tcp none) := by
    decide +kernel
  have hnone : (toPortZero.after NetStack.new).connections = OrdMap.empty := by decide +kernel
  have hquery : (toSlowName.after NetStack.new).queries = [0] := by decide +kernel
  refine ⟨by decide +kernel, hsocket, hnone, fun h => ?_, by decide +kernel, hquery, fun h => ?_⟩
  · rcases h.covered hsocket with hdhcp | hdns | ⟨id, hid⟩
    · exact absurd hdhcp (by decide +kernel)
    · exact absurd hdns (by decide +kernel)
    · rw [hnone] at hid
      cases hid
  · exact absurd (hquery.symm.trans h.quiet) (by decide)

/-- A connection is opened, used and closed. -/
def visit : List NetCall :=
  [connect "10.0.0.1".toList 80 30000
    { start := 0, waiting := [⟨some lease, (), false, 1⟩], query := .ok (), resolving := []
      dial := .ok (), connecting := [⟨none, .synSent, false, 2⟩, ⟨none, .established, false, 3⟩] },
   send 1 [71] { start := 4, rounds := [⟨none, (true, true), false, 5⟩], sent := fun data => .ok data.length
                 event := none },
   recv 1 16 { start := 6, rounds := [⟨none, (false, true), false, 7⟩, ⟨none, (true, true), false, 8⟩]
               received := .ok [72] },
   close 1 none]

theorem visit_accounted : (runFrom after NetStack.new visit).Accounted := by
  refine sockets_accounted ⟨⟨by decide +kernel, fun h => ?_, by decide +kernel⟩,
    ⟨by decide +kernel, trivial⟩, ⟨by decide +kernel, trivial⟩, ⟨by decide +kernel, trivial⟩, trivial⟩
  exact absurd h.1.1 (by decide)

end NetCall

/-! ## Calls come to an end -/

namespace NetStack

/-- The operation comes to an end, from every state. In the model a loop that has used up the rounds it was given
    answers `running`; to come to an end is not to answer that. -/
def Halts {α : Type} (x : Op Exit NetStack α) : Prop :=
  Op.Triple (fun _ => True) x (fun _ _ => True) fun x _ => x ≠ .running

theorem Halts.pure {α : Type} (a : α) : Halts (Pure.pure a) := fun _ _ => trivial

theorem Halts.throw {α : Type} (error : NetError) : Halts (Op.throw (.failed error) : Op _ _ α) :=
  Op.Triple.throw fun _ _ h => by cases h

theorem Halts.modify (f : NetStack → NetStack) : Halts (Op.modify f) := fun _ _ => trivial

theorem Halts.read : Halts Op.read := fun _ _ => trivial

theorem Halts.bind {α β : Type} {x : Op Exit NetStack α} {f : α → Op Exit NetStack β} (hx : Halts x)
    (hf : ∀ a, Halts (f a)) : Halts (x >>= f) := Op.Triple.bind hx hf

theorem Halts.ite {α : Type} {c : Prop} [Decidable c] {x y : Op Exit NetStack α} (hx : Halts x)
    (hy : Halts y) : Halts (if c then x else y) := Op.Triple.ite (fun _ => hx) fun _ => hy

/-- Some round is the last. -/
def Bounded {σ : Type} (deadline : Nat) (rounds : List (Round σ)) : Prop :=
  ∃ r ∈ rounds, r.GivesUp deadline

/-- A polling loop ends once the user cancels or the deadline has passed, provided that looking at the socket comes
    to an end. The rounds behind the last are never looked at. -/
theorem Halts.pollUntil {σ α : Type} {deadline : Nat} {late : NetError}
    {look : σ → Op Exit NetStack (Option α)} {giveUp : NetStack → NetStack}
    (hlook : ∀ x, Halts (look x)) {rounds : List (Round σ)} (h : Bounded deadline rounds) :
    Halts (pollUntil deadline late look giveUp rounds) := by
  have hloop : Op.Triple (fun _ => Bounded deadline rounds)
      (NetStack.pollUntil deadline late look giveUp rounds) (fun _ _ => True)
      fun x _ => x ≠ .running := by
    -- the rounds that are left always have one that gives up, so they are never used up
    refine Op.Triple.loop (I := fun rounds _ => Bounded deadline rounds) (fun r rest => ?_) ?_ rounds
    · refine round_spec (J := fun _ => Bounded deadline (r :: rest)) (fun _ hs => hs) ?_
        (fun error s _ _ h => by cases h) fun s hs hno => ?_
      · intro s hs
        cases hrun : look r.seen s with
        | mk out s' =>
          cases out with
          | error x => exact (hlook r.seen).error trivial hrun
          | ok out =>
            cases out with
            | none => exact hs
            | some a => exact trivial
      · obtain ⟨r', hmem, hup⟩ := hs
        rcases List.mem_cons.mp hmem with rfl | hrest
        · exact absurd hup hno
        · exact ⟨r', hrest, hup⟩
    · rintro s ⟨r, hmem, -⟩
      cases hmem
  exact hloop.mono (fun _ _ => h) (fun _ _ hs => hs) fun _ _ hs => hs

theorem Halts.queryResult (query : QueryHandle) (result : QueryResult) :
    Halts (queryResult query result) := by
  cases result with
  | pending => exact Halts.pure _
  | failed error => exact (Halts.modify _).bind fun _ => Halts.throw _
  | found addresses =>
    refine (Halts.modify _).bind fun _ => ?_
    cases addresses.head? with
    | some address => exact Halts.pure _
    | none => exact Halts.throw _

theorem Halts.handshake (handle : SocketHandle) (state : TcpState) : Halts (handshake handle state) :=
  .ite (.pure _) (.ite ((Halts.modify _).bind fun _ => Halts.throw _) (.pure _))

/-- The loops of `send` and `recv` are entered only for an open connection. -/
theorem Halts.attached {α : Type} {s : NetStack} {id : Nat} {x : Op Exit NetStack α}
    (h : s.connections.contains id = true → Halts x) :
    Op.Triple (fun s' => s' = s) (socketOf id >>= fun _ => x) (fun _ _ => True) fun x _ => x ≠ .running := by
  refine Op.Triple.bind (R := fun _ _ => s.connections.contains id = true) ?_ fun _ => ?_
  · refine Op.Triple.read fun s₁ hs₁ => ?_
    rw [hs₁]
    cases hid : s.connections.lookup id with
    | none => exact Op.Triple.throw fun _ _ h => by cases h
    | some handle => exact Op.Triple.pure fun _ _ => OrdMap.contains_iff.mpr ⟨handle, hid⟩
  · by_cases hid : s.connections.contains id = true
    · exact (h hid).mono (fun _ _ => trivial) (fun _ _ hs => hs) fun _ _ hs => hs
    · exact fun _ hs => absurd hs hid

theorem Halts.sendable (data : Bytes) (e : Sending) (seen : Bool × Bool) :
    Halts (sendable data e seen) := by
  refine .ite (.throw _) (.ite ?_ (.pure _))
  split
  · exact Halts.throw _
  · exact (Halts.modify _).bind fun _ => Halts.pure _

theorem Halts.receivable (size : Nat) (e : Receiving) (seen : Bool × Bool) :
    Halts (receivable size e seen) := by
  refine .ite ?_ (.ite (.pure _) (.pure _))
  split
  · exact Halts.throw _
  · exact Halts.pure _

theorem Halts.awaitLease {deadline : Nat} {rounds : List (Round Unit)} {s : NetStack}
    (h : s.isConfigured = false → Bounded deadline rounds) :
    Op.Triple (fun s' => s' = s) (awaitLease deadline rounds) (fun _ _ => True) fun x _ => x ≠ .running := by
  refine Op.Triple.read fun s₁ hs₁ => Op.Triple.ite (fun _ => Op.Triple.pure fun _ _ => trivial) fun hno => ?_
  rw [hs₁, Bool.not_eq_true] at hno
  exact (Halts.pollUntil (fun _ => Halts.read.bind fun _ => Halts.pure _) (h hno)).mono (fun _ _ => trivial)
    (fun _ _ hs => hs) fun _ _ hs => hs

section Connect

variable [Handles] {s : NetStack} {host : Str} {timeout : Nat} {e : Connecting}

theorem Halts.resolve
    (h : s.Queries host timeout e → e.query = .ok () → Bounded (deadlineAfter e.start timeout) e.resolving) :
    Op.Triple (fun s₁ => NetStack.awaitLease (deadlineAfter e.start timeout) e.waiting s = (.ok (), s₁))
      (resolve host (deadlineAfter e.start timeout) e) (fun _ _ => True) fun x _ => x ≠ .running := by
  rw [NetStack.resolve]
  cases hhost : parseIpv4 host with
  | some address => exact Op.Triple.pure fun _ _ => trivial
  | none =>
    refine Op.Triple.read fun s₁ hs₁ => Op.Triple.ite (fun _ => Op.Triple.throw fun _ _ h => by cases h)
      fun hservers => ?_
    have hqueries : s.Queries host timeout e := by
      rw [Queries, hs₁]
      exact ⟨hhost, rfl, fun h => hservers (List.isEmpty_iff.mpr h)⟩
    -- the loop is entered only with a query that was taken
    refine Op.Triple.bind (R := fun _ _ => e.query = .ok ()) ?_ fun query => ?_
    · refine Op.Triple.read fun _ _ => ?_
      cases e.query with
      | error error => exact Op.Triple.throw fun _ _ h => by cases h
      | ok u => exact Op.Triple.bind (R := fun _ _ => True) (Op.Triple.modify fun _ _ => trivial) fun _ =>
          Op.Triple.pure fun _ _ => rfl
    · by_cases hquery : e.query = .ok ()
      · exact (Halts.pollUntil (Halts.queryResult query) (h hqueries hquery)).mono (fun _ _ => trivial)
          (fun _ _ hs => hs) fun _ _ hs => hs
      · exact fun _ hs => absurd hs hquery

theorem Halts.findAddress (hwaiting : s.isConfigured = false → Bounded (deadlineAfter e.start timeout) e.waiting)
    (hresolving : s.Queries host timeout e → e.query = .ok () →
      Bounded (deadlineAfter e.start timeout) e.resolving) :
    Op.Triple (fun s' => s' = s) (findAddress host timeout e) (fun _ _ => s.Dials host timeout e)
      fun x _ => x ≠ .running := by
  have hlease := Halts.awaitLease hwaiting
  have hfind : Op.Triple (fun s' => s' = s) (NetStack.findAddress host timeout e) (fun _ _ => True)
      fun x _ => x ≠ .running :=
    Op.Triple.bind (.of_cases (fun hs hx => hs ▸ hx) fun hs hx => hlease.error hs hx) fun _ =>
      Halts.resolve hresolving
  refine .of_cases (fun hs hx => ?_) fun hs hx => hfind.error hs hx
  rw [Dials, ← hs, hx]
  rfl

/-- The three loops of `connect`, each bounded if it is entered: the first only without a lease, the second only with
    a query that was taken, the third only with a socket that is connecting. -/
theorem Halts.connect (hwaiting : s.isConfigured = false → Bounded (deadlineAfter e.start timeout) e.waiting)
    (hresolving : s.Queries host timeout e → e.query = .ok () →
      Bounded (deadlineAfter e.start timeout) e.resolving)
    (hconnecting : s.Dials host timeout e → e.dial = .ok () →
      Bounded (deadlineAfter e.start timeout) e.connecting) (port : UInt16) :
    Op.Triple (fun s' => s' = s) (connect host port timeout e) (fun _ _ => True) fun x _ => x ≠ .running := by
  rw [NetStack.connect, ← Op.bind_bind]
  refine Op.Triple.bind (Halts.findAddress hwaiting hresolving) fun address => ?_
  by_cases hdials : s.Dials host timeout e
  · have hrest : ∀ localPort handle, Halts (do
        dial handle ⟨address, port, localPort⟩ e.dial
        NetStack.pollUntil (deadlineAfter e.start timeout) (.timeout "connection timed out".toList)
          (NetStack.handshake handle) (removeSocket handle) e.connecting
        register handle) := by
      intro localPort handle
      cases hdial : e.dial with
      | error error =>
        exact Op.Triple.bind (R := fun _ _ => False) (Op.Triple.throw fun _ _ h => by cases h) fun _ _ hs => hs.elim
      | ok u =>
        exact (Halts.modify _).bind fun _ => (Halts.pollUntil (Halts.handshake handle)
          (hconnecting hdials hdial)).bind fun _ => Halts.read.bind fun _ => (Halts.modify _).bind fun _ => Halts.pure _
    refine Op.Triple.mono (Halts.bind ?_ fun localPort => Halts.bind ?_ fun handle => hrest localPort handle)
      (fun _ _ => trivial) (fun _ _ hs => hs) fun _ _ hs => hs
    · exact Halts.read.bind fun _ => (Halts.modify _).bind fun _ => Halts.pure _
    · exact Halts.read.bind fun _ => (Halts.modify _).bind fun _ => Halts.pure _
  · exact fun _ hs => absurd hs hdials

end Connect

theorem Halts.close (id : Nat) (event : Option DhcpEvent) : Halts (close id event) := by
  refine Halts.read.bind fun s => ?_
  split
  · exact (Halts.modify _).bind fun _ => (Halts.modify _).bind fun _ => Halts.modify _
  · exact Halts.pure _

end NetStack

namespace NetCall

section Returning

variable [Handles]

/-- In each loop that the call gets to there comes a round in which the user cancels or the time is up. The user
    need not ever cancel: a clock that goes on brings such a round by itself. -/
def Bounded (s : NetStack) : NetCall → Prop
  | connect host _ timeout e =>
      (s.isConfigured = false → NetStack.Bounded (deadlineAfter e.start timeout) e.waiting) ∧
        (s.Queries host timeout e → e.query = .ok () →
          NetStack.Bounded (deadlineAfter e.start timeout) e.resolving) ∧
        (s.Dials host timeout e → e.dial = .ok () →
          NetStack.Bounded (deadlineAfter e.start timeout) e.connecting)
  | send id _ e => s.connections.contains id = true → NetStack.Bounded (deadlineAfter e.start 15000) e.rounds
  | recv id _ e => s.connections.contains id = true → NetStack.Bounded (deadlineAfter e.start 15000) e.rounds
  | close _ _ => True

/-- No call outlasts its deadline, whatever the stack is like when it is made and whatever the network does: once
    the clock has got there, the loop that the call is in is left, and no loop is entered again. -/
theorem returns_of_bounded {s : NetStack} {call : NetCall} (h : call.Bounded s) : call.Returns s := by
  have hhalts : Op.Triple (fun s' => s' = s) call.run (fun _ _ => True) fun x _ => x ≠ .running := by
    cases call with
    | connect host port timeout e => exact (NetStack.Halts.connect h.1 h.2.1 h.2.2 port).map fun _ _ hs => hs
    | send id data e =>
      exact (NetStack.Halts.attached fun hid =>
        NetStack.Halts.pollUntil (NetStack.Halts.sendable data e) (h hid)).map fun _ _ hs => hs
    | recv id size e =>
      exact (NetStack.Halts.attached fun hid =>
        NetStack.Halts.pollUntil (NetStack.Halts.receivable size e) (h hid)).map fun _ _ hs => hs
    | close id event =>
      exact (Op.Triple.mono (NetStack.Halts.close id event) (fun _ _ => trivial) (fun _ _ hs => hs)
        fun _ _ hs => hs).map fun _ _ hs => hs
  exact fun hrunning => hhalts.error rfl (Prod.ext hrunning rfl) rfl

end Returning

/-- To a name whose server does not answer in the half minute that the call has. -/
def unanswered : NetCall :=
  connect "example".toList 80 30000
    { start := 0, waiting := [⟨some lease, (), false, 1⟩, ⟨none, (), false, 30000⟩], query := .ok ()
      resolving := [⟨none, .pending, false, 2⟩, ⟨none, .pending, false, 30000⟩], dial := .ok (), connecting := [] }

theorem unanswered_returns :
    unanswered.Returns NetStack.new ∧
      (unanswered.run NetStack.new).1 = .error (.failed (.timeout "DNS resolution timed out".toList)) := by
  refine ⟨returns_of_bounded ⟨fun _ => ?_, fun _ _ => ?_, fun hdials => ?_⟩, by decide +kernel⟩
  · exact ⟨⟨none, (), false, 30000⟩, by simp, Or.inr (by decide)⟩
  · exact ⟨⟨none, .pending, false, 30000⟩, by simp, Or.inr (by decide)⟩
  · exact absurd hdials (by decide +kernel)

end NetCall

end Afos
