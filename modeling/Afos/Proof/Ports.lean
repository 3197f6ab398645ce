import Afos.Proof.Sockets

/-!
# Who has a local port

The next local port is the next number of a range of 16384, round and round, whoever has it. So the
connections have different ports as long as the counter does not come to a port that one of them
still has, and no longer: with one connection left open, it takes 16383 attempts that come to
nothing, and the next connection gets the port of the first.

Nothing else can go wrong with the ports. What `connect` leaves behind when it fails is no
connection's, so the condition is on the state alone, and it holds of every moment of a run, also
while a call is still running.
-/

set_option autoImplicit false

namespace Afos

open Lib

/-- The local port of a TCP socket that has been told to connect. The sockets for leases and queries have none
    here. -/
def Socket.localPort? : Socket → Option Nat
  | .tcp (some ends) => some ends.localPort
  | _ => none

namespace NetStack

/-- The local port of a connection, by the number the application has for it. -/
def localPort (s : NetStack) (id : Nat) : Option Nat :=
  (s.connections.lookup id).bind fun handle => (s.sockets.lookup handle).bind Socket.localPort?

/-- The connections have local ports of the range, and no two of them the same. Whom they are connected to is not part
    of it. -/
structure PortsApart (s : NetStack) : Prop where
  range : ∀ {id}, s.connections.contains id = true →
    ∃ port, s.localPort id = some port ∧ firstEphemeralPort ≤ port ∧ port < 2 ^ 16
  apart : ∀ {id id' port}, s.localPort id = some port → s.localPort id' = some port → id = id'

/-- What a run keeps: the bookkeeping of connections and sockets, the ports apart, and the counter in its range. -/
structure PortsKept (s : NetStack) : Prop extends Connected s, PortsApart s where
  next : firstEphemeralPort ≤ s.nextPort ∧ s.nextPort < 2 ^ 16

/-- Only connections have a local port, so a statement about every number is one about those in the table and can be
    decided. -/
theorem forall_localPort_ne_iff {s : NetStack} {port : Nat} :
    (∀ id, s.localPort id ≠ some port) ↔ ∀ id ∈ s.connections.keys, s.localPort id ≠ some port := by
  refine ⟨fun h id _ => h id, fun h id hid => ?_⟩
  cases hl : s.connections.lookup id with
  | none =>
    rw [localPort, hl] at hid
    cases hid
  | some handle =>
    exact h id (OrdMap.mem_keys_iff.mpr (OrdMap.contains_iff.mpr ⟨handle, hl⟩)) hid

theorem advance_range {port : Nat} (h : firstEphemeralPort ≤ port ∧ port < 2 ^ 16) :
    firstEphemeralPort ≤ advance port ∧ advance port < 2 ^ 16 := by
  rw [advance, firstEphemeralPort] at *
  split <;> omega

section Steps

variable {s s' : NetStack} {handle : SocketHandle}

theorem PortsKept.of_held (hs : s.PortsKept) (h : s'.held = s.held) : s'.PortsKept := by
  obtain ⟨_, _, _, rfl⟩ := exists_of_held h
  exact ⟨⟨hs.dhcp, hs.dns, hs.entry, hs.unshared⟩, ⟨hs.range, hs.apart⟩, hs.next⟩

theorem PortsKept.skipped (hs : s.PortsKept) : s.skipped.PortsKept :=
  ⟨⟨hs.dhcp, hs.dns, hs.entry, hs.unshared⟩, ⟨hs.range, hs.apart⟩, advance_range hs.next⟩

theorem PortsKept.querying (hs : s.PortsKept) (query : QueryHandle) : (s.querying query).PortsKept :=
  ⟨⟨hs.dhcp, hs.dns, hs.entry, hs.unshared⟩, ⟨hs.range, hs.apart⟩, hs.next⟩

/-- A socket that no connection has changes no connection's port. Attempts that are on the way, and those that were
    given up, are such sockets. -/
theorem localPort_dangling (hs : s.Connected) (hfresh : s.sockets.contains handle = false)
    (ends : Option Ends) (id : Nat) : (s.dangling handle ends).localPort id = s.localPort id := by
  cases hid : s.connections.lookup id with
  | none => simp only [localPort, dangling, skipped, hid, Option.bind_none]
  | some h =>
    simp only [localPort, dangling, skipped, hid, Option.bind_some, OrdMap.lookup_insert,
      if_neg (hs.ne_of_fresh hfresh hid)]

theorem PortsKept.dangling (hs : s.PortsKept) (hfresh : s.sockets.contains handle = false)
    (ends : Option Ends) : (s.dangling handle ends).PortsKept where
  toConnected := hs.toConnected.dangling hfresh ends
  range {id} hid := by
    rw [localPort_dangling hs.toConnected hfresh]
    exact hs.range hid
  apart {id id' port} h h' := by
    rw [localPort_dangling hs.toConnected hfresh] at h h'
    exact hs.apart h h'
  next := advance_range hs.next

theorem localPort_opened (hs : s.Connected) (hfresh : s.sockets.contains handle = false)
    (ends : Ends) (id : Nat) :
    (s.opened handle ends).localPort id =
      if s.nextHandle = id then some ends.localPort else s.localPort id := by
  simp only [localPort, opened, OrdMap.lookup_insert]
  split
  · simp only [Option.bind_some, if_pos, Socket.localPort?]
  · cases hid : s.connections.lookup id with
    | none => simp only [Option.bind_none]
    | some h => simp only [Option.bind_some, if_neg (hs.ne_of_fresh hfresh hid)]

/-- A new connection, with a port that none of the others has. The counter goes on, so the next one is another
    port. -/
theorem PortsKept.opened (hs : s.PortsKept) (hfresh : s.sockets.contains handle = false)
    {ends : Ends} (hport : ends.localPort = s.nextPort)
    (hfree : ∀ id, s.localPort id ≠ some s.nextPort) : (s.opened handle ends).PortsKept where
  toConnected := hs.toConnected.opened hfresh ends
  range {id} hid := by
    rw [localPort_opened hs.toConnected hfresh]
    split
    · exact ⟨s.nextPort, by rw [hport], hs.next⟩
    · -- one of the connections from before
      rename_i hne
      rw [NetStack.opened, OrdMap.contains_insert] at hid
      simp only [hne, decide_false, Bool.false_or] at hid
      exact hs.range hid
  apart {id id' port} h h' := by
    rw [localPort_opened hs.toConnected hfresh, hport] at h h'
    split at h
    -- the new one has a port that none of the others had
    case isTrue heq =>
      split at h'
      case isTrue heq' => exact heq.symm.trans heq'
      case isFalse => exact absurd (h'.trans h.symm) (hfree id')
    case isFalse =>
      split at h'
      case isTrue => exact absurd (h.trans h'.symm) (hfree id)
      case isFalse => exact hs.apart h h'
  next := advance_range hs.next

theorem localPort_closed (hs : s.Connected) {id : Nat}
    (hid : s.connections.lookup id = some handle) (id' : Nat) :
    (s.closed id handle).localPort id' = if id = id' then none else s.localPort id' := by
  simp only [localPort, closed, OrdMap.lookup_remove]
  split
  · rfl
  · rename_i hne
    cases hid' : s.connections.lookup id' with
    | none => simp only [Option.bind_none]
    | some h =>
      have hdiff : handle ≠ h := fun heq => hne (hs.unshared hid (heq ▸ hid'))
      simp only [Option.bind_some, if_neg hdiff]

/-- A closed connection gives its port back: it is no longer among those that a new one has to differ from. -/
theorem PortsKept.closed (hs : s.PortsKept) {id : Nat}
    (hid : s.connections.lookup id = some handle) : (s.closed id handle).PortsKept where
  toConnected := hs.toConnected.closed hid
  range {id'} hmem := by
    rw [NetStack.closed, OrdMap.contains_remove, Bool.and_eq_true, decide_eq_true_eq] at hmem
    rw [localPort_closed hs.toConnected hid, if_neg hmem.1]
    exact hs.range hmem.2
  apart {i i' port} h h' := by
    rw [localPort_closed hs.toConnected hid] at h h'
    -- the closed connection has no port any more; the others have theirs
    split at h
    · cases h
    · split at h'
      · cases h'
      · exact hs.apart h h'
  next := hs.next

theorem portsKept_new [Handles] : new.PortsKept :=
  ⟨accounted_new.toConnected, ⟨fun h => (by cases h), fun h => (by cases h)⟩,
    ⟨le_refl firstEphemeralPort, (by decide : firstEphemeralPort < 2 ^ 16)⟩⟩

end Steps

end NetStack

/-! ## Whole runs -/

namespace NetCall

section Runs

variable [Handles] {s : NetStack}

/-- A `connect` that gets to taking a port does not come to one that a connection still has. -/
def FindsFreePort (s : NetStack) : NetCall → Prop
  | connect host _ timeout e => s.Dials host timeout e → ∀ id, s.localPort id ≠ some s.nextPort
  | _ => True

instance (s : NetStack) (call : NetCall) : Decidable (call.FindsFreePort s) :=
  match call with
  | connect _ _ _ _ => decidable_of_iff' _ (imp_congr_right fun _ => NetStack.forall_localPort_ne_iff)
  | send _ _ _ | recv _ _ _ | close _ _ => isTrue trivial

/-- `connect`, by where it ends: with a connection, or with what it leaves behind when it fails. -/
theorem portsKept_connect (hs : s.PortsKept) {host : Str} {port : UInt16} {timeout : Nat} {e : Connecting}
    (hfree : (connect host port timeout e).FindsFreePort s) :
    ((connect host port timeout e).after s).PortsKept := by
  have hspec := NetStack.connect_spec s host port timeout e
  rw [after, run, Op.snd_map]
  cases hrun : NetStack.connect host port timeout e s with
  | mk out s' =>
    cases out with
    -- it is here that the port must be free
    | ok id =>
      obtain ⟨hdials, -, handle, ends, hfresh, hport, hheld⟩ := hspec.ok rfl hrun
      exact (hs.opened hfresh hport (hfree hdials)).of_held hheld
    | error x =>
      cases hspec.error rfl hrun with
      | nothing h => exact hs.of_held h
      | port h => exact hs.skipped.of_held h
      | query h why => exact (hs.querying _).of_held h
      | socket hfresh h why => exact (hs.dangling hfresh _).of_held h

theorem portsKept_after (hs : s.PortsKept) {call : NetCall} (hfree : call.FindsFreePort s) :
    (call.after s).PortsKept := by
  rcases after_cases call s with ⟨host, port, timeout, e, rfl⟩ | h | ⟨id, handle, hid, h⟩
  · exact portsKept_connect hs hfree
  · exact hs.of_held h
  · exact (hs.closed hid).of_held h

/-- At every moment of every run, the connections have different local ports of the range, as long as
    no `connect` of the run that gets to taking a port comes to one that a connection still has. -/
theorem ports_apart {calls : List NetCall}
    (hrun : Along after (fun s call => call.FindsFreePort s) NetStack.new calls) :
    (runFrom after NetStack.new calls).PortsApart :=
  (Along.invariant NetStack.PortsKept (fun _ _ hs h => portsKept_after hs h) hrun
    NetStack.portsKept_new).toPortsApart

/-! ## Once round the range -/

/-- A connection to a port of an address at which something answers, with a lease that comes at once and the handshake
    in one round. -/
def answered (port : UInt16) : NetCall :=
  connect "10.0.0.1".toList port 30000
    { start := 0, waiting := [⟨some lease, (), false, 1⟩], query := .ok (), resolving := []
      dial := .ok (), connecting := [⟨none, .established, false, 2⟩] }

/-- A connection to a port of the same address at which nothing answers. The socket shows `closed` in the first
    round. -/
def refused : NetCall :=
  connect "10.0.0.1".toList 81 30000
    { start := 0, waiting := [⟨some lease, (), false, 1⟩], query := .ok (), resolving := []
      dial := .ok (), connecting := [⟨none, .closed, false, 2⟩] }

/-- A refused attempt uses a port up and does nothing else: the socket that it added is removed again, and no number
    is given out. -/
theorem after_refused (hs : s.isConfigured = true) : refused.after s = s.skipped := by
  -- there is an address already, so the first wait is over at once
  have hlease : NetStack.awaitLease (deadlineAfter 0 30000) [⟨some lease, (), false, 1⟩] s =
      (.ok (), s) := by
    rw [NetStack.awaitLease, Op.run_bind, Op.run_read]
    simp only [hs, if_true, Op.run_pure]
  have hparse : parseIpv4 "10.0.0.1".toList = some #v[10, 0, 0, 1] := by decide
  -- the socket that was made for the attempt is taken out again
  have hafter : refused.after s =
      { s.skipped with
        sockets := ((s.sockets.insert (Handles.socket s.sockets) (.tcp none)).insert
          (Handles.socket s.sockets) (.tcp (some ⟨#v[10, 0, 0, 1], 81, s.nextPort⟩))).remove
            (Handles.socket s.sockets) } := by
    rw [after, refused, run, Op.snd_map, NetStack.connect, Op.run_bind_ok hlease, NetStack.resolve,
      hparse]
    rfl
  rw [hafter, OrdMap.insert_insert, OrdMap.remove_insert (Handles.socket_fresh s.sockets)]
  rfl

/-- Attempt after attempt refused, the port counter goes on by one each time and everything else stays as it is. -/
theorem runFrom_refused (hs : s.isConfigured = true) (n : Nat) :
    runFrom after s (List.replicate n refused) =
      { s with nextPort := NetStack.advance^[n] s.nextPort } := by
  induction n generalizing s with
  | zero => rfl
  | succ n ih =>
    have hskipped : s.skipped.isConfigured = true := hs
    rw [List.replicate_succ, runFrom, List.foldl_cons, after_refused hs]
    exact ih hskipped

end Runs

/-- Up to the end of the range the counter counts, by induction on the steps with the bound to spare. -/
theorem iterate_advance {n : Nat} (h : firstEphemeralPort + n < 2 ^ 16) :
    NetStack.advance^[n] firstEphemeralPort = firstEphemeralPort + n := by
  induction n with
  | zero => rfl
  | succ n ih =>
    rw [Function.iterate_succ_apply', ih (by omega), NetStack.advance, if_neg (by omega)]
    rfl

theorem iterate_advance_range :
    NetStack.advance^[16383 + 1] firstEphemeralPort = firstEphemeralPort := by
  rw [Function.iterate_succ_apply', iterate_advance (by decide)]
  decide

attribute [local instance] places

/-- One connection, refused attempts, and one connection to another port of the host. To the same port it would
    have both ends in common with the first, and then the answer of the host is for the first socket: what the two
    have in common here is the local port alone. -/
def around (n : Nat) : List NetCall := answered 80 :: (List.replicate n refused ++ [answered 443])

theorem runFrom_around {n : Nat}
    (hn : NetStack.advance^[n + 1] firstEphemeralPort = firstEphemeralPort) :
    runFrom after NetStack.new (around n) =
      (answered 443).after { (answered 80).after NetStack.new with nextPort := firstEphemeralPort } := by
  have hconfigured : ((answered 80).after NetStack.new).isConfigured = true := by decide +kernel
  have hnext : ((answered 80).after NetStack.new).nextPort = NetStack.advance firstEphemeralPort := by
    decide +kernel
  have hrefused := runFrom_refused hconfigured n
  rw [hnext, ← Function.iterate_succ_apply, hn] at hrefused
  rw [around, runFrom, List.foldl_cons, List.foldl_append]
  exact congrArg (fun s => after s (answered 443)) hrefused

/-- The second connection has the local port of the first, which is still open. -/
theorem port_given_twice :
    (runFrom after NetStack.new (around 16383)).localPort 1 = some 49152 ∧
      (runFrom after NetStack.new (around 16383)).localPort 2 = some 49152 ∧
      ¬ (runFrom after NetStack.new (around 16383)).PortsApart := by
  rw [runFrom_around iterate_advance_range]
  have hfirst : ((answered 443).after { (answered 80).after NetStack.new with
      nextPort := firstEphemeralPort }).localPort 1 = some 49152 := by decide +kernel
  have hsecond : ((answered 443).after { (answered 80).after NetStack.new with
      nextPort := firstEphemeralPort }).localPort 2 = some 49152 := by decide +kernel
  exact ⟨hfirst, hsecond, fun h => absurd (h.apart hfirst hsecond) (by decide)⟩

/-- Two connections, and a third after the first is closed. -/
theorem answered_three_times_apart :
    (runFrom after NetStack.new [answered 80, answered 80, close 1 none, answered 443]).PortsApart :=
  ports_apart ⟨by decide +kernel, by decide +kernel, trivial, by decide +kernel, trivial⟩

end NetCall

end Afos
