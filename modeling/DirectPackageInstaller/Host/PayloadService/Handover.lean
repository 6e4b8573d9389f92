import DirectPackageInstaller.Lib.Table
import DirectPackageInstaller.Lib.Transition

/-!
# The hand-over of packages to the console

Two parties share TCP connections that the console opens.  The PC accepts
them into `Queue`; `SendPKGPayload` takes the head of the queue, writes one
record to it and gives the connection back with `ReturnToQueue`.  On the
console `main` repeats `get_pkg_info`, which connects, reads one record and
closes.

The listener loops and the calls of `SendPKGPayload` run on different threads,
so a step is one statement of one of them: `Queue` and `ClientRunning` are read
and written in different steps.  What is one step although it is more than one
statement: a listener is created and bound, and a listener is closed and forgotten.
`StopServer` is not part of the model.

A record is named by the call of `SendPKGPayload` that writes it.  The PC
does not notice that the console has closed a connection: `Connected` is the
state of the last operation, so it stays true until a write fails, and a
write to a closed connection may complete locally.
-/

namespace DirectPackageInstaller.PayloadService

/-- How far `get_pkg_info` is with its connection. -/
inductive Peer
  /-- It waits for a record. -/
  | waiting
  /-- It has read its record. -/
  | served
  /-- It has closed the connection. -/
  | closed
deriving DecidableEq, Repr

/-- One TCP connection. -/
structure Connection where
  peer : Peer
  /-- The records that have arrived at the console and are not read. -/
  inbox : List Nat
  /-- The records that the PC has written, oldest first. -/
  carried : List Nat
  /-- `Socket.Connected` on the PC. -/
  connected : Bool
deriving DecidableEq, Repr

/-- How far a call of `SendPKGPayload` is.  `again` says of `EnsureServer` that it is
called in the loop that waits for a connection. -/
inductive Call
  /-- Before the `if (!ServerRunning)` of `EnsureServer`. -/
  | starting (again : Bool)
  /-- Before `if (ServiceSocket == null)`. -/
  | binding (again : Bool)
  /-- Before `ServerRunning = true`. -/
  | serving (again : Bool)
  /-- Before `TryConnectSocket`. -/
  | connecting (again : Bool)
  /-- Before `EnsureClient`. -/
  | ensuring
  /-- In the loop that waits for a connection. -/
  | waiting
  /-- Before `ServiceSocket?.Dispose()`. -/
  | dropping
  /-- Before `ServerRunning = false`. -/
  | stopping
  /-- Before `Queue.Dequeue()`. -/
  | dequeuing
  /-- Before `Queue.Count > 0`, with the connection that it has dequeued. -/
  | counting (connection : Nat)
  /-- Before `ClientRunning` is assigned. -/
  | storing (connection : Nat) (running : Bool)
  /-- Before `SendAsync`. -/
  | writing (connection : Nat)
  /-- `SendAsync` has completed. -/
  | written (connection : Nat)
  /-- In `ReturnToQueue`, before `Queue.Count > 0`. -/
  | recounting
  /-- In `ReturnToQueue`, before `ClientRunning` is assigned. -/
  | restoring (running : Bool)
  | returned (result : Bool)
  /-- An exception was thrown, with this connection in hand. -/
  | threw (connection : Option Nat)
deriving DecidableEq, Repr

/-- How far a `ServerLoop` is. -/
inductive ServerLoop
  | accepting
  /-- Before `Queue.Enqueue(ClientSocket)`. -/
  | enqueuing (connection : Nat)
  /-- Before `Queue.Count > 0`. -/
  | counting
  /-- Before `ClientRunning` is assigned. -/
  | storing (running : Bool)
  /-- Before `while (ServerRunning)`. -/
  | testing
  /-- Before `ServiceSocket?.Close()`. -/
  | closing
  | ended
deriving DecidableEq, Repr

structure State where
  connections : List Connection
  /-- Connections that the listener has not accepted yet. -/
  backlog : List Nat
  /-- Connections that were lost with a listener that was dropped. -/
  reset : List Nat
  /-- `Queue`. -/
  queue : List Nat
  /-- `ClientRunning`. -/
  clientRunning : Bool
  /-- `ServerRunning`. -/
  serverRunning : Bool
  /-- `ServiceSocket`, and whether it listens. -/
  serviceSocket : Option Bool
  loops : List ServerLoop
  calls : List Call
  /-- The payloads that run on the console, each with the connection that its
  `get_pkg_info` holds. -/
  clients : List (Option Nat)
  /-- The records that the console has read. -/
  reads : List Nat
deriving DecidableEq, Repr

def init : State where
  connections := []
  backlog := []
  reset := []
  queue := []
  clientRunning := false
  serverRunning := false
  serviceSocket := none
  loops := []
  calls := []
  clients := []
  reads := []

inductive Label
  /-- `SendPKGPayload` is called. -/
  | send
  /-- The next statement of a call.  `ok` says that what it relies on works: the listener
  is bound, the payload's connection is made, the payload is sent, the record is built;
  and of the loop that waits that it is over. -/
  | go (call : Nat) (ok : Bool)
  /-- `SendAsync`; on a connection that the console has closed it may
  complete or fail. -/
  | write (call : Nat) (completes : Bool)
  /-- The next statement of a `ServerLoop`.  `ok` says that `AcceptAsync` returns. -/
  | serverLoop (i : Nat) (ok : Bool)
  /-- `get_pkg_info` connects. -/
  | connect (client : Nat)
  /-- `get_pkg_info` reads a record. -/
  | read (client : Nat)
  /-- `get_pkg_info` closes its connection and returns to `main`. -/
  | close (client : Nat)
deriving DecidableEq, Repr

/-! ## The PC -/

def sendStep (s : State) : State := { s with calls := s.calls ++ [.starting false] }

/-- The listener is gone.  A console whose connection it had not accepted reads no
record: `get_pkg_info` fails, and the payload ends. -/
def dropListener (s : State) : State :=
  { s with serviceSocket := none, reset := s.reset ++ s.backlog, backlog := [] }

/-- What the next statement of a call does, and where the call is then. -/
def goFrom (s : State) (ok : Bool) : Call → Option (State × Call)
  | .starting again => some (s, if s.serverRunning then .connecting again else .binding again)
  | .binding again =>
    if s.serviceSocket.isSome then some (s, .serving again)
    else if ok then some ({ s with serviceSocket := some true }, .serving again)
    else some ({ s with serviceSocket := some false }, .threw none)
  | .serving again =>
    some ({ s with
      serverRunning := true
      -- `ServerLoop` throws without a listener
      loops := if s.serviceSocket.isSome then s.loops ++ [.accepting] else s.loops },
      .connecting again)
  | .connecting again =>
    -- the loop that waits ignores the result of `EnsureServer`
    some (s, if again then .waiting else if ok then .ensuring else .returned false)
  | .ensuring =>
    if s.clientRunning then some (s, .waiting)
    else if s.serviceSocket = some true ∧ ok = true then
      some ({ s with clients := s.clients ++ [none] }, .waiting)
    else some (s, .returned false)
  | .waiting =>
    if ok then some (s, if s.queue.isEmpty then .dropping else .dequeuing)
    else some (s, if s.serverRunning then .waiting else .starting true)
  | .dropping => some (dropListener s, .stopping)
  | .stopping => some ({ s with serverRunning := false }, .returned false)
  | .dequeuing =>
    match s.queue with
    | [] => some (s, .threw none)
    | c :: queue => some ({ s with queue }, .counting c)
  | .counting c => some (s, .storing c (!s.queue.isEmpty))
  | .storing c running => some ({ s with clientRunning := running }, .writing c)
  | .writing c => if ok then none else some (s, .threw (some c))
  | .written c =>
    match s.connections[c]? with
    | some conn =>
      if conn.connected then some ({ s with queue := s.queue ++ [c] }, .restoring true)
      else some (s, .recounting)
    | none => none
  | .recounting => some (s, .restoring (!s.queue.isEmpty))
  -- `SendPKGPayload` returns true whatever the send did
  | .restoring running => some ({ s with clientRunning := running }, .returned true)
  | .returned _ | .threw _ => none

def goStep (s : State) (call : Nat) (ok : Bool) : Option State :=
  s.calls[call]?.bind fun old =>
    (goFrom s ok old).map fun next => { next.1 with calls := s.calls.set call next.2 }

/-- `PKGInfoSocket.SendAsync`.  What is written to a connection that the
console has closed is lost. -/
def Connection.write (conn : Connection) (record : Nat) (completes : Bool) :
    Connection :=
  { conn with
    inbox := if conn.peer = .closed then conn.inbox else conn.inbox ++ [record]
    carried := conn.carried ++ [record]
    connected := completes }

def writeStep (s : State) (call : Nat) (completes : Bool) : Option State :=
  match s.calls[call]? with
  | some (.writing c) =>
    match s.connections[c]? with
    | some conn =>
      if completes = true ∨ conn.peer = .closed then
        some { s with
          connections := s.connections.set c (conn.write call completes)
          calls := s.calls.set call (.written c) }
      else none
    | none => none
  | _ => none

/-- What the next statement of a `ServerLoop` does, and where the loop is then. -/
def serverLoopFrom (s : State) (ok : Bool) : ServerLoop → Option (State × ServerLoop)
  | .accepting =>
    if ok then
      match s.backlog with
      | [] => none
      | c :: backlog => some ({ s with backlog }, .enqueuing c)
    else some (s, .counting)
  | .enqueuing c => some ({ s with queue := s.queue ++ [c] }, .counting)
  | .counting => some (s, .storing (!s.queue.isEmpty))
  | .storing running => some ({ s with clientRunning := running }, .testing)
  | .testing => some (s, if s.serverRunning then .accepting else .closing)
  | .closing => some (dropListener s, .ended)
  | .ended => none

def serverLoopStep (s : State) (i : Nat) (ok : Bool) : Option State :=
  s.loops[i]?.bind fun old =>
    (serverLoopFrom s ok old).map fun next => { next.1 with loops := s.loops.set i next.2 }

/-! ## The console -/

/-- `connect`: a new connection.  Without a listener the payload ends. -/
def connectStep (s : State) (client : Nat) : Option State :=
  match s.clients[client]? with
  | some none =>
    if s.serviceSocket = some true then
      some { s with
        connections := s.connections ++
          [{ peer := .waiting, inbox := [], carried := [], connected := true }]
        backlog := s.backlog ++ [s.connections.length]
        clients := s.clients.set client (some s.connections.length) }
    else none
  | _ => none

/-- The reads of `get_pkg_info`: one record. -/
def readStep (s : State) (client : Nat) : Option State :=
  match s.clients[client]? with
  | some (some c) =>
    match s.connections[c]? with
    | some conn =>
      match conn.peer, conn.inbox with
      | .waiting, record :: inbox =>
        some { s with
          connections := s.connections.set c { conn with peer := .served, inbox }
          reads := s.reads ++ [record] }
      | _, _ => none
    | none => none
  | _ => none

/-- `close(sock)` and the return to `main`. -/
def closeStep (s : State) (client : Nat) : Option State :=
  match s.clients[client]? with
  | some (some c) =>
    match s.connections[c]? with
    | some conn =>
      if conn.peer = .served then
        some { s with
          connections := s.connections.set c { conn with peer := .closed }
          clients := s.clients.set client none }
      else none
    | none => none
  | _ => none

def step (s : State) : Label → Option State
  | .send => some (sendStep s)
  | .go call ok => goStep s call ok
  | .write call completes => writeStep s call completes
  | .serverLoop i ok => serverLoopStep s i ok
  | .connect client => connectStep s client
  | .read client => readStep s client
  | .close client => closeStep s client

/-- The PC and the console. -/
def system : Transition.System State Label where
  init := fun s => s = init
  step := step

/-! ## The steps of the PC -/

theorem goStep_eq_some {s s' : State} {call : Nat} {ok : Bool} :
    goStep s call ok = some s' ↔ ∃ old t new, s.calls[call]? = some old ∧
      goFrom s ok old = some (t, new) ∧ s' = { t with calls := s.calls.set call new } := by
  simp only [goStep, Option.bind_eq_some_iff, Option.map_eq_some_iff, Prod.exists]
  constructor
  · intro ⟨old, hold, t, new, hgo, heq⟩
    exact ⟨old, t, new, hold, hgo, heq.symm⟩
  · intro ⟨old, t, new, hold, hgo, heq⟩
    exact ⟨old, hold, t, new, hgo, heq.symm⟩

theorem serverLoopStep_eq_some {s s' : State} {i : Nat} {ok : Bool} :
    serverLoopStep s i ok = some s' ↔ ∃ old t new, s.loops[i]? = some old ∧
      serverLoopFrom s ok old = some (t, new) ∧ s' = { t with loops := s.loops.set i new } := by
  simp only [serverLoopStep, Option.bind_eq_some_iff, Option.map_eq_some_iff, Prod.exists]
  constructor
  · intro ⟨old, hold, t, new, hgo, heq⟩
    exact ⟨old, t, new, hold, hgo, heq.symm⟩
  · intro ⟨old, t, new, hold, hgo, heq⟩
    exact ⟨old, hold, t, new, hgo, heq.symm⟩

end DirectPackageInstaller.PayloadService
