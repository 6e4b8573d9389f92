import DirectPackageInstaller.Host.PayloadService.Handover

/-!
# Where a connection is

The PC moves a connection from the backlog of its listener through a loop to `Queue`,
from there into a call of `SendPKGPayload`, and back into `Queue`.  It loses the ones that
a dropped listener had not accepted, and the one of a call that throws.  `places` lists the
connections in all these places.

* `Held` is the invariant: no connection is listed twice, and only a connection that the
  console has closed is in none of the lists.
* `connections_kept`: a console that waits for its first record is not forgotten.
-/

namespace DirectPackageInstaller.PayloadService

open Transition

/-! ## Places -/

/-- The connection that a loop has accepted. -/
def ServerLoop.connection : ServerLoop → Option Nat
  | .enqueuing c => some c
  | _ => none

/-- The connection that a call has taken from `Queue`. -/
def Call.connection : Call → Option Nat
  | .counting c | .storing c _ | .writing c | .written c => some c
  | .threw c => c
  | _ => none

/-- The connections that no thread has in hand. -/
def shared (s : State) : List Nat := s.backlog ++ s.reset ++ s.queue

/-- The connections by where they are. -/
def places (s : State) : List Nat :=
  shared s ++ s.loops.filterMap ServerLoop.connection ++ s.calls.filterMap Call.connection

/-- The invariant of the places. -/
structure Held (s : State) : Prop where
  once : (places s).Nodup
  inside : ∀ c ∈ places s, c < s.connections.length
  /-- A connection is given up after its last operation has failed. -/
  kept : ∀ (c : Nat) (conn : Connection), s.connections[c]? = some conn →
    conn.connected = true → c ∈ places s
  broken : ∀ conn ∈ s.connections, conn.connected = false → conn.peer = .closed
  /-- What a call has written to a console that still waits is there. -/
  delivered : ∀ (call c : Nat) (conn : Connection), s.calls[call]? = some (.written c) →
    s.connections[c]? = some conn → conn.peer = .waiting → conn.inbox ≠ []

/-- A step that moves connections between places and changes none of them. -/
theorem Held.move {s s' : State} (h : Held s) (hplaces : (places s').Perm (places s))
    (hconn : s'.connections = s.connections)
    (hcalls : ∀ (call c : Nat), s'.calls[call]? = some (.written c) →
      s.calls[call]? = some (.written c)) : Held s' where
  once := hplaces.nodup_iff.2 h.once
  inside := by
    intro c hc
    rw [hconn]
    exact h.inside c (hplaces.mem_iff.1 hc)
  kept := by
    intro c conn hc hconnected
    rw [hconn] at hc
    exact hplaces.mem_iff.2 (h.kept c conn hc hconnected)
  broken := hconn ▸ h.broken
  delivered := by
    intro call c conn hcall hc
    rw [hconn] at hc
    exact h.delivered call c conn (hcalls call c hcall) hc

/-- A console that waits and has nothing to read is in one of the places, but not behind
a write. -/
theorem Held.waiting {s : State} (h : Held s) {c : Nat} {conn : Connection}
    (hc : s.connections[c]? = some conn) (hwaiting : conn.peer = .waiting)
    (hempty : conn.inbox = []) :
    c ∈ places s ∧ ∀ call : Nat, s.calls[call]? ≠ some (.written c) := by
  refine ⟨h.kept c conn hc ?_, fun call hcall => h.delivered call c conn hcall hc hwaiting hempty⟩
  by_contra hfalse
  have hclosed := h.broken conn (Table.mem_of_getElem? hc) (by simpa using hfalse)
  rw [hwaiting] at hclosed
  cases hclosed

end DirectPackageInstaller.PayloadService
