import DirectPackageInstaller.Host.PayloadService.Handover

/-!
# Which records the console reads

The console reads the first record of each connection and no other.  So a
record arrives exactly when it is the first that its connection carries, and
`SendPKGPayload` returns true in any case.

* `Change`: what a step does to the connections, the clients and the reads.
* `Inv`: the records read are the first records of the served connections.
* `delivered_once_iff`: all records of a finished run are read exactly once,
  exactly when each write goes to a connection that has carried nothing.
* `second_record_lost`: two packages in a row, of which the console reads one.
-/

namespace DirectPackageInstaller.PayloadService

open Transition

/-! ## What a step does -/

/-- The call has written its record. -/
def Call.hasWritten : Call → Bool
  | .written _ | .recounting | .restoring _ => true
  | .returned result => result
  | _ => false

def State.HasWritten (s : State) (call : Nat) : Prop :=
  (s.calls.map Call.hasWritten)[call]? = some true

/-- The record is the first that this connection has carried. -/
def Connection.First (conn : Connection) (record : Nat) : Prop :=
  conn.carried.head? = some record

instance (conn : Connection) (record : Nat) : Decidable (conn.First record) :=
  inferInstanceAs (Decidable (_ = _))

/-- What a step does to the connections, the clients and the reads. -/
inductive Change (s s' : State) (l : Label) : Prop
  /-- A step of the PC that writes nothing. -/
  | local_ (hl : ∀ call completes, l ≠ .write call completes)
      (hconnections : s'.connections = s.connections)
      (hclients : ∀ c, some c ∈ s.clients → some c ∈ s'.clients)
      (hreads : s'.reads = s.reads)
      (hcalls : ∀ call, s'.HasWritten call ↔ s.HasWritten call)
  /-- A record is written. -/
  | write (call c : Nat) (completes : Bool) (conn : Connection)
      (hl : l = .write call completes)
      (hcall : s.calls[call]? = some (.writing c))
      (hconn : s.connections[c]? = some conn)
      (hopen : completes = true ∨ conn.peer = .closed)
      (hconnections :
        s'.connections = s.connections.set c (conn.write call completes))
      (hclients : s'.clients = s.clients) (hreads : s'.reads = s.reads)
      (hcalls : ∀ k, s'.HasWritten k ↔ s.HasWritten k ∨ k = call)
  /-- A new connection. -/
  | connect (client : Nat) (hl : ∀ call completes, l ≠ .write call completes)
      (hclient : s.clients[client]? = some none)
      (hconnections : s'.connections = s.connections ++
        [{ peer := .waiting, inbox := [], carried := [], connected := true }])
      (hclients : s'.clients =
        s.clients.set client (some s.connections.length))
      (hreads : s'.reads = s.reads) (hcalls : s'.calls = s.calls)
  /-- The console reads a record. -/
  | read (c record : Nat) (conn : Connection) (inbox : List Nat)
      (hl : ∀ call completes, l ≠ .write call completes)
      (hconn : s.connections[c]? = some conn) (hpeer : conn.peer = .waiting)
      (hinbox : conn.inbox = record :: inbox)
      (hconnections : s'.connections =
        s.connections.set c { conn with peer := .served, inbox })
      (hclients : s'.clients = s.clients)
      (hreads : s'.reads = s.reads ++ [record]) (hcalls : s'.calls = s.calls)
  /-- The console closes a connection. -/
  | close (client c : Nat) (conn : Connection)
      (hl : ∀ call completes, l ≠ .write call completes)
      (hclient : s.clients[client]? = some (some c))
      (hconn : s.connections[c]? = some conn) (hpeer : conn.peer = .served)
      (hconnections :
        s'.connections = s.connections.set c { conn with peer := .closed })
      (hclients : s'.clients = s.clients.set client none)
      (hreads : s'.reads = s.reads) (hcalls : s'.calls = s.calls)

/-- A call that moves on without a write. -/
theorem hasWritten_set {s : State} {call : Nat} {old new : Call}
    (h : s.calls[call]? = some old) (heq : new.hasWritten = old.hasWritten)
    (k : Nat) :
    ((s.calls.set call new).map Call.hasWritten)[k]? = some true ↔
      s.HasWritten k := by
  unfold State.HasWritten
  rw [Table.map_set_of_eq h heq]

theorem sendStep_change (s : State) : Change s (sendStep s) .send := by
  refine .local_ (by simp) rfl (fun c hc => hc) rfl fun call => ?_
  unfold State.HasWritten sendStep
  dsimp only
  rw [List.map_append, List.getElem?_append]
  split
  · rfl
  · rename_i hlen
    have hnone : (s.calls.map Call.hasWritten)[call]? = none :=
      List.getElem?_eq_none (by omega)
    rw [hnone]
    generalize call - (s.calls.map Call.hasWritten).length = i
    cases i <;> simp [Call.hasWritten]

/-- The statements of a call but the write. -/
theorem goFrom_frame {s t : State} {ok : Bool} {old new : Call}
    (h : goFrom s ok old = some (t, new)) :
    t.connections = s.connections ∧ (∀ c, some c ∈ s.clients → some c ∈ t.clients) ∧
      t.reads = s.reads ∧ new.hasWritten = old.hasWritten := by
  cases old with
  | starting again =>
    cases h
    exact ⟨rfl, fun c hc => hc, rfl, by split <;> rfl⟩
  | binding again =>
    simp only [goFrom] at h
    split at h
    · cases h
      exact ⟨rfl, fun c hc => hc, rfl, rfl⟩
    · split at h <;> cases h <;> exact ⟨rfl, fun c hc => hc, rfl, rfl⟩
  | connecting again =>
    cases h
    cases again <;> cases ok <;> exact ⟨rfl, fun c hc => hc, rfl, rfl⟩
  | ensuring =>
    simp only [goFrom] at h
    split at h
    · cases h
      exact ⟨rfl, fun c hc => hc, rfl, rfl⟩
    · split at h <;> cases h
      · exact ⟨rfl, fun c hc => List.mem_append_left _ hc, rfl, rfl⟩
      · exact ⟨rfl, fun c hc => hc, rfl, rfl⟩
  | waiting =>
    simp only [goFrom] at h
    split at h <;> cases h <;> exact ⟨rfl, fun c hc => hc, rfl, by split <;> rfl⟩
  | dequeuing =>
    simp only [goFrom] at h
    split at h <;> cases h <;> exact ⟨rfl, fun c hc => hc, rfl, rfl⟩
  | writing c =>
    simp only [goFrom] at h
    split at h <;> cases h
    exact ⟨rfl, fun c hc => hc, rfl, rfl⟩
  | written c =>
    simp only [goFrom] at h
    split at h
    · split at h <;> cases h <;> exact ⟨rfl, fun c hc => hc, rfl, rfl⟩
    · cases h
  | returned result | threw connection => cases h
  | _ =>
    cases h
    exact ⟨rfl, fun c hc => hc, rfl, rfl⟩

theorem goStep_change {s s' : State} {call : Nat} {ok : Bool} (h : goStep s call ok = some s') :
    Change s s' (.go call ok) := by
  obtain ⟨old, t, new, hcall, hgo, rfl⟩ := goStep_eq_some.1 h
  obtain ⟨hconnections, hclients, hreads, hwritten⟩ := goFrom_frame hgo
  exact .local_ (by simp) hconnections hclients hreads (hasWritten_set hcall hwritten)

theorem serverLoopStep_change {s s' : State} {i : Nat} {ok : Bool}
    (h : serverLoopStep s i ok = some s') : Change s s' (.serverLoop i ok) := by
  obtain ⟨old, t, new, -, hgo, rfl⟩ := serverLoopStep_eq_some.1 h
  cases old with
  | accepting =>
    simp only [serverLoopFrom] at hgo
    split at hgo
    · split at hgo <;> cases hgo
      exact .local_ (by simp) rfl (fun c hc => hc) rfl (fun _ => Iff.rfl)
    · cases hgo
      exact .local_ (by simp) rfl (fun c hc => hc) rfl (fun _ => Iff.rfl)
  | ended => cases hgo
  | _ =>
    cases hgo
    exact .local_ (by simp) rfl (fun c hc => hc) rfl (fun _ => Iff.rfl)

theorem writeStep_change {s s' : State} {call : Nat} {completes : Bool}
    (h : writeStep s call completes = some s') :
    Change s s' (.write call completes) := by
  unfold writeStep at h
  split at h
  case h_2 => cases h
  rename_i c hcall
  split at h
  case h_2 => cases h
  rename_i conn hconn
  split at h
  case isFalse => cases h
  rename_i hopen
  cases h
  refine .write call c completes conn rfl hcall hconn hopen rfl rfl rfl ?_
  intro k
  unfold State.HasWritten
  dsimp only
  rw [List.map_set, List.getElem?_set]
  have hlt := (List.getElem?_eq_some_iff.1 hcall).1
  by_cases hk : call = k
  · subst hk
    simp [hlt, Call.hasWritten]
  · rw [if_neg hk]
    exact (or_iff_left (Ne.symm hk)).symm

theorem step_change {s s' : State} {l : Label} (h : step s l = some s') :
    Change s s' l := by
  cases l with
  | send =>
    cases h
    exact sendStep_change s
  | go call ok => exact goStep_change h
  | write call completes => exact writeStep_change h
  | serverLoop i ok => exact serverLoopStep_change h
  | connect client =>
    simp only [step, connectStep] at h
    split at h
    case h_2 => cases h
    rename_i hclient
    split at h <;> cases h
    exact .connect client (by simp) hclient rfl rfl rfl rfl
  | read client =>
    simp only [step, readStep] at h
    split at h
    case h_2 => cases h
    rename_i c hclient
    split at h
    case h_2 => cases h
    rename_i conn hconn
    split at h <;> cases h
    rename_i record inbox hpeer hinbox
    exact .read c record conn inbox (by simp) hconn hpeer hinbox rfl rfl rfl rfl
  | close client =>
    simp only [step, closeStep] at h
    split at h
    case h_2 => cases h
    rename_i c hclient
    split at h
    case h_2 => cases h
    rename_i conn hconn
    split at h <;> cases h
    rename_i hpeer
    exact .close client c conn (by simp) hclient hconn hpeer rfl rfl rfl rfl

/-! ## The invariant -/

/-- The record has been read from this connection: it is the first, and the
console is past its read. -/
def Connection.HasRead (conn : Connection) (record : Nat) : Bool :=
  decide (conn.peer ≠ .waiting ∧ conn.First record)

structure Inv (s : State) : Prop where
  /-- A connection that the console waits on holds all it has carried. -/
  unread : ∀ conn ∈ s.connections, conn.peer = .waiting →
    conn.inbox = conn.carried
  /-- A connection that the console is done with has carried something. -/
  taken : ∀ conn ∈ s.connections, conn.peer ≠ .waiting → conn.carried ≠ []
  /-- The records read are the first records of those connections. -/
  reads_count : ∀ k,
    s.reads.count k = s.connections.countP fun conn => conn.HasRead k
  /-- A record is the first on one connection at most. -/
  first_unique : ∀ k,
    (s.connections.countP fun conn => decide (conn.First k)) ≤ 1
  carried_written : ∀ conn ∈ s.connections, ∀ k ∈ conn.carried, s.HasWritten k
  /-- A connection without a reader has been read from. -/
  reader : ∀ c conn, s.connections[c]? = some conn → conn.peer = .waiting →
    some c ∈ s.clients

theorem inv_init : Inv init := by
  constructor <;> simp [init]

theorem hasWritten_congr {s s' : State} (h : s'.calls = s.calls) (k : Nat) :
    s'.HasWritten k ↔ s.HasWritten k := by
  unfold State.HasWritten
  rw [h]

/-- A call that is about to write has not written. -/
theorem not_hasWritten_of_writing {s : State} {call c : Nat}
    (h : s.calls[call]? = some (.writing c)) : ¬s.HasWritten call := by
  unfold State.HasWritten
  simp [h, Call.hasWritten]

theorem Connection.write_carried (conn : Connection) (call : Nat)
    (completes : Bool) :
    (conn.write call completes).carried = conn.carried ++ [call] := rfl

/-- A write makes its record the first exactly on a fresh connection, and it
changes no other first record. -/
theorem Connection.write_first {conn : Connection} {call k : Nat}
    (completes : Bool) (hnew : call ∉ conn.carried) :
    (conn.write call completes).First k ↔
      if k = call then conn.carried = [] else conn.First k := by
  unfold Connection.First
  rw [conn.write_carried]
  cases hcarried : conn.carried with
  | nil =>
    split
    · rename_i hk
      simp [hk]
    · rename_i hk
      simp [Ne.symm hk]
  | cons first rest =>
    rw [hcarried] at hnew
    split
    · rename_i hk
      subst hk
      simp only [List.cons_append, List.head?_cons, Option.some.injEq,
        reduceCtorEq, iff_false]
      rintro rfl
      exact hnew (List.mem_cons_self ..)
    · rfl

theorem Inv.write_new {s : State} {call c : Nat} (hs : Inv s)
    (hcall : s.calls[call]? = some (.writing c)) :
    ∀ conn ∈ s.connections, call ∉ conn.carried :=
  fun conn hmem hin => not_hasWritten_of_writing hcall
    (hs.carried_written conn hmem call hin)

/-- A connection that the console still waits on is not the one that it has
just read from or closed. -/
theorem waiting_of_set {l : List Connection} {c d : Nat}
    {new other : Connection} (hnew : new.peer ≠ .waiting)
    (h : (l.set c new)[d]? = some other) (hwaiting : other.peer = .waiting) :
    c ≠ d ∧ l[d]? = some other := by
  by_cases hd : c = d
  · subst hd
    have hlt := (List.getElem?_eq_some_iff.1 h).1
    rw [List.length_set] at hlt
    rw [List.getElem?_set_self hlt, Option.some.injEq] at h
    subst h
    exact absurd hwaiting hnew
  · rw [List.getElem?_set_ne hd] at h
    exact ⟨hd, h⟩

theorem Inv.local_ {s s' : State} (hs : Inv s)
    (hconnections : s'.connections = s.connections)
    (hclients : ∀ c, some c ∈ s.clients → some c ∈ s'.clients)
    (hreads : s'.reads = s.reads)
    (hcalls : ∀ call, s'.HasWritten call ↔ s.HasWritten call) : Inv s' := by
  refine ⟨?_, ?_, ?_, ?_, ?_, ?_⟩ <;> simp only [hconnections, hreads, hcalls]
  · exact hs.unread
  · exact hs.taken
  · exact hs.reads_count
  · exact hs.first_unique
  · exact hs.carried_written
  · exact fun c conn hconn hpeer => hclients c (hs.reader c conn hconn hpeer)

/-- A record that no connection has carried is the first of none. -/
theorem countP_first_eq_zero {connections : List Connection} {k : Nat}
    (h : ∀ conn ∈ connections, k ∉ conn.carried) :
    connections.countP (fun conn => decide (conn.First k)) = 0 := by
  rw [List.countP_eq_zero]
  intro conn hconn hfirst
  exact h conn hconn (List.mem_of_head? (of_decide_eq_true hfirst))

theorem Inv.write {s s' : State} {call c : Nat} {completes : Bool}
    {conn : Connection} (hs : Inv s)
    (hcall : s.calls[call]? = some (.writing c))
    (hconn : s.connections[c]? = some conn)
    (hconnections :
      s'.connections = s.connections.set c (conn.write call completes))
    (hclients : s'.clients = s.clients) (hreads : s'.reads = s.reads)
    (hcalls : ∀ k, s'.HasWritten k ↔ s.HasWritten k ∨ k = call) : Inv s' := by
  have hmem := Table.mem_of_getElem? hconn
  have hnew := hs.write_new hcall
  refine ⟨?_, ?_, ?_, ?_, ?_, ?_⟩ <;> rw [hconnections]
  · refine Table.forall_mem_set hs.unread ?_
    intro hpeer
    have hpeer' : conn.peer = .waiting := hpeer
    simp only [Connection.write, hpeer', reduceCtorEq, if_false]
    rw [hs.unread conn hmem hpeer']
  · refine Table.forall_mem_set hs.taken ?_
    intro _
    simp [Connection.write]
  · intro k
    rw [hreads, hs.reads_count, Table.countP_set_congr hconn]
    -- a connection that is past its read has a first record already
    unfold Connection.HasRead
    rw [decide_eq_decide]
    refine and_congr_right fun hpeer => ?_
    rw [Connection.write_first completes (hnew conn hmem)]
    split
    · rename_i hk
      subst hk
      have htaken := hs.taken conn hmem hpeer
      have hfirst : ¬conn.First k :=
        fun hf => hnew conn hmem (List.mem_of_head? hf)
      exact iff_of_false htaken hfirst
    · rfl
  · intro k
    rw [Table.countP_set_of_getElem? hconn]
    have hold := hs.first_unique k
    rw [Table.countP_of_getElem? hconn] at hold
    by_cases hk : k = call
    · -- nobody else has carried the record
      subst hk
      rw [countP_first_eq_zero fun other hother =>
        hnew other (List.mem_of_mem_eraseIdx hother)]
      split <;> omega
    · have hsame : (conn.write call completes).First k ↔ conn.First k := by
        rw [Connection.write_first completes (hnew conn hmem), if_neg hk]
      simp only [hsame]
      exact hold
  · simp only [hcalls]
    refine Table.forall_mem_set ?_ ?_
    · intro other hother k hk
      exact .inl (hs.carried_written other hother k hk)
    · intro k hk
      rcases List.mem_append.1 hk with hk | hk
      · exact .inl (hs.carried_written conn hmem k hk)
      · exact .inr (List.mem_singleton.1 hk)
  · intro d other hother hpeer
    rw [hclients]
    by_cases hd : c = d
    · subst hd
      have hlt := (List.getElem?_eq_some_iff.1 hconn).1
      rw [List.getElem?_set_self hlt, Option.some.injEq] at hother
      subst hother
      exact hs.reader c conn hconn hpeer
    · rw [List.getElem?_set_ne hd] at hother
      exact hs.reader d other hother hpeer

theorem Inv.connect {s s' : State} {client : Nat} (hs : Inv s)
    (hclient : s.clients[client]? = some none)
    (hconnections : s'.connections = s.connections ++
      [{ peer := .waiting, inbox := [], carried := [], connected := true }])
    (hclients : s'.clients = s.clients.set client (some s.connections.length))
    (hreads : s'.reads = s.reads) (hcalls : s'.calls = s.calls) : Inv s' := by
  have hlt := (List.getElem?_eq_some_iff.1 hclient).1
  refine ⟨?_, ?_, ?_, ?_, ?_, ?_⟩ <;> rw [hconnections]
  · simpa [or_imp, forall_and] using hs.unread
  · simpa [or_imp, forall_and] using hs.taken
  · intro k
    rw [hreads, hs.reads_count, List.countP_append]
    simp [Connection.HasRead]
  · intro k
    rw [List.countP_append]
    simpa [Connection.First] using hs.first_unique k
  · simp only [hasWritten_congr hcalls]
    simpa [or_imp, forall_and] using hs.carried_written
  · intro c conn hconn hpeer
    rw [hclients]
    rcases Nat.lt_trichotomy c s.connections.length with hc | hc | hc
    · -- an older connection keeps its reader, which is not this client
      rw [List.getElem?_append_left hc] at hconn
      obtain ⟨i, hi⟩ := List.mem_iff_getElem?.1 (hs.reader c conn hconn hpeer)
      have hne : client ≠ i := by
        rintro rfl
        rw [hclient] at hi
        cases hi
      refine List.mem_iff_getElem?.2 ⟨i, ?_⟩
      rw [List.getElem?_set_ne hne, hi]
    · rw [hc]
      exact List.mem_set hlt _
    · have hlen := (List.getElem?_eq_some_iff.1 hconn).1
      rw [List.length_append, List.length_singleton] at hlen
      omega

theorem Inv.read {s s' : State} {c record : Nat} {conn : Connection}
    {inbox : List Nat} (hs : Inv s) (hconn : s.connections[c]? = some conn)
    (hpeer : conn.peer = .waiting) (hinbox : conn.inbox = record :: inbox)
    (hconnections : s'.connections =
      s.connections.set c { conn with peer := .served, inbox })
    (hclients : s'.clients = s.clients)
    (hreads : s'.reads = s.reads ++ [record]) (hcalls : s'.calls = s.calls) :
    Inv s' := by
  have hmem := Table.mem_of_getElem? hconn
  have hcarried : conn.carried = record :: inbox :=
    (hs.unread conn hmem hpeer).symm.trans hinbox
  refine ⟨?_, ?_, ?_, ?_, ?_, ?_⟩ <;> rw [hconnections]
  · exact Table.forall_mem_set hs.unread (fun h => by cases h)
  · refine Table.forall_mem_set hs.taken fun _ => ?_
    dsimp only
    rw [hcarried]
    exact List.cons_ne_nil _ _
  · intro k
    rw [hreads, List.count_append, hs.reads_count, Table.countP_of_getElem? hconn,
      Table.countP_set_of_getElem? hconn]
    by_cases hk : record = k <;>
      simp [Connection.HasRead, Connection.First, hpeer, hcarried, hk]
  · intro k
    rw [Table.countP_set_congr hconn (by rfl)]
    exact hs.first_unique k
  · simp only [hasWritten_congr hcalls]
    exact Table.forall_mem_set hs.carried_written (hs.carried_written conn hmem)
  · intro d other hother hwaiting
    rw [hclients]
    exact hs.reader d other (waiting_of_set (by simp) hother hwaiting).2 hwaiting

theorem Inv.close {s s' : State} {client c : Nat} {conn : Connection}
    (hs : Inv s) (hclient : s.clients[client]? = some (some c))
    (hconn : s.connections[c]? = some conn) (hpeer : conn.peer = .served)
    (hconnections :
      s'.connections = s.connections.set c { conn with peer := .closed })
    (hclients : s'.clients = s.clients.set client none)
    (hreads : s'.reads = s.reads) (hcalls : s'.calls = s.calls) : Inv s' := by
  have hmem := Table.mem_of_getElem? hconn
  refine ⟨?_, ?_, ?_, ?_, ?_, ?_⟩ <;> rw [hconnections]
  · exact Table.forall_mem_set hs.unread (fun h => by cases h)
  · refine Table.forall_mem_set hs.taken fun _ => ?_
    exact hs.taken conn hmem (by simp [hpeer])
  · intro k
    rw [hreads, hs.reads_count, Table.countP_set_congr hconn]
    simp [Connection.HasRead, Connection.First, hpeer]
  · intro k
    rw [Table.countP_set_congr hconn (by rfl)]
    exact hs.first_unique k
  · simp only [hasWritten_congr hcalls]
    exact Table.forall_mem_set hs.carried_written (hs.carried_written conn hmem)
  · intro d other hother hwaiting
    obtain ⟨hd, hother⟩ := waiting_of_set (by simp) hother hwaiting
    obtain ⟨i, hi⟩ := List.mem_iff_getElem?.1 (hs.reader d other hother hwaiting)
    have hne : client ≠ i := by
      rintro rfl
      rw [hclient] at hi
      simp only [Option.some.injEq] at hi
      exact hd hi
    rw [hclients]
    refine List.mem_iff_getElem?.2 ⟨i, ?_⟩
    rw [List.getElem?_set_ne hne, hi]

theorem Inv.change {s s' : State} {l : Label} (hs : Inv s)
    (h : Change s s' l) : Inv s' := by
  cases h with
  | local_ _ hconnections hclients hreads hcalls =>
    exact hs.local_ hconnections hclients hreads hcalls
  | write call c completes conn _ hcall hconn _ hconnections hclients hreads
      hcalls =>
    exact hs.write hcall hconn hconnections hclients hreads hcalls
  | connect client _ hclient hconnections hclients hreads hcalls =>
    exact hs.connect hclient hconnections hclients hreads hcalls
  | read c record conn inbox _ hconn hpeer hinbox hconnections hclients hreads
      hcalls =>
    exact hs.read hconn hpeer hinbox hconnections hclients hreads hcalls
  | close client c conn _ hclient hconn hpeer hconnections hclients hreads
      hcalls =>
    exact hs.close hclient hconn hpeer hconnections hclients hreads hcalls

/-! ## The records that arrive -/

/-- Every record that was written is the first on its connection. -/
def AllFirst (s : State) : Prop :=
  ∀ k, s.HasWritten k → ∃ conn ∈ s.connections, conn.First k

/-- The condition on a step: a record is written to a connection that has
carried nothing. -/
def OnFreshConnection (s : State) : Label → Prop
  | .write call _ => ∀ c conn, s.calls[call]? = some (.writing c) →
      s.connections[c]? = some conn → conn.carried = []
  | _ => True

theorem onFresh_of_not_write {s : State} {l : Label}
    (hl : ∀ call completes, l ≠ .write call completes) :
    OnFreshConnection s l := by
  unfold OnFreshConnection
  split
  · exact absurd rfl (hl _ _)
  · trivial

/-- A write keeps `AllFirst` exactly when its connection is fresh. -/
theorem write_allFirst_iff {s s' : State} {call c : Nat} {completes : Bool}
    {conn : Connection} (hs : Inv s)
    (hcall : s.calls[call]? = some (.writing c))
    (hconn : s.connections[c]? = some conn)
    (hconnections :
      s'.connections = s.connections.set c (conn.write call completes))
    (hcalls : ∀ k, s'.HasWritten k ↔ s.HasWritten k ∨ k = call) :
    AllFirst s' ↔ AllFirst s ∧ conn.carried = [] := by
  have hnew := hs.write_new hcall
  have hmem := Table.mem_of_getElem? hconn
  have hold : ∀ k, k ≠ call → ((∃ conn ∈ s'.connections, conn.First k) ↔
      ∃ conn ∈ s.connections, conn.First k) := by
    intro k hk
    rw [hconnections]
    apply Table.exists_mem_set_congr hconn
    rw [Connection.write_first completes (hnew conn hmem), if_neg hk]
  have hthis : (∃ conn ∈ s'.connections, conn.First call) ↔
      conn.carried = [] := by
    rw [hconnections, Table.exists_mem_set_iff hconn,
      Connection.write_first completes (hnew conn hmem), if_pos rfl]
    refine or_iff_left ?_
    rintro ⟨other, hother, hfirst⟩
    exact hnew other (List.mem_of_mem_eraseIdx hother)
      (List.mem_of_head? hfirst)
  unfold AllFirst
  constructor
  · intro h
    refine ⟨?_, hthis.1 (h call ((hcalls call).2 (.inr rfl)))⟩
    intro k hk
    have hne : k ≠ call := by
      rintro rfl
      exact not_hasWritten_of_writing hcall hk
    exact (hold k hne).1 (h k ((hcalls k).2 (.inl hk)))
  · rintro ⟨h, hfresh⟩ k hk
    by_cases hkc : k = call
    · rw [hkc]
      exact hthis.2 hfresh
    · have hwritten := ((hcalls k).1 hk).resolve_right hkc
      exact (hold k hkc).2 (h k hwritten)

theorem step_allFirst_iff {s s' : State} {l : Label} (hs : Inv s)
    (h : Change s s' l) : AllFirst s' ↔ AllFirst s ∧ OnFreshConnection s l := by
  cases h with
  | local_ hl hconnections _ _ hcalls =>
    rw [and_iff_left (onFresh_of_not_write hl)]
    unfold AllFirst
    simp only [hconnections, hcalls]
  | write call c completes conn hl hcall hconn _ hconnections _ _ hcalls =>
    subst hl
    rw [write_allFirst_iff hs hcall hconn hconnections hcalls]
    refine and_congr_right fun _ => ⟨?_, fun hfresh => hfresh c conn hcall hconn⟩
    rintro hfresh d other hd hother
    rw [hcall] at hd
    cases hd
    rw [hconn] at hother
    cases hother
    exact hfresh
  | connect client hl _ hconnections _ _ hcalls =>
    rw [and_iff_left (onFresh_of_not_write hl)]
    unfold AllFirst
    simp [hconnections, hasWritten_congr hcalls, or_and_right, exists_or,
      Connection.First]
  | read c record conn inbox hl hconn _ _ hconnections _ _ hcalls =>
    rw [and_iff_left (onFresh_of_not_write hl)]
    unfold AllFirst
    simp only [hconnections, hasWritten_congr hcalls]
    refine forall₂_congr fun k _ => ?_
    exact Table.exists_mem_set_congr hconn Iff.rfl
  | close client c conn hl _ hconn _ hconnections _ _ hcalls =>
    rw [and_iff_left (onFresh_of_not_write hl)]
    unfold AllFirst
    simp only [hconnections, hasWritten_congr hcalls]
    refine forall₂_congr fun k _ => ?_
    exact Table.exists_mem_set_congr hconn Iff.rfl

/-- Nothing is left to be read, and no call is between its write and its
return. -/
structure Settled (s : State) : Prop where
  calls : ∀ call ∈ s.calls, call.hasWritten = true → call = .returned true
  reads : ∀ client, readStep s client = none

/-- In a settled state the records read, once each, are the first records of
the connections. -/
theorem count_reads_eq_one_iff {s : State} (hs : Inv s) (hset : Settled s)
    (k : Nat) :
    s.reads.count k = 1 ↔ ∃ conn ∈ s.connections, conn.First k := by
  have hcount := hs.reads_count k
  constructor
  · intro hone
    have hpos : 0 < s.connections.countP fun conn => conn.HasRead k := by omega
    obtain ⟨conn, hmem, hread⟩ := List.countP_pos_iff.1 hpos
    exact ⟨conn, hmem, (of_decide_eq_true hread).2⟩
  · rintro ⟨conn, hmem, hfirst⟩
    have hserved : conn.peer ≠ .waiting := by
      intro hpeer
      -- the reader of the connection could read the record now
      obtain ⟨c, hconn⟩ := List.mem_iff_getElem?.1 hmem
      obtain ⟨i, hi⟩ := List.mem_iff_getElem?.1 (hs.reader c conn hconn hpeer)
      obtain ⟨rest, hrest⟩ := List.head?_eq_some_iff.1 hfirst
      have hinbox : conn.inbox = k :: rest :=
        (hs.unread conn hmem hpeer).trans hrest
      have hstuck := hset.reads i
      simp [readStep, hi, hconn, hpeer, hinbox] at hstuck
    have hpos : 0 < s.connections.countP fun conn => conn.HasRead k :=
      List.countP_pos_iff.2 ⟨conn, hmem, decide_eq_true ⟨hserved, hfirst⟩⟩
    have hle : (s.connections.countP fun conn => conn.HasRead k) ≤
        s.connections.countP fun conn => decide (conn.First k) := by
      apply List.countP_mono_left
      intro other _ hread
      exact decide_eq_true (of_decide_eq_true hread).2
    have hunique := hs.first_unique k
    omega

/-- In a settled state the calls that returned true are those that wrote. -/
theorem returned_true_iff {s : State} (hset : Settled s) (k : Nat) :
    s.calls[k]? = some (.returned true) ↔ s.HasWritten k := by
  unfold State.HasWritten
  rw [List.getElem?_map]
  cases hcall : s.calls[k]? with
  | none => simp
  | some call =>
    have hmem := Table.mem_of_getElem? hcall
    rw [Option.map_some, Option.some_inj, Option.some_inj]
    constructor
    · rintro rfl
      rfl
    · exact hset.calls call hmem

/-- In every finished run, the console has read exactly once each record for
which `SendPKGPayload` returned true, exactly when each record was written to
a connection that had carried none before. -/
theorem delivered_once_iff (ls : List Label) (s : State)
    (hrun : system.run init ls = some s) (hset : Settled s) :
    (∀ k, s.calls[k]? = some (.returned true) → s.reads.count k = 1) ↔
      system.StepsMeet OnFreshConnection init ls := by
  have hexact := System.exact_of_step Inv AllFirst OnFreshConnection
    (fun s l s' hs hstep => hs.change (step_change hstep))
    (fun s l s' hs hstep => step_allFirst_iff hs (step_change hstep))
    inv_init hrun
  have hinv : Inv s := (System.reachable_of_run (.init rfl) hrun).invariant Inv
    (fun s hs => by
      rw [show s = init from hs]
      exact inv_init)
    (fun s l s' hs hstep => hs.change (step_change hstep))
  have hinit : AllFirst init := by
    intro k hk
    simp [State.HasWritten, init] at hk
  rw [and_iff_right hinit] at hexact
  rw [← hexact]
  unfold AllFirst
  refine forall_congr' fun k => ?_
  rw [returned_true_iff hset, count_reads_eq_one_iff hinv hset]

/-- Two calls find no client, so each starts a payload, and each takes a connection of
its own. -/
def twoConsoles : List Label :=
  [.send, .send] ++ List.replicate 4 (.go 0 true) ++ List.replicate 2 (.go 1 true) ++
    [.go 0 true, .go 1 true, .connect 0, .connect 1] ++ List.replicate 9 (.serverLoop 0 true) ++
    List.replicate 4 (.go 0 true) ++ List.replicate 4 (.go 1 true) ++
    [.write 0 true, .write 1 true, .read 0, .read 1] ++ List.replicate 2 (.go 0 true) ++
    List.replicate 2 (.go 1 true)

def twoConsolesEnd : State where
  connections := [⟨.served, [], [0], true⟩, ⟨.served, [], [1], true⟩]
  backlog := []
  reset := []
  queue := [0, 1]
  clientRunning := true
  serverRunning := true
  serviceSocket := some true
  loops := [.testing]
  calls := [.returned true, .returned true]
  clients := [some 0, some 1]
  reads := [0, 1]

theorem delivered_once_twoConsoles :
    twoConsolesEnd.reads.count 0 = 1 ∧ twoConsolesEnd.reads.count 1 = 1 ∧
      system.StepsMeet OnFreshConnection init twoConsoles := by
  refine ⟨by decide, by decide,
    (delivered_once_iff twoConsoles twoConsolesEnd (by decide) ⟨by decide, ?_⟩).1 ?_⟩
  · intro client
    match client with
    | 0 | 1 | _ + 2 => rfl
  · intro k hk
    match k, hk with
    | 0, _ | 1, _ => decide
    | _ + 2, hk => cases hk

/-- The payload is started and one package is handed over. -/
def oneSend : List Label :=
  [.send] ++ List.replicate 5 (.go 0 true) ++ [.connect 0] ++
    List.replicate 4 (.serverLoop 0 true) ++ List.replicate 4 (.go 0 true) ++
    [.write 0 true, .read 0, .close 0] ++ List.replicate 2 (.go 0 true)

/-- The console connects again, but the next package goes to the connection
that it has closed, which is the head of the queue. -/
def twoSends : List Label :=
  oneSend ++ [.connect 0] ++ List.replicate 5 (.serverLoop 0 true) ++ [.send] ++
    List.replicate 7 (.go 1 true) ++ [.write 1 true] ++ List.replicate 2 (.go 1 true)

/-- Both calls return true, and the console reads one record. -/
theorem second_record_lost :
    ¬∀ (ls : List Label) (s : State), system.run init ls = some s → Settled s →
      ∀ k, s.calls[k]? = some (.returned true) → s.reads.count k = 1 := by
  intro h
  obtain ⟨s, hs⟩ : ∃ s, system.run init twoSends = some s :=
    Option.isSome_iff_exists.1 (by decide)
  have hcalls : s.calls = [.returned true, .returned true] ∧ s.reads = [0] ∧
      ∀ client, readStep s client = none := by
    have hget := hs
    cases hget
    refine ⟨rfl, rfl, ?_⟩
    intro client
    cases client <;> rfl
  obtain ⟨hcalls, hreads, hquiet⟩ := hcalls
  have hone := h twoSends s hs ⟨by simp [hcalls], hquiet⟩ 1 (by simp [hcalls])
  simp [hreads] at hone

end DirectPackageInstaller.PayloadService
