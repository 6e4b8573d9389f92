import DirectPackageInstaller.Lib.Table
import DirectPackageInstaller.Lib.Transition
import Mathlib.Logic.Function.Basic

/-!
# The counters of open requests

`Decompress` and `Cache` count the console's requests for one resource in
`Instances`, and answer 429 to a request that seeks ahead while another one is
open.  The increment comes long before the `try` whose `finally` undoes it, and
in `Decompress` two calls are not covered: `TaskInfo.Content()` comes before
the `try`, and in the `finally` `RespData?.Close()` comes before the decrement.
In `Cache` what lies between cannot throw, and `Close` leaves the stream open.

The requests run at the same time.  `Instances[key]++` reads the counter and
stores it, and a request may take its steps between the two of another one.  A
request is in flight from its increment to its end.

* `advance_iff`: what a step of one request must find to change the counter by
  what it changes of the requests in flight.
* `balanced_iff`: the counters are right in every state of a run exactly if
  every step finds that, and then a 429 answer is due to a request in flight.
* `hasCounter_of_reachable`: `Instances[key]` is found wherever it is read.
* `refused_after_exception`: a request that is refused on its own.
-/

namespace DirectPackageInstaller.Instances

open Transition

/-! ## One request -/

inductive Service
  | decompress
  | cache
deriving DecidableEq, Repr

/-- A counter: the dictionary of a service and `InstanceID` or `Url` in it. -/
structure Key where
  service : Service
  id : String
deriving DecidableEq, Repr

/-- How far a request is. -/
inductive Phase
  /-- In front of `Instances.ContainsKey`. -/
  | arrived
  /-- The counter was missing. -/
  | missing
  /-- In front of `Instances[key]++`. -/
  | present
  /-- Between the read and the store of `Instances[key]++`. -/
  | incrementing (read : Int)
  /-- In front of `FromPS4 && SeekRequest && Instances[key] > 1`. -/
  | counted
  /-- In front of the 429 answer. -/
  | refused
  /-- In front of `TaskInfo.Content()`, or of the `VirtualStream` of `Cache`. -/
  | admitted
  /-- In the `try`. -/
  | serving
  /-- In the `finally`, in front of `Close`. -/
  | closing
  /-- In front of `Instances[key]--`. -/
  | leaving
  /-- Between the read and the store of `Instances[key]--`. -/
  | decrementing (read : Int)
  | ended
deriving DecidableEq, Repr

/-- How the `try` is left. -/
inductive Outcome
  | rangeNotSatisfiable
  | completed
  | sendFailed
deriving DecidableEq, Repr

/-- A step of a request, with what its own code does not decide. -/
inductive Event
  | containsKey
  | read
  | store
  | compare (seekRequest : Bool)
  | answer
  | content
  | serve (outcome : Outcome)
  | close
  /-- `Content` or `Close` throws, which ends the request. -/
  | throw
deriving DecidableEq, Repr

/-- A step of a request that finds its counter at `counter`: the counter and
the phase afterwards. -/
def advance (service : Service) (counter : Option Int) :
    Phase → Event → Option (Option Int × Phase)
  | .arrived, .containsKey =>
    some (counter, if counter.isSome then .present else .missing)
  | .missing, .store => some (some 0, .present)
  | .present, .read => counter.map fun n => (some n, .incrementing n)
  | .incrementing n, .store => some (some (n + 1), .counted)
  | .counted, .compare seekRequest => counter.map fun n =>
    (some n, if seekRequest && n > 1 then .refused else .admitted)
  -- a failure of the answer is caught
  | .refused, .answer => some (counter, .leaving)
  | .admitted, .content => some (counter, .serving)
  | .admitted, .throw => if service = .decompress then some (counter, .ended) else none
  -- every way out of the `try` leads to the `finally`
  | .serving, .serve _ => some (counter, .closing)
  | .closing, .close => some (counter, .leaving)
  | .closing, .throw => if service = .decompress then some (counter, .ended) else none
  | .leaving, .read => counter.map fun n => (some n, .decrementing n)
  | .decrementing n, .store => some (some (n - 1), .ended)
  | _, _ => none

/-- The request counts as open. -/
def Phase.inFlight : Phase → Bool
  | .arrived | .missing | .present | .incrementing _ | .ended => false
  | _ => true

/-- No exception ends the request, and a store overwrites the value that it was
computed from; a missing counter is one at 0. -/
def Undisturbed (counter : Int) : Phase → Event → Prop
  | .missing, .store => counter = 0
  | .incrementing n, .store => counter = n
  | .decrementing n, .store => counter = n
  | _, .throw => False
  | _, _ => True

/-- The request has found or stored its counter. -/
def Phase.hasCounter : Phase → Bool
  | .arrived | .missing | .ended => false
  | _ => true

/-- What a step does with the counter and with the request: nothing that counts,
one of the three stores, or an exception. -/
inductive Change (counter : Option Int) :
    Phase → Event → Option Int → Phase → Prop
  | quiet {phase phase' : Phase} {event : Event}
    (hflight : phase'.inFlight = phase.inFlight)
    (hundisturbed : ∀ n, Undisturbed n phase event)
    (hcounter : phase'.hasCounter = true →
      phase.hasCounter = true ∨ counter.isSome = true)
    (hrefused : phase' = .refused → phase.inFlight = true ∧ 1 < counter.getD 0) :
    Change counter phase event counter phase'
  | initial : Change counter .missing .store (some 0) .present
  | increment (n : Int) :
    Change counter (.incrementing n) .store (some (n + 1)) .counted
  | decrement (n : Int) :
    Change counter (.decrementing n) .store (some (n - 1)) .ended
  | exception {phase : Phase} (hflight : phase.inFlight = true) :
    Change counter phase .throw counter .ended

section Advance

variable {service : Service} {counter counter' : Option Int} {phase phase' : Phase}
  {event : Event}

theorem advance_change
    (h : advance service counter phase event = some (counter', phase')) :
    Change counter phase event counter' phase' := by
  unfold advance at h
  split at h
  · -- `ContainsKey`
    cases h
    by_cases hsome : counter.isSome = true
    · rw [if_pos hsome]
      exact .quiet rfl (fun _ => trivial) (fun _ => .inr hsome) (fun h => nomatch h)
    · rw [if_neg hsome]
      exact .quiet rfl (fun _ => trivial) (fun h => nomatch h) (fun h => nomatch h)
  · cases h
    exact .initial
  · obtain ⟨n, rfl, hn⟩ := Option.map_eq_some_iff.1 h
    cases hn
    exact .quiet rfl (fun _ => trivial) (fun _ => .inl rfl) (fun h => nomatch h)
  · cases h
    exact .increment _
  · -- the comparison
    obtain ⟨n, rfl, hn⟩ := Option.map_eq_some_iff.1 h
    cases hn
    split
    · rename_i hrefused
      rw [Bool.and_eq_true, decide_eq_true_eq] at hrefused
      exact .quiet rfl (fun _ => trivial) (fun _ => .inl rfl)
        (fun _ => ⟨rfl, hrefused.2⟩)
    · exact .quiet rfl (fun _ => trivial) (fun _ => .inl rfl) (fun h => nomatch h)
  · cases h
    exact .quiet rfl (fun _ => trivial) (fun _ => .inl rfl) (fun h => nomatch h)
  · cases h
    exact .quiet rfl (fun _ => trivial) (fun _ => .inl rfl) (fun h => nomatch h)
  · -- an exception in front of the `try`
    split at h
    · cases h
      exact .exception rfl
    · cases h
  · cases h
    exact .quiet rfl (fun _ => trivial) (fun _ => .inl rfl) (fun h => nomatch h)
  · cases h
    exact .quiet rfl (fun _ => trivial) (fun _ => .inl rfl) (fun h => nomatch h)
  · -- an exception in the `finally`
    split at h
    · cases h
      exact .exception rfl
    · cases h
  · obtain ⟨n, rfl, hn⟩ := Option.map_eq_some_iff.1 h
    cases hn
    exact .quiet rfl (fun _ => trivial) (fun _ => .inl rfl) (fun h => nomatch h)
  · cases h
    exact .decrement _
  · cases h

/-- A step changes the counter by what it changes of the requests in flight
exactly if it is undisturbed. -/
theorem advance_iff
    (h : advance service counter phase event = some (counter', phase')) :
    counter'.getD 0 - (phase'.inFlight.toNat : Int) =
        counter.getD 0 - (phase.inFlight.toNat : Int) ↔
      Undisturbed (counter.getD 0) phase event := by
  cases advance_change h with
  | quiet hflight hundisturbed =>
    rw [hflight]
    exact iff_of_true rfl (hundisturbed _)
  | initial =>
    simp only [Undisturbed, Phase.inFlight, Option.getD_some]
    omega
  | increment n =>
    simp only [Undisturbed, Phase.inFlight, Option.getD_some, Bool.toNat_true,
      Bool.toNat_false]
    omega
  | decrement n =>
    simp only [Undisturbed, Phase.inFlight, Option.getD_some, Bool.toNat_true,
      Bool.toNat_false]
    omega
  | exception hflight =>
    have hdisturbed : ¬Undisturbed (counter.getD 0) phase .throw := by
      cases phase <;> exact id
    rw [hflight]
    simp only [Phase.inFlight, hdisturbed, Bool.toNat_true, Bool.toNat_false, iff_false]
    omega

/-- No step removes a counter, and only a request with a counter goes on. -/
theorem advance_isSome
    (h : advance service counter phase event = some (counter', phase'))
    (hold : phase.hasCounter = true → counter.isSome = true) :
    (counter.isSome = true → counter'.isSome = true) ∧
      (phase'.hasCounter = true → counter'.isSome = true) := by
  cases advance_change h with
  | quiet _ _ hcounter =>
    refine ⟨id, fun hphase => ?_⟩
    rcases hcounter hphase with hhas | hsome
    · exact hold hhas
    · exact hsome
  | initial => exact ⟨fun _ => rfl, fun _ => rfl⟩
  | increment n => exact ⟨fun _ => rfl, fun _ => rfl⟩
  | decrement n => exact ⟨fun _ => rfl, fun _ => rfl⟩
  | exception => exact ⟨id, fun hphase => nomatch hphase⟩

/-- A request is refused when its counter is above 1. -/
theorem one_lt_of_refused
    (h : advance service counter phase event = some (counter', .refused)) :
    phase.inFlight = true ∧ 1 < counter.getD 0 := by
  cases advance_change h with
  | quiet _ _ _ hrefused => exact hrefused rfl

end Advance

/-! ## All requests -/

structure Request where
  key : Key
  phase : Phase
deriving DecidableEq, Repr

structure State where
  /-- `Instances` of both services. -/
  instances : Key → Option Int
  requests : List Request

def init : State where
  instances := fun _ => none
  requests := []

/-- The counter, 0 if it is missing. -/
def State.counter (s : State) (key : Key) : Int :=
  (s.instances key).getD 0

/-- The request is in flight and counts for the key. -/
def Request.countsFor (key : Key) (r : Request) : Bool :=
  r.key = key && r.phase.inFlight

/-- The number of requests in flight for a key. -/
def State.inFlight (s : State) (key : Key) : Nat :=
  s.requests.countP (Request.countsFor key)

inductive Label
  | arrive (key : Key)
  | advance (index : Nat) (event : Event)
deriving DecidableEq, Repr

/-- The state after a step of the request `r`. -/
def State.advanced (s : State) (index : Nat) (r : Request) (counter : Option Int)
    (phase : Phase) : State where
  instances := Function.update s.instances r.key counter
  requests := s.requests.set index ⟨r.key, phase⟩

def step (s : State) : Label → Option State
  | .arrive key => some ⟨s.instances, s.requests ++ [⟨key, .arrived⟩]⟩
  | .advance index event => do
    let r ← s.requests[index]?
    let (counter, phase) ← advance r.key.service (s.instances r.key) r.phase event
    some (s.advanced index r counter phase)

/-- Requests that arrive at any time and take their steps in any order. -/
def system : System State Label where
  init := fun s => s = init
  step := step

/-- The step is undisturbed in the state it is taken from. -/
def Orderly (s : State) : Label → Prop
  | .arrive _ => True
  | .advance index event => ∀ r, s.requests[index]? = some r →
    Undisturbed (s.counter r.key) r.phase event

/-- A step that refuses a request is due to another one in flight. -/
def Justified (s : State) : Label → Prop
  | .arrive _ => True
  | .advance index event => ∀ r counter, s.requests[index]? = some r →
    advance r.key.service (s.instances r.key) r.phase event = some (counter, .refused) →
    ∃ other r', other ≠ index ∧ s.requests[other]? = some r' ∧
      r'.key = r.key ∧ r'.phase.inFlight = true

/-- What a step of a request does. -/
theorem step_advance {s s' : State} {index : Nat} {event : Event}
    (h : step s (.advance index event) = some s') :
    ∃ r counter phase, s.requests[index]? = some r ∧
      advance r.key.service (s.instances r.key) r.phase event = some (counter, phase) ∧
      s' = s.advanced index r counter phase := by
  obtain ⟨r, hr, h⟩ := Option.bind_eq_some_iff.1 h
  obtain ⟨⟨counter, phase⟩, hadvance, h⟩ := Option.bind_eq_some_iff.1 h
  exact ⟨r, counter, phase, hr, hadvance, (Option.some.inj h).symm⟩

/-- `Instances[key]` never throws: a request that reads its counter finds it. -/
theorem hasCounter_of_reachable {s : State} (h : system.Reachable s) :
    ∀ r ∈ s.requests, r.phase.hasCounter = true → (s.instances r.key).isSome = true := by
  refine System.Reachable.invariant
    (fun s => ∀ r ∈ s.requests, r.phase.hasCounter = true →
      (s.instances r.key).isSome = true) ?_ ?_ h
  · intro s hinit r hr
    cases hinit
    cases hr
  · intro s l s' hs hstep
    cases l with
    | arrive key =>
      cases hstep
      intro r hr
      rcases List.mem_append.1 hr with hr | hr
      · exact hs r hr
      · cases List.mem_singleton.1 hr
        exact fun hphase => nomatch hphase
    | advance index event =>
      obtain ⟨r, counter, phase, hr, hadvance, rfl⟩ := step_advance hstep
      obtain ⟨hkeep, hnew⟩ := advance_isSome hadvance (hs r (List.mem_of_getElem? hr))
      intro r' hr' hphase
      unfold State.advanced at hr' ⊢
      dsimp only at hr' ⊢
      rcases List.mem_or_eq_of_mem_set hr' with hold | rfl
      · by_cases hkey : r'.key = r.key
        · rw [hkey, Function.update_self]
          exact hkeep (hkey ▸ hs r' hold hphase)
        · rw [Function.update_of_ne hkey]
          exact hs r' hold hphase
      · rw [Function.update_self]
        exact hnew hphase

/-! ## Counting -/

theorem countsFor_self (r : Request) :
    r.countsFor r.key = r.phase.inFlight := by
  simp [Request.countsFor]

theorem countsFor_other {r : Request} {key : Key} (h : r.key ≠ key) :
    r.countsFor key = false := by
  simp [Request.countsFor, h]

/-- Every counter is the number of requests in flight for its key. -/
def Balanced (s : State) : Prop :=
  ∀ key, s.counter key = s.inFlight key

theorem balanced_init : Balanced init := by
  intro key
  rfl

section Advance

variable {s : State} {index : Nat} {event : Event} {r : Request}
  {counter : Option Int} {phase : Phase}

theorem orderly_advance_iff (hr : s.requests[index]? = some r) :
    Orderly s (.advance index event) ↔
      Undisturbed (s.counter r.key) r.phase event := by
  constructor
  · intro h
    exact h r hr
  · intro h r' hr'
    rw [hr] at hr'
    cases hr'
    exact h

theorem counter_advanced_self :
    (s.advanced index r counter phase).counter r.key = counter.getD 0 := by
  unfold State.counter State.advanced
  dsimp only
  rw [Function.update_self]

theorem counter_advanced_other {key : Key} (h : r.key ≠ key) :
    (s.advanced index r counter phase).counter key = s.counter key := by
  unfold State.counter State.advanced
  dsimp only
  rw [Function.update_of_ne (Ne.symm h)]

theorem inFlight_advanced_self (hr : s.requests[index]? = some r) :
    ((s.advanced index r counter phase).inFlight r.key : Int) =
      s.inFlight r.key - r.phase.inFlight.toNat + phase.inFlight.toNat := by
  have hset := Table.countP_set_toNat hr ⟨r.key, phase⟩ (Request.countsFor r.key)
  have hself : Request.countsFor r.key ⟨r.key, phase⟩ = phase.inFlight :=
    countsFor_self ⟨r.key, phase⟩
  rw [countsFor_self, hself] at hset
  exact hset

theorem inFlight_advanced_other (hr : s.requests[index]? = some r) {key : Key}
    (h : r.key ≠ key) :
    ((s.advanced index r counter phase).inFlight key : Int) = s.inFlight key := by
  have hset := Table.countP_set_toNat hr ⟨r.key, phase⟩ (Request.countsFor key)
  have hnew : Request.countsFor key ⟨r.key, phase⟩ = false := countsFor_other h
  rw [countsFor_other h, hnew] at hset
  have hsame : ((s.requests.set index ⟨r.key, phase⟩).countP
      (Request.countsFor key) : Int) = s.requests.countP (Request.countsFor key) := by
    simpa using hset
  exact hsame

end Advance

/-- The step lemma: the counters stay right exactly in the orderly steps. -/
theorem balanced_step {s s' : State} {l : Label} (hs : Balanced s)
    (h : step s l = some s') : Balanced s' ↔ Orderly s l := by
  cases l with
  | arrive key =>
    cases h
    refine iff_of_true (fun k => ?_) trivial
    have hnew : [Request.mk key .arrived].countP (Request.countsFor k) = 0 := by
      simp [Request.countsFor, Phase.inFlight]
    have hcount : (s.requests ++ [Request.mk key .arrived]).countP
        (Request.countsFor k) = s.inFlight k := by
      rw [List.countP_append, hnew]
      rfl
    exact (hs k).trans (congrArg Nat.cast hcount.symm)
  | advance index event =>
    obtain ⟨r, counter, phase, hr, hadvance, rfl⟩ := step_advance h
    have hiff := advance_iff hadvance
    have hcounter := @counter_advanced_self s index r counter phase
    have hflight := @inFlight_advanced_self s index r counter phase hr
    have hbefore : (s.instances r.key).getD 0 = s.inFlight r.key := hs r.key
    rw [orderly_advance_iff hr]
    show _ ↔ Undisturbed ((s.instances r.key).getD 0) r.phase event
    rw [← hiff]
    constructor
    · intro hbalanced
      have hafter := hbalanced r.key
      omega
    · intro hchange key
      by_cases hkey : r.key = key
      · subst hkey
        omega
      · rw [counter_advanced_other hkey, inFlight_advanced_other hr hkey]
        exact hs key

/-- Two requests in flight for a key. -/
theorem exists_other {s : State} {index : Nat} {r : Request}
    (hr : s.requests[index]? = some r) (hflight : r.phase.inFlight = true)
    (h : 1 < s.inFlight r.key) :
    ∃ other r', other ≠ index ∧ s.requests[other]? = some r' ∧
      r'.key = r.key ∧ r'.phase.inFlight = true := by
  have hset := Table.countP_set_toNat hr ⟨r.key, .ended⟩ (Request.countsFor r.key)
  rw [countsFor_self, hflight] at hset
  have hended : Request.countsFor r.key ⟨r.key, .ended⟩ = false := countsFor_self ⟨r.key, .ended⟩
  rw [hended] at hset
  have hpos : 0 < (s.requests.set index ⟨r.key, .ended⟩).countP (Request.countsFor r.key) := by
    unfold State.inFlight at h
    simp only [Bool.toNat_true, Bool.toNat_false] at hset
    omega
  obtain ⟨r', hmem, hcounts⟩ := List.countP_pos_iff.1 hpos
  obtain ⟨other, hother⟩ := List.mem_iff_getElem?.1 hmem
  by_cases hne : other = index
  · subst hne
    have hlt := (List.getElem?_eq_some_iff.1 hr).1
    rw [List.getElem?_set_self hlt] at hother
    cases hother
    rw [hended] at hcounts
    cases hcounts
  · rw [List.getElem?_set_ne (Ne.symm hne)] at hother
    unfold Request.countsFor at hcounts
    rw [Bool.and_eq_true, decide_eq_true_eq] at hcounts
    exact ⟨other, r', hne, hother, hcounts⟩

/-- With right counters a refusal is due to another request in flight. -/
theorem justified_of_balanced {s : State} (hs : Balanced s) (l : Label) :
    Justified s l := by
  cases l with
  | arrive key => trivial
  | advance index event =>
    intro r counter hr hadvance
    obtain ⟨hflight, hcounter⟩ := one_lt_of_refused hadvance
    have hbalance : (s.instances r.key).getD 0 = s.inFlight r.key := hs r.key
    exact exists_other hr hflight (by omega)

/-! ## Runs -/

/-- The counters are right all the time exactly if every step of the run is
orderly: no exception in `Content` or `Close`, and no store by another request
between a read of a counter and its store.  In such a run a request is refused
only while another one for its key is in flight. -/
theorem balanced_iff {s : State} {ls : List Label}
    (hrun : system.run init ls = some s) :
    (system.Along Balanced init ls ↔ system.StepsMeet Orderly init ls) ∧
      (system.StepsMeet Orderly init ls → system.StepsMeet Justified init ls) := by
  have hiff : system.Along Balanced init ls ↔ system.StepsMeet Orderly init ls :=
    System.along_of_step (fun _ => True) Balanced Orderly (fun _ _ _ _ _ => trivial)
      (fun s l s' _ hs h => balanced_step hs h) trivial balanced_init hrun
  refine ⟨hiff, fun horderly => ?_⟩
  exact System.stepsMeet_of_along (fun s l hs => justified_of_balanced hs l)
    balanced_init hrun (hiff.2 horderly)

/-- A request is served while a second one seeks ahead, is refused and ends. -/
def seekWhileServed : List Label :=
  [.arrive ⟨.cache, "u"⟩, .advance 0 .containsKey, .advance 0 .store,
    .advance 0 .read, .advance 0 .store, .advance 0 (.compare false),
    .advance 0 .content, .arrive ⟨.cache, "u"⟩, .advance 1 .containsKey,
    .advance 1 .read, .advance 1 .store, .advance 1 (.compare true),
    .advance 1 .answer, .advance 1 .read, .advance 1 .store]

theorem balanced_seekWhileServed :
    (system.Along Balanced init seekWhileServed ↔
        system.StepsMeet Orderly init seekWhileServed) ∧
      (system.StepsMeet Orderly init seekWhileServed →
        system.StepsMeet Justified init seekWhileServed) :=
  balanced_iff (s := _) rfl

/-- The temporary file of an archive entry is gone when a request opens it,
and a second request seeks ahead. -/
def seekAfterException : List Label :=
  [.arrive ⟨.decompress, "u"⟩, .advance 0 .containsKey, .advance 0 .store,
    .advance 0 .read, .advance 0 .store, .advance 0 (.compare false),
    .advance 0 .throw, .arrive ⟨.decompress, "u"⟩, .advance 1 .containsKey,
    .advance 1 .read, .advance 1 .store, .advance 1 (.compare true)]

/-- The second request is refused though it is the only one. -/
theorem refused_after_exception :
    ∃ s, system.run init seekAfterException = some s ∧
      s.requests = [⟨⟨.decompress, "u"⟩, .ended⟩, ⟨⟨.decompress, "u"⟩, .refused⟩] ∧
      s.counter ⟨.decompress, "u"⟩ = 2 ∧ s.inFlight ⟨.decompress, "u"⟩ = 1 ∧
      ¬Balanced s := by
  refine ⟨_, rfl, rfl, rfl, rfl, fun hbalanced => ?_⟩
  have hkey := hbalanced ⟨.decompress, "u"⟩
  exact absurd hkey (by decide)

end DirectPackageInstaller.Instances
