import DirectPackageInstaller.Lib.Transition
import Mathlib.Logic.Function.Basic

/-!
# The analysis of link lists

`Analyze` keeps what it finds out about a list under the first URL of the list.
A call that finds an entry there returns it, whatever the rest of its own list
is: `LoadUrl` and `CommonDecompress` ask with the first URL alone and get the
list.  The iterations in the background look the entry up again, and read the
URL that they work on from the entry they find.

Calls, iterations and the removals of `LoadUrl` interleave step by step.  The
array that a call makes has the number of the call.  `step_effect` says once
what a step can do.
-/

namespace DirectPackageInstaller.URLAnalyzer

open Transition

/-! ## The code -/

/-- `URLInfoEntry`.  `stream` is the URL of the stream that `Stream` opens. -/
structure URLInfoEntry where
  URL : String
  singleConnection : Bool
  verified : Bool
  failed : Bool
  stream : Option String
  filename : Option String
deriving DecidableEq, Repr

/-- `new URLInfoEntry() { URL = x }`. -/
def URLInfoEntry.new (url : String) : URLInfoEntry where
  URL := url
  singleConnection := false
  verified := false
  failed := false
  stream := none
  filename := none

/-- What an iteration learns from the server: `TryGetRemoteFileName()` and
`SingleConnection`. -/
structure Head where
  filename : Option String
  singleConnection : Bool
deriving DecidableEq, Repr

/-- The answers that a URL may give. -/
abbrev Network := String → Head → Bool

/-- What an iteration stores in the entry it works on. -/
inductive Store
  | stream
  | head (head : Head)
  | verified
  | failed
deriving DecidableEq, Repr

/-- The URL is read from the entry. -/
def URLInfoEntry.store (e : URLInfoEntry) : Store → URLInfoEntry
  | .stream => { e with stream := some e.URL }
  | .head head =>
    { e with
      filename := head.filename
      singleConnection := e.singleConnection || head.singleConnection }
  | .verified => { e with verified := true }
  | .failed => { e with failed := true }

/-- The arguments of a call.  `Analyze` throws for an empty list. -/
structure Args where
  main : String
  rest : List String
  wait : Bool
deriving DecidableEq, Repr

def Args.urls (args : Args) : List String :=
  args.main :: args.rest

/-- How far a call is. -/
inductive Phase
  /-- The call has not been made. -/
  | idle
  /-- In front of `URLInfos.ContainsKey(MainURL)`. -/
  | called
  /-- The key was there; in front of `URLInfos[MainURL]`. -/
  | found
  /-- In the loop that waits for another call's array. -/
  | polling (info : Nat)
  /-- The key was missing; in front of the store. -/
  | missing
  /-- In front of `await BGTask` and the last `URLInfos[MainURL]`. -/
  | started
  | returned (info : Nat)
  /-- `URLInfos[MainURL]` has thrown. -/
  | thrown
  /-- `LoadUrl` has removed the entry and thrown `AbortException`. -/
  | aborted
deriving DecidableEq, Repr

/-- How far an iteration is. -/
inductive Iteration
  | waiting
  /-- The key was there. -/
  | checked
  /-- `ref URLInfos[MainURL].Urls[i]` is an entry of this array. -/
  | found (info : Nat)
  /-- `Stream` is stored. -/
  | opening (info : Nat)
  /-- `Filename` and `SingleConnection` are stored. -/
  | closing (info : Nat)
  | ended
deriving DecidableEq, Repr

structure State where
  /-- `URLInfos`: the array under a first URL. -/
  urlInfos : String → Option Nat
  /-- The arrays `Urls`. -/
  entries : Nat → List URLInfoEntry
  args : Nat → Args
  phase : Nat → Phase
  iteration : Nat → Nat → Iteration
  /-- `LowestBreakIteration`. -/
  lowestBreak : Nat → Option Nat
  /-- An exception has left an iteration. -/
  exceptional : Nat → Bool

def init : State where
  urlInfos := fun _ => none
  entries := fun _ => []
  args := fun _ => ⟨"", [], false⟩
  phase := fun _ => .idle
  iteration := fun _ _ => .waiting
  lowestBreak := fun _ => none
  exceptional := fun _ => false

namespace State

/-- `Links`. -/
def links (s : State) (info : Nat) : List String :=
  (s.entries info).map (·.URL)

/-- `Ready`. -/
def Ready (s : State) (info : Nat) : Prop :=
  ∀ e ∈ s.entries info, e.verified = true

/-- `Failed`. -/
def Failed (s : State) (info : Nat) : Prop :=
  ∃ e ∈ s.entries info, e.failed = true

instance (s : State) (info : Nat) : Decidable (s.Ready info) :=
  inferInstanceAs (Decidable (∀ e ∈ s.entries info, e.verified = true))

instance (s : State) (info : Nat) : Decidable (s.Failed info) :=
  inferInstanceAs (Decidable (∃ e ∈ s.entries info, e.failed = true))

/-- `URLInfos[MainURL]` of a call. -/
def current (s : State) (c : Nat) : Option Nat :=
  s.urlInfos (s.args c).main

/-- The iterations of a call have ended. -/
def WorkEnded (s : State) (c : Nat) : Prop :=
  ∀ i < (s.args c).urls.length, s.iteration c i = .ended

instance (s : State) (c : Nat) : Decidable (s.WorkEnded c) :=
  inferInstanceAs (Decidable (∀ i < (s.args c).urls.length, s.iteration c i = .ended))

/-- `ShouldExitCurrentIteration`. -/
def ShouldExit (s : State) (c i : Nat) : Prop :=
  s.exceptional c = true ∨ ∃ lowest ∈ s.lowestBreak c, lowest < i

instance (s : State) (c i : Nat) : Decidable (s.ShouldExit c i) :=
  inferInstanceAs (Decidable (_ ∨ ∃ lowest ∈ s.lowestBreak c, lowest < i))

def withPhase (s : State) (c : Nat) (phase : Phase) : State :=
  { s with phase := Function.update s.phase c phase }

def withIteration (s : State) (c i : Nat) (iteration : Iteration) : State :=
  { s with
    iteration := Function.update s.iteration c
      (Function.update (s.iteration c) i iteration) }

/-- A store in an entry. -/
def write (s : State) (info i : Nat) (store : Store) : State :=
  { s with
    entries := Function.update s.entries info
      ((s.entries info).modify i (·.store store)) }

/-- The call is made. -/
def analyzed (s : State) (c : Nat) (args : Args) : State :=
  { s.withPhase c .called with args := Function.update s.args c args }

/-- `URLInfos[MainURL] = new URLInfo()`. -/
def stored (s : State) (c : Nat) : State :=
  { s.withPhase c .started with
    urlInfos := Function.update s.urlInfos (s.args c).main (some c)
    entries := Function.update s.entries c ((s.args c).urls.map URLInfoEntry.new) }

/-- `URLInfos.Remove(UrlInfo.MainURL)`. -/
def removed (s : State) (c info : Nat) : State :=
  { s.withPhase c .aborted with
    urlInfos := Function.update s.urlInfos (s.args info).main none }

/-- An exception leaves an iteration. -/
def crash (s : State) (c i : Nat) : State :=
  { s.withIteration c i .ended with exceptional := Function.update s.exceptional c true }

/-- `loop.Break()`. -/
def breakAt (s : State) (c i : Nat) : State :=
  { s with
    lowestBreak := Function.update s.lowestBreak c
      (some (match s.lowestBreak c with
        | some lowest => min lowest i
        | none => i)) }

section Updates

variable {s : State} {c c' i i' info info' : Nat}

@[simp] theorem phase_withPhase_self {phase : Phase} :
    (s.withPhase c phase).phase c = phase :=
  Function.update_self _ _ _

theorem phase_withPhase_of_ne {phase : Phase} (h : c' ≠ c) :
    (s.withPhase c phase).phase c' = s.phase c' :=
  Function.update_of_ne h _ _

/-- Another iteration, or the new one. -/
theorem iteration_withIteration {iteration : Iteration} :
    (s.withIteration c i iteration).iteration c' i' = s.iteration c' i' ∨
      (c' = c ∧ i' = i ∧
        (s.withIteration c i iteration).iteration c' i' = iteration) := by
  unfold withIteration
  by_cases hc : c' = c
  · subst hc
    by_cases hi : i' = i
    · subst hi
      simp
    · simp [Function.update_of_ne hi]
  · simp [Function.update_of_ne hc]

@[simp] theorem entries_write_self {store : Store} :
    (s.write info i store).entries info = (s.entries info).modify i (·.store store) :=
  Function.update_self _ _ _

theorem entries_write_of_ne {store : Store} (h : info' ≠ info) :
    (s.write info i store).entries info' = s.entries info' :=
  Function.update_of_ne h _ _

@[simp] theorem entries_stored_self :
    (s.stored c).entries c = (s.args c).urls.map URLInfoEntry.new :=
  Function.update_self _ _ _

theorem entries_stored_of_ne (h : c' ≠ c) :
    (s.stored c).entries c' = s.entries c' :=
  Function.update_of_ne h _ _

@[simp] theorem urlInfos_stored_self :
    (s.stored c).urlInfos (s.args c).main = some c :=
  Function.update_self _ _ _

theorem urlInfos_stored_of_ne {main : String} (h : main ≠ (s.args c).main) :
    (s.stored c).urlInfos main = s.urlInfos main :=
  Function.update_of_ne h _ _

@[simp] theorem urlInfos_removed_self :
    (s.removed c info).urlInfos (s.args info).main = none :=
  Function.update_self _ _ _

theorem urlInfos_removed_of_ne {main : String} (h : main ≠ (s.args info).main) :
    (s.removed c info).urlInfos main = s.urlInfos main :=
  Function.update_of_ne h _ _

end Updates

end State

inductive CallEvent
  | containsKey
  | lookup
  /-- The loop that waits is left. -/
  | poll
  | store
  | finish
  /-- `LoadUrl` gives up. -/
  | remove
deriving DecidableEq, Repr

/-- A step of a call. -/
def callStep (s : State) (c : Nat) : Phase → CallEvent → Option State
  | .called, .containsKey =>
    some (s.withPhase c (if (s.current c).isSome then .found else .missing))
  | .found, .lookup =>
    match s.current c with
    | some info => some (s.withPhase c (.polling info))
    | none => some (s.withPhase c .thrown)
  | .polling info, .poll =>
    if (s.args c).wait = true ∧ ¬s.Ready info ∧ ¬s.Failed info then none
    else some (s.withPhase c (.returned info))
  | .missing, .store => some (s.stored c)
  | .started, .finish =>
    if (s.args c).wait = true ∧ ¬s.WorkEnded c then none
    else
      match s.current c with
      | some info => some (s.withPhase c (.returned info))
      | none => some (s.withPhase c .thrown)
  | .returned info, .remove =>
    -- `LoadUrl` analyses one URL and does not wait
    if (s.args c).rest = [] ∧ (s.args c).wait = false ∧ s.Failed info then
      some (s.removed c info)
    else none
  | _, _ => none

inductive IterationEvent
  | check
  | find
  | openStream
  | readHead (head : Head)
  | verify
  | fail
deriving DecidableEq, Repr

/-- A step of iteration `i` of the background task. -/
def iterationStep (network : Network) (s : State) (c i : Nat) :
    Iteration → IterationEvent → Option State
  | .waiting, .check =>
    some (s.withIteration c i
      (if s.ShouldExit c i ∨ s.current c = none then .ended else .checked))
  | .checked, .find =>
    -- in front of the `try`
    match s.current c with
    | some info =>
      if i < (s.entries info).length then some (s.withIteration c i (.found info))
      else some (s.crash c i)
    | none => some (s.crash c i)
  | .found info, .openStream =>
    some ((s.write info i .stream).withIteration c i (.opening info))
  | .opening info, .readHead head =>
    if ∃ e ∈ (s.entries info)[i]?, network e.URL head = true then
      some ((s.write info i (.head head)).withIteration c i (.closing info))
    else none
  | .closing info, .verify =>
    some ((s.write info i .verified).withIteration c i .ended)
  | .opening info, .fail | .closing info, .fail =>
    some (((s.write info i .failed).breakAt c i).withIteration c i .ended)
  | _, _ => none

inductive Label
  | analyze (c : Nat) (args : Args)
  | call (c : Nat) (event : CallEvent)
  | iterate (c i : Nat) (event : IterationEvent)
deriving DecidableEq, Repr

def step (network : Network) (s : State) : Label → Option State
  | .analyze c args =>
    if s.phase c = .idle then
      some (s.analyzed c args)
    else none
  | .call c event => callStep s c (s.phase c) event
  | .iterate c i event =>
    -- the loop runs once the array is stored
    if s.entries c ≠ [] ∧ i < (s.args c).urls.length then
      iterationStep network s c i (s.iteration c i) event
    else none

def system (network : Network) : System State Label where
  init := fun s => s = init
  step := step network

/-! ## What a step can do -/

/-- The array that a call holds. -/
def Phase.info : Phase → Option Nat
  | .polling info | .returned info => some info
  | _ => none

/-- The call may have stored its array. -/
def Phase.pastStore : Phase → Bool
  | .started | .returned _ | .thrown | .aborted => true
  | _ => false

/-- The array that an iteration works on. -/
def Iteration.info : Iteration → Option Nat
  | .found info | .opening info | .closing info => some info
  | _ => none

/-- The effects of the steps.  A call changes its phase, stores its array or
removes an entry; an iteration looks the entry up, fails to, or stores in the
entry it works on. -/
inductive Effect (network : Network) (s : State) : Label → State → Prop
  | analyze {c : Nat} (args : Args) (hidle : s.phase c = .idle) :
    Effect network s (.analyze c args) (s.analyzed c args)
  | go {c : Nat} {event : CallEvent} {phase : Phase}
    (hpast : (s.phase c).pastStore = true → phase.pastStore = true)
    (hinfo : ∀ info, phase.info = some info →
      s.current c = some info ∨ (s.phase c).info = some info) :
    Effect network s (.call c event) (s.withPhase c phase)
  | store {c : Nat} (hphase : s.phase c = .missing) :
    Effect network s (.call c .store) (s.stored c)
  | remove {c info : Nat} (hphase : s.phase c = .returned info)
    (hfailed : s.Failed info) :
    Effect network s (.call c .remove) (s.removed c info)
  | lookUp {c i : Nat} {event : IterationEvent} {iteration : Iteration}
    (hstored : s.entries c ≠ []) (hi : i < (s.args c).urls.length)
    (hended : iteration = .ended → s.ShouldExit c i ∨ s.current c = none)
    (hinfo : ∀ info, iteration.info = some info →
      s.current c = some info ∧ i < (s.entries info).length) :
    Effect network s (.iterate c i event) (s.withIteration c i iteration)
  | crash {c i : Nat} {event : IterationEvent} (hstored : s.entries c ≠ [])
    (hi : i < (s.args c).urls.length)
    (hcrash : ∀ info, s.current c = some info → (s.entries info).length ≤ i) :
    Effect network s (.iterate c i event) (s.crash c i)
  | work {c i info : Nat} {event : IterationEvent} {store : Store}
    {iteration : Iteration} (hwork : (s.iteration c i).info = some info)
    (hnext : iteration.info = some info ∨ (iteration = .ended ∧ store = .verified))
    (hhead : ∀ head, store = .head head →
      ∃ e ∈ (s.entries info)[i]?, network e.URL head = true) :
    Effect network s (.iterate c i event)
      ((s.write info i store).withIteration c i iteration)
  | fail {c i info : Nat} {event : IterationEvent}
    (hwork : (s.iteration c i).info = some info) :
    Effect network s (.iterate c i event)
      (((s.write info i .failed).breakAt c i).withIteration c i .ended)

theorem callStep_effect {network : Network} {s s' : State} {c : Nat}
    {event : CallEvent} (h : callStep s c (s.phase c) event = some s') :
    Effect network s (.call c event) s' := by
  unfold callStep at h
  split at h
  · rename_i hphase
    cases h
    refine .go (by rw [hphase]; exact fun h => nomatch h) ?_
    intro info hinfo
    split at hinfo <;> cases hinfo
  · rename_i hphase
    split at h
    · rename_i info hcurrent
      cases h
      refine .go (by rw [hphase]; exact fun h => nomatch h) ?_
      intro j hj
      cases hj
      exact .inl hcurrent
    · cases h
      exact .go (fun _ => rfl) (fun j hj => nomatch hj)
  · rename_i info hphase
    split at h
    · cases h
    · cases h
      refine .go (fun _ => rfl) ?_
      intro j hj
      cases hj
      rw [hphase]
      exact .inr rfl
  · rename_i hphase
    cases h
    exact .store hphase
  · split at h
    · cases h
    · split at h
      · rename_i info hcurrent
        cases h
        refine .go (fun _ => rfl) ?_
        intro j hj
        cases hj
        exact .inl hcurrent
      · cases h
        exact .go (fun _ => rfl) (fun j hj => nomatch hj)
  · rename_i info hphase
    split at h
    · rename_i hremove
      cases h
      exact .remove hphase hremove.2.2
    · cases h
  · cases h

theorem iterationStep_effect {network : Network} {s s' : State} {c i : Nat}
    {event : IterationEvent} (hstored : s.entries c ≠ [])
    (hi : i < (s.args c).urls.length)
    (h : iterationStep network s c i (s.iteration c i) event = some s') :
    Effect network s (.iterate c i event) s' := by
  unfold iterationStep at h
  split at h
  · cases h
    refine .lookUp hstored hi ?_ ?_
    · intro hended
      split at hended
      · assumption
      · cases hended
    · intro info hinfo
      split at hinfo <;> cases hinfo
  · split at h
    · rename_i info hcurrent
      split at h
      · rename_i hlt
        cases h
        refine .lookUp hstored hi (fun hended => nomatch hended) ?_
        intro j hj
        cases hj
        exact ⟨hcurrent, hlt⟩
      · rename_i hlt
        cases h
        refine .crash hstored hi ?_
        intro j hj
        rw [hcurrent] at hj
        cases hj
        exact Nat.le_of_not_lt hlt
    · rename_i hcurrent
      cases h
      refine .crash hstored hi ?_
      intro j hj
      rw [hcurrent] at hj
      cases hj
  · rename_i info hiteration
    cases h
    exact .work (by rw [hiteration]; rfl) (.inl rfl) (fun head hhead => nomatch hhead)
  · rename_i info head hiteration
    split at h
    · rename_i hanswer
      cases h
      refine .work (by rw [hiteration]; rfl) (.inl rfl) ?_
      intro other hother
      cases hother
      exact hanswer
    · cases h
  · rename_i info hiteration
    cases h
    exact .work (by rw [hiteration]; rfl) (.inr ⟨rfl, rfl⟩)
      (fun head hhead => nomatch hhead)
  · rename_i info hiteration
    cases h
    exact .fail (by rw [hiteration]; rfl)
  · rename_i info hiteration
    cases h
    exact .fail (by rw [hiteration]; rfl)
  · cases h

/-- Every step has one of the effects. -/
theorem step_effect {network : Network} {s s' : State} {l : Label}
    (h : step network s l = some s') : Effect network s l s' := by
  unfold step at h
  split at h
  · split at h
    · rename_i hidle
      cases h
      exact .analyze _ hidle
    · cases h
  · exact callStep_effect h
  · split at h
    · rename_i hrunning
      exact iterationStep_effect hrunning.1 hrunning.2 h
    · cases h

end DirectPackageInstaller.URLAnalyzer
