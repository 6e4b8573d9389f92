import DirectPackageInstaller.Lib.Table
import DirectPackageInstaller.Lib.Transition
import Mathlib.Algebra.BigOperators.Group.List.Basic
import Mathlib.Algebra.Order.Group.Nat
import Mathlib.Algebra.Ring.Nat

/-!
# Starting and stopping the listener

`EnsureServer` makes the listener and starts `ServerLoop` unless `ServerRunning` is
set.  The loop ends when it finds the flag cleared, and only then lets go of the
listener.  `StopServer` clears the flag and waits for that; a send that has waited in
vain clears the flag and drops the listener without waiting.

* `serving_iff`: the flag stands for one loop on a listener that listens, exactly if no
  start finds an earlier loop alive or a listener that could not be bound.
* `stop_ends`: the wait of `StopServer` comes to an end.
-/

namespace DirectPackageInstaller.PayloadService.Lifecycle

open Transition

/-! ## The code -/

/-- Where a `ServerLoop` is. -/
inductive LoopPhase where
  | accepting
  /-- Before `while (ServerRunning)`. -/
  | testing
  /-- Before `ServiceSocket?.Close()`. -/
  | closing
  | ended
deriving DecidableEq, Repr

/-- `serviceSocket` says of the listener whether it listens.  A socket is assigned before
it is bound. -/
structure Server where
  serverRunning : Bool
  serviceSocket : Option Bool
  loops : List LoopPhase
deriving DecidableEq, Repr

def start : Server := ⟨false, none, []⟩

inductive Label where
  /-- `EnsureServer`, up to the payload's connection. -/
  | ensureServer (binds : Bool)
  /-- `AcceptAsync` of loop `i` returns or throws. -/
  | accept (i : Nat)
  | test (i : Nat)
  | close (i : Nat)
  /-- `SendPKGPayload` after ten seconds without a connection. -/
  | giveUp
  | stopServer
deriving DecidableEq, Repr

def ensureServer (s : Server) (binds : Bool) : Server :=
  if s.serverRunning then s
  else
    match s.serviceSocket with
    | none =>
      if binds then ⟨true, some true, s.loops ++ [.accepting]⟩
      else { s with serviceSocket := some false }
    | some listens => ⟨true, some listens, s.loops ++ [.accepting]⟩

/-- A loop at `phase` goes on to `next`. -/
def advance (s : Server) (i : Nat) (phase next : LoopPhase) : Option Server :=
  if s.loops[i]? = some phase then some { s with loops := s.loops.set i next } else none

def step (s : Server) : Label → Option Server
  | .ensureServer binds => some (Lifecycle.ensureServer s binds)
  | .accept i => advance s i .accepting .testing
  | .test i => advance s i .testing (if s.serverRunning then .accepting else .closing)
  | .close i => (advance s i .closing .ended).map fun s => { s with serviceSocket := none }
  | .giveUp => some { s with serviceSocket := none, serverRunning := false }
  | .stopServer => some { s with serverRunning := false }

def system : System Server Label where
  init := (· = start)
  step := step

/-! ## One loop on a listener -/

def LoopPhase.alive (phase : LoopPhase) : Bool := phase != .ended

/-- While the flag is set there is one loop, which goes on, and the listener listens. -/
structure Serving (s : Server) : Prop where
  one : s.serverRunning = true → s.loops.countP LoopPhase.alive = 1
  stays : s.serverRunning = true → LoopPhase.closing ∉ s.loops
  listens : s.serverRunning = true → s.serviceSocket = some true

/-- A start that sets the flag finds no loop alive, and has a listener that listens. -/
def Orderly (s : Server) : Label → Prop
  | .ensureServer binds =>
    s.serverRunning = false → (s.serviceSocket = none → binds = true) →
      s.loops.countP LoopPhase.alive = 0 ∧ (s.serviceSocket = none ∨ s.serviceSocket = some true)
  | _ => True

theorem advance_eq_some {s s' : Server} {i : Nat} {phase next : LoopPhase} :
    advance s i phase next = some s' ↔
      s.loops[i]? = some phase ∧ s' = { s with loops := s.loops.set i next } := by
  unfold advance
  rw [Option.ite_none_right_eq_some, Option.some.injEq, eq_comm (b := s')]

/-- A loop that stays alive and does not go to its end. -/
theorem Serving.advance {s : Server} (h : Serving s) {i : Nat} {phase next : LoopPhase}
    (hi : s.loops[i]? = some phase) (hphase : phase.alive = true) (hnext : next.alive = true)
    (hstays : s.serverRunning = true → next ≠ .closing) :
    Serving { s with loops := s.loops.set i next } where
  one := by
    intro hrunning
    show (s.loops.set i next).countP LoopPhase.alive = 1
    rw [Table.countP_set_congr hi (hnext.trans hphase.symm)]
    exact h.one hrunning
  stays := by
    intro hrunning hin
    rcases List.mem_or_eq_of_mem_set hin with hin | heq
    · exact h.stays hrunning hin
    · exact hstays hrunning heq.symm
  listens := h.listens

/-- Nothing is asked of a server whose flag is cleared. -/
theorem serving_stopped {s : Server} (h : s.serverRunning = false) : Serving s where
  one := fun hrunning => by simp [h] at hrunning
  stays := fun hrunning => by simp [h] at hrunning
  listens := fun hrunning => by simp [h] at hrunning

/-- A start with the flag cleared. -/
theorem serving_ensureServer {s : Server} {binds : Bool} (hstopped : s.serverRunning = false) :
    Serving (ensureServer s binds) ↔ Orderly s (.ensureServer binds) := by
  have hstarted : ∀ listens : Bool, Serving ⟨true, some listens, s.loops ++ [.accepting]⟩ ↔
      s.loops.countP LoopPhase.alive = 0 ∧ listens = true := by
    intro listens
    have hcount : (s.loops ++ [LoopPhase.accepting]).countP LoopPhase.alive =
        s.loops.countP LoopPhase.alive + 1 := by
      rw [List.countP_append]
      rfl
    constructor
    · intro h
      have hone := h.one rfl
      have hlistens := h.listens rfl
      change (s.loops ++ [LoopPhase.accepting]).countP LoopPhase.alive = 1 at hone
      change some listens = some true at hlistens
      exact ⟨by omega, Option.some.inj hlistens⟩
    · intro ⟨hnone, hlistens⟩
      subst hlistens
      refine ⟨fun _ => ?_, fun _ hin => ?_, fun _ => rfl⟩
      · show (s.loops ++ [LoopPhase.accepting]).countP LoopPhase.alive = 1
        omega
      · rcases List.mem_append.1 hin with hin | hin
        · have hdead := List.countP_eq_zero.1 hnone _ hin
          exact hdead rfl
        · rw [List.mem_singleton] at hin
          cases hin
  unfold ensureServer Orderly
  rw [hstopped, if_neg (by decide)]
  cases hsocket : s.serviceSocket with
  | none =>
    cases binds with
    | false => exact iff_of_true (serving_stopped rfl) fun _ hbinds => by simp at hbinds
    | true => simp [hstarted]
  | some listens => simp [hstarted]

/-- One step keeps the server serving exactly if it is orderly. -/
theorem serving_step {s s' : Server} {l : Label} (h : Serving s) (hstep : step s l = some s') :
    Serving s' ↔ Orderly s l := by
  cases l with
  | ensureServer binds =>
    cases hstep
    by_cases hrunning : s.serverRunning = true
    · unfold ensureServer
      rw [if_pos hrunning]
      exact iff_of_true h fun hstopped => by simp [hrunning] at hstopped
    · exact serving_ensureServer (by simpa using hrunning)
  | accept i =>
    obtain ⟨hi, rfl⟩ := advance_eq_some.1 hstep
    exact iff_of_true (h.advance hi rfl rfl fun _ => by decide) trivial
  | test i =>
    obtain ⟨hi, rfl⟩ := advance_eq_some.1 hstep
    refine iff_of_true (h.advance hi rfl ?_ fun hrunning => ?_) trivial
    · split <;> rfl
    · rw [if_pos hrunning]
      decide
  | close i =>
    obtain ⟨m, hm, rfl⟩ := Option.map_eq_some_iff.1 hstep
    obtain ⟨hi, rfl⟩ := advance_eq_some.1 hm
    refine iff_of_true (serving_stopped ?_) trivial
    by_contra hrunning
    exact h.stays (by simpa using hrunning) (Table.mem_of_getElem? hi)
  | giveUp | stopServer =>
    cases hstep
    exact iff_of_true (serving_stopped rfl) trivial

/-- In a run, the flag stands for one loop on a listener that listens, all the time,
exactly if every start that sets it finds the earlier loop ended and has such a
listener. -/
theorem serving_iff {s : Server} {ls : List Label} (hrun : system.run start ls = some s) :
    system.Along Serving start ls ↔ system.StepsMeet Orderly start ls :=
  System.along_of_step (fun _ => True) Serving Orderly (fun _ _ _ _ _ => trivial)
    (fun _ _ _ _ hs hstep => serving_step hs hstep) trivial (serving_stopped rfl) hrun

/-- A second package is sent before the loop has noticed that the first one gave up. -/
def sentAgain : List Label := [.ensureServer true, .giveUp, .ensureServer true]

theorem serving_iff_sentAgain :
    system.Along Serving start sentAgain ↔ system.StepsMeet Orderly start sentAgain :=
  serving_iff (s := _) rfl

/-! ## The end of the loop -/

/-- The steps of `ServerLoop`. -/
def LoopStep : Label → Prop
  | .accept _ | .test _ | .close _ => True
  | _ => False

/-- How many steps a loop is away from its end, once the flag is cleared. -/
def LoopPhase.left : LoopPhase → Nat
  | .accepting => 3
  | .testing => 2
  | .closing => 1
  | .ended => 0

def Server.left (s : Server) : Nat := (s.loops.map LoopPhase.left).sum

/-- The flag is cleared, and the last loop has dropped the listener. -/
structure Stopping (s : Server) : Prop where
  stopped : s.serverRunning = false
  dropped : s.loops.countP LoopPhase.alive = 0 → s.serviceSocket = none

theorem sum_set {loops : List LoopPhase} {i : Nat} {phase : LoopPhase}
    (h : loops[i]? = some phase) (next : LoopPhase) :
    ((loops.set i next).map LoopPhase.left).sum + phase.left =
      (loops.map LoopPhase.left).sum + next.left := by
  rw [((Table.set_perm h next).map LoopPhase.left).sum_eq,
    ((Table.perm_of_getElem? h).map LoopPhase.left).sum_eq, List.map_cons, List.map_cons,
    List.sum_cons, List.sum_cons]
  omega

/-- A step of a loop brings it nearer to its end. -/
theorem Stopping.step {s s' : Server} {l : Label} (h : Stopping s) (hl : LoopStep l)
    (hstep : step s l = some s') : Stopping s' ∧ s'.left < s.left := by
  have hstopped := h.stopped
  cases l with
  | ensureServer | giveUp | stopServer => exact absurd hl id
  | accept i =>
    obtain ⟨hi, rfl⟩ := advance_eq_some.1 hstep
    have hsum := sum_set hi .testing
    refine ⟨⟨hstopped, fun hnone => ?_⟩, ?_⟩
    · apply h.dropped
      rw [← Table.countP_set_congr hi (show LoopPhase.testing.alive = _ from rfl)]
      exact hnone
    · simp only [Server.left, LoopPhase.left] at hsum ⊢
      omega
  | test i =>
    obtain ⟨hi, rfl⟩ := advance_eq_some.1 hstep
    rw [hstopped, if_neg (by decide)]
    have hsum := sum_set hi .closing
    refine ⟨⟨rfl, fun hnone => ?_⟩, ?_⟩
    · apply h.dropped
      rw [← Table.countP_set_congr hi (show LoopPhase.closing.alive = _ from rfl)]
      exact hnone
    · simp only [Server.left, LoopPhase.left] at hsum ⊢
      omega
  | close i =>
    obtain ⟨m, hm, rfl⟩ := Option.map_eq_some_iff.1 hstep
    obtain ⟨hi, rfl⟩ := advance_eq_some.1 hm
    have hsum := sum_set hi .ended
    refine ⟨⟨hstopped, fun _ => rfl⟩, ?_⟩
    simp only [Server.left, LoopPhase.left] at hsum ⊢
    omega

theorem Stopping.run {s s' : Server} {ls : List Label} (h : Stopping s)
    (hls : ∀ l ∈ ls, LoopStep l) (hrun : system.run s ls = some s') : Stopping s' := by
  induction ls generalizing s with
  | nil => exact Option.some.inj hrun ▸ h
  | cons l ls ih =>
    obtain ⟨m, hm, hrest⟩ := System.run_cons_eq_some.1 hrun
    exact ih (h.step (hls l List.mem_cons_self) hm).1
      (fun l' hl' => hls l' (List.mem_cons_of_mem _ hl')) hrest

/-- A loop that has not ended can go on. -/
theorem exists_next {s : Server} (halive : s.loops.countP LoopPhase.alive ≠ 0) :
    ∃ l s', LoopStep l ∧ Lifecycle.step s l = some s' := by
  obtain ⟨phase, hmem, hphase⟩ := List.countP_pos_iff.1 (Nat.pos_of_ne_zero halive)
  obtain ⟨i, hi⟩ := List.mem_iff_getElem?.1 hmem
  cases phase with
  | accepting => exact ⟨.accept i, _, trivial, advance_eq_some.2 ⟨hi, rfl⟩⟩
  | testing => exact ⟨.test i, _, trivial, advance_eq_some.2 ⟨hi, rfl⟩⟩
  | closing =>
    exact ⟨.close i, _, trivial, Option.map_eq_some_iff.2 ⟨_, advance_eq_some.2 ⟨hi, rfl⟩, rfl⟩⟩
  | ended => cases hphase

/-- When a server that serves is stopped, its loop drops the listener and ends, after
three steps at most, and it does so wherever its steps come to an end. -/
theorem stop_ends {s : Server} (h : Serving s) (hrunning : s.serverRunning = true) :
    (∃ s', system.RunsTo LoopStep { s with serverRunning := false } s' ∧
        s'.serviceSocket = none ∧ s'.loops.countP LoopPhase.alive = 0) ∧
      ∀ ls s', (∀ l ∈ ls, LoopStep l) →
        system.run { s with serverRunning := false } ls = some s' → ls.length ≤ 3 ∧
          ((∀ l, LoopStep l → Lifecycle.step s' l = none) →
            s'.serviceSocket = none ∧ s'.loops.countP LoopPhase.alive = 0) := by
  have hone := h.one hrunning
  have hstopping : Stopping { s with serverRunning := false } := by
    refine ⟨rfl, fun hnone => ?_⟩
    change s.loops.countP LoopPhase.alive = 0 at hnone
    omega
  constructor
  · obtain ⟨s', hruns, hend, hnone⟩ := System.exists_runsTo_of_rank (S := system) (C := LoopStep)
      Stopping (fun s => s.loops.countP LoopPhase.alive = 0) Server.left
      (fun s hs halive => by
        obtain ⟨l, s', hl, hstep⟩ := exists_next halive
        obtain ⟨hs', hlt⟩ := hs.step hl hstep
        exact ⟨l, s', hl, hstep, hs', hlt⟩) hstopping
    exact ⟨s', hruns, hend.dropped hnone, hnone⟩
  · intro ls s' hls hrun
    have hle := System.length_le_rank (S := system) (C := LoopStep) Stopping Server.left
      (fun s l s' hs hl hstep => hs.step hl hstep) hls hstopping hrun
    have hbound : ∀ loops : List LoopPhase,
        (loops.map LoopPhase.left).sum ≤ 3 * loops.countP LoopPhase.alive := by
      intro loops
      induction loops with
      | nil => exact Nat.le_refl 0
      | cons phase loops ih =>
        rw [List.map_cons, List.sum_cons, List.countP_cons]
        cases phase <;> simp [LoopPhase.left, LoopPhase.alive] <;> omega
    have := hbound s.loops
    change ls.length ≤ (s.loops.map LoopPhase.left).sum at hle
    refine ⟨by omega, fun hlast => ?_⟩
    have hnone : s'.loops.countP LoopPhase.alive = 0 := by
      by_contra halive
      obtain ⟨l, m, hl, hstep⟩ := exists_next halive
      cases (hlast l hl).symm.trans hstep
    exact ⟨(hstopping.run hls hrun).dropped hnone, hnone⟩

theorem stop_ends_started :
    (∃ s', system.RunsTo LoopStep ⟨false, some true, [.accepting]⟩ s' ∧
        s'.serviceSocket = none ∧ s'.loops.countP LoopPhase.alive = 0) ∧
      ∀ ls s', (∀ l ∈ ls, LoopStep l) →
        system.run ⟨false, some true, [.accepting]⟩ ls = some s' → ls.length ≤ 3 ∧
          ((∀ l, LoopStep l → Lifecycle.step s' l = none) →
            s'.serviceSocket = none ∧ s'.loops.countP LoopPhase.alive = 0) :=
  stop_ends (s := ⟨true, some true, [.accepting]⟩)
    ⟨fun _ => rfl, fun _ => by decide, fun _ => rfl⟩ rfl

end DirectPackageInstaller.PayloadService.Lifecycle
