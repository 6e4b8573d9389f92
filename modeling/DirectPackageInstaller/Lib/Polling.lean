import DirectPackageInstaller.Lib.Transition

/-!
# Loops that poll the state of background work

A `Polling` is a piece of background work, a transition system of its own, and
the loops of other threads that read its state until a guard is false.  A loop
takes local variables with it when it is entered, such as a copy of a part of
the state; the guard sees these and the state at the time it is evaluated.

`system` interleaves the events of the work with the entries of loops in any
way.  A loop may leave whenever it finds its guard false.  It is kept then, with
a mark, so that a state shows all loops that were entered.

* `history`: the state of the work is the one that its events lead to, and every
  loop has what it took when it was entered.
* `released_iff`: the loops that have not left are all released exactly when
  each of them was entered at a point from which the events since make its guard
  false.

Nothing here mentions a particular program.
-/

namespace Transition

variable {ω ε κ ν : Type*}

/-- Background work and the loops that poll it.  `κ` are the loops that can be
entered and `ν` their local variables. -/
structure Polling (ω ε κ ν : Type*) where
  work : System ω ε
  /-- The local variables of a loop that is entered now. -/
  enter : ω → κ → ν
  /-- The loop goes on. -/
  guard : ω → ν → Bool

namespace Polling

/-- A loop that was entered behind the events `past`. -/
structure Entered (ε κ ν : Type*) where
  loop : κ
  past : List ε
  vars : ν
  left : Bool

/-- The work, its events so far, and the loops entered. -/
structure State (ω ε κ ν : Type*) where
  work : ω
  past : List ε
  loops : List (Entered ε κ ν)

inductive Label (ε κ : Type*)
  /-- An event of the work. -/
  | work (e : ε)
  | enter (k : κ)
  /-- Loop number `i` finds its guard false. -/
  | leave (i : Nat)

variable (P : Polling ω ε κ ν)

/-- No event has happened, and no loop has been entered. -/
def start (w : ω) : State ω ε κ ν where
  work := w
  past := []
  loops := []

def step (s : State ω ε κ ν) : Label ε κ → Option (State ω ε κ ν)
  | .work e =>
    (P.work.step s.work e).map fun w => { s with work := w, past := s.past ++ [e] }
  | .enter k =>
    some { s with loops := s.loops ++ [⟨k, s.past, P.enter s.work k, false⟩] }
  | .leave i =>
    match s.loops[i]? with
    | none => none
    | some l =>
      if P.guard s.work l.vars then none
      else some { s with loops := s.loops.set i { l with left := true } }

/-- The work, and loops that are entered at any time. -/
def system (w : ω) : System (State ω ε κ ν) (Label ε κ) where
  init := fun s => s = start w
  step := P.step

variable {P}

/-- The loop has what it took when it was entered. -/
def Entered.Ok (P : Polling ω ε κ ν) (w : ω) (past : List ε) (l : Entered ε κ ν) : Prop :=
  ∃ since now, past = l.past ++ since ∧ P.work.run w l.past = some now ∧
    l.vars = P.enter now l.loop

/-- What the steps keep. -/
structure History (P : Polling ω ε κ ν) (w : ω) (s : State ω ε κ ν) : Prop where
  work : P.work.run w s.past = some s.work
  loops : ∀ l ∈ s.loops, l.Ok P w s.past

theorem history {w : ω} {s s' : State ω ε κ ν} {l : Label ε κ} (h : History P w s)
    (hs : P.step s l = some s') : History P w s' := by
  cases l with
  | work e =>
    obtain ⟨w', hw', rfl⟩ := Option.map_eq_some_iff.1 hs
    refine ⟨System.run_append_eq_some.2 ⟨s.work, h.work, ?_⟩, fun l hl => ?_⟩
    · exact System.run_singleton_eq_some.2 hw'
    · obtain ⟨since, now, hpast, hrest⟩ := h.loops l hl
      exact ⟨since ++ [e], now, by rw [hpast, List.append_assoc], hrest⟩
  | enter k =>
    cases hs
    refine ⟨h.work, fun l hl => ?_⟩
    rcases List.mem_append.1 hl with hl | hl
    · exact h.loops l hl
    · rw [List.mem_singleton.1 hl]
      exact ⟨[], s.work, (List.append_nil _).symm, h.work, rfl⟩
  | leave i =>
    simp only [step] at hs
    split at hs
    · cases hs
    · rename_i l hl
      split_ifs at hs
      cases hs
      refine ⟨h.work, fun l' hl' => ?_⟩
      rcases List.mem_or_eq_of_mem_set hl' with hmem | heq
      · exact h.loops l' hmem
      · rw [heq]
        exact h.loops l (List.mem_of_getElem? hl)

theorem history_of_run {w : ω} {ls : List (Label ε κ)} {s : State ω ε κ ν}
    (hrun : (P.system w).run (start w) ls = some s) : History P w s := by
  refine System.invariant_of_run (History P w) (fun _ _ _ h hs => history h hs) ?_ hrun
  exact ⟨System.run_nil w, fun l hl => absurd hl List.not_mem_nil⟩

/-- The loops that have not left are all released exactly when each was entered
where `C` holds, for any `C` that says of an entry whether the events since make
its guard false. -/
theorem released_iff {w : ω} {C : List ε → List ε → κ → Prop} {ls : List (Label ε κ)}
    {s : State ω ε κ ν} (hrun : (P.system w).run (start w) ls = some s)
    (hC : ∀ past since now k, s.past = past ++ since → P.work.run w past = some now →
      (P.guard s.work (P.enter now k) = false ↔ C past since k)) :
    (∀ l ∈ s.loops, l.left = false → P.guard s.work l.vars = false) ↔
      ∀ l ∈ s.loops, l.left = false → C l.past (s.past.drop l.past.length) l.loop := by
  have hhistory := history_of_run hrun
  have hloop : ∀ l ∈ s.loops,
      (P.guard s.work l.vars = false ↔ C l.past (s.past.drop l.past.length) l.loop) := by
    intro l hl
    obtain ⟨since, now, hpast, hnow, hvars⟩ := hhistory.loops l hl
    rw [hvars, hC l.past since now l.loop hpast hnow, hpast, List.drop_left]
  constructor
  · intro h l hl hleft
    exact (hloop l hl).1 (h l hl hleft)
  · intro h l hl hleft
    exact (hloop l hl).2 (h l hl hleft)

end Polling

end Transition
