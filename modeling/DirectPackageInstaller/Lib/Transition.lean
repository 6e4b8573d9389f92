import Mathlib.Data.Option.Basic
import Mathlib.Data.List.Basic
import Mathlib.Logic.Relation
import Mathlib.Order.Basic
import Mathlib.Tactic.Common

/-!
# Labelled transition systems

A `System` is a set of initial states and a partial step function.  The
label of a step resolves every choice that the step leaves open, so a run is
a list of labels and `run` executes it.

The file gives the rules that a development over such a system needs.

* `ReachableWhere.invariant` is the induction rule for invariants.  It is
  stated for the runs whose steps all meet a condition `C`; `Reachable` is the
  case without a condition.
* `reachableWhere_of_run` turns an executed run into a reachability proof.
* `exact_of_step` characterises the runs that keep a property.  When one
  step from an invariant state keeps the property exactly if it meets `C`,
  a whole run keeps it exactly if all its steps meet `C`.
* `along_of_step` does the same for a property that a later step may repair:
  it holds in all states of a run exactly if all steps meet `C`.
  `stepsMeet_of_along` reads off what such a run's steps meet besides.
* `neverDecreases_of_step` does it for a quantity: when one step keeps it from
  falling exactly if it meets `C`, it never falls in a run exactly if all
  steps meet `C`.
* `RunsTo` are the runs whose labels meet a condition, and
  `exists_runsTo_of_rank` is the rule for coming to an end with them;
  `length_le_rank` bounds the runs of steps that all lower a rank.

Nothing here mentions a particular program.
-/

namespace Transition

variable {σ ℓ : Type*}

/-- A labelled transition system with partial deterministic steps.
`step s l = none` means that `l` is not enabled in `s`. -/
structure System (σ ℓ : Type*) where
  /-- The states in which a run may start. -/
  init : σ → Prop
  /-- The effect of a label, when it is enabled. -/
  step : σ → ℓ → Option σ

namespace System

variable (S : System σ ℓ)

/-! ## Reachable states -/

/-- The states reached by runs whose steps all meet `C`. -/
inductive ReachableWhere (C : σ → ℓ → Prop) : σ → Prop
  | init {s : σ} (h : S.init s) : ReachableWhere C s
  | step {s s' : σ} {l : ℓ} (h : ReachableWhere C s) (hc : C s l)
      (hs : S.step s l = some s') : ReachableWhere C s'

/-- The states reached by any run. -/
def Reachable (s : σ) : Prop :=
  S.ReachableWhere (fun _ _ => True) s

variable {S}

theorem Reachable.init {s : σ} (h : S.init s) : S.Reachable s :=
  ReachableWhere.init h

theorem Reachable.step {s s' : σ} {l : ℓ} (h : S.Reachable s)
    (hs : S.step s l = some s') : S.Reachable s' :=
  ReachableWhere.step h trivial hs

/-- The induction rule.  A property that every initial state has and that
every step meeting `C` keeps holds in every state that such steps reach. -/
theorem ReachableWhere.invariant {C : σ → ℓ → Prop} (P : σ → Prop)
    (hinit : ∀ s, S.init s → P s)
    (hstep : ∀ s l s', P s → C s l → S.step s l = some s' → P s')
    {s : σ} (h : S.ReachableWhere C s) : P s := by
  induction h with
  | init h => exact hinit _ h
  | step _ hc hs ih => exact hstep _ _ _ ih hc hs

/-- The induction rule without a condition on the steps. -/
theorem Reachable.invariant (P : σ → Prop)
    (hinit : ∀ s, S.init s → P s)
    (hstep : ∀ s l s', P s → S.step s l = some s' → P s')
    {s : σ} (h : S.Reachable s) : P s :=
  ReachableWhere.invariant P hinit (fun s l s' hp _ hs => hstep s l s' hp hs) h

/-! ## Runs -/

variable (S)

/-- Execute a list of labels. -/
def run (s : σ) : List ℓ → Option σ
  | [] => some s
  | l :: ls => (S.step s l).bind fun s' => run s' ls

/-- Every step of a run meets `C` in the state it is taken from. -/
def StepsMeet (C : σ → ℓ → Prop) : σ → List ℓ → Prop
  | _, [] => True
  | s, l :: ls => C s l ∧ ∀ s', S.step s l = some s' → StepsMeet C s' ls

variable {S}

@[simp] theorem run_nil (s : σ) : S.run s [] = some s := rfl

theorem run_cons_eq_some {s s' : σ} {l : ℓ} {ls : List ℓ} :
    S.run s (l :: ls) = some s' ↔
      ∃ m, S.step s l = some m ∧ S.run m ls = some s' := by
  simp [run, Option.bind_eq_some_iff]

theorem run_append_eq_some {s s' : σ} {ls ls' : List ℓ} :
    S.run s (ls ++ ls') = some s' ↔
      ∃ m, S.run s ls = some m ∧ S.run m ls' = some s' := by
  induction ls generalizing s with
  | nil => simp
  | cons l ls ih =>
    rw [List.cons_append, run_cons_eq_some]
    constructor
    · rintro ⟨n, hn, hrest⟩
      obtain ⟨m, hm, hlast⟩ := ih.1 hrest
      exact ⟨m, run_cons_eq_some.2 ⟨n, hn, hm⟩, hlast⟩
    · rintro ⟨m, hm, hlast⟩
      obtain ⟨n, hn, hrest⟩ := run_cons_eq_some.1 hm
      exact ⟨n, hn, ih.2 ⟨m, hrest, hlast⟩⟩

theorem run_singleton_eq_some {s s' : σ} {l : ℓ} :
    S.run s [l] = some s' ↔ S.step s l = some s' := by
  simp [run_cons_eq_some]

/-- On an enabled first step the condition splits into the step and the rest
of the run. -/
theorem stepsMeet_cons {C : σ → ℓ → Prop} {s m : σ} {l : ℓ} {ls : List ℓ}
    (h : S.step s l = some m) :
    S.StepsMeet C s (l :: ls) ↔ C s l ∧ S.StepsMeet C m ls := by
  simp [StepsMeet, h]

/-- A condition that can be tested can be tested along a run. -/
instance decidableStepsMeet {C : σ → ℓ → Prop} [∀ s l, Decidable (C s l)] (s : σ) :
    (ls : List ℓ) → Decidable (S.StepsMeet C s ls)
  | [] => .isTrue trivial
  | l :: ls =>
    if hc : C s l then
      if h : (S.step s l).isSome then
        haveI := decidableStepsMeet (C := C) ((S.step s l).get h) ls
        decidable_of_iff (S.StepsMeet C ((S.step s l).get h) ls)
          ((and_iff_right hc).symm.trans (stepsMeet_cons (Option.some_get h).symm).symm)
      else .isTrue ⟨hc, fun _ hs' => absurd (Option.isSome_of_eq_some hs') h⟩
    else .isFalse fun h => hc h.1

/-- On an executed first part the condition splits into the two parts. -/
theorem stepsMeet_append {C : σ → ℓ → Prop} {s m : σ} {ls ls' : List ℓ}
    (h : S.run s ls = some m) :
    S.StepsMeet C s (ls ++ ls') ↔ S.StepsMeet C s ls ∧ S.StepsMeet C m ls' := by
  induction ls generalizing s with
  | nil =>
    rw [run_nil, Option.some.injEq] at h
    simp [StepsMeet, h]
  | cons l ls ih =>
    obtain ⟨n, hn, hrest⟩ := run_cons_eq_some.1 h
    rw [List.cons_append, stepsMeet_cons hn, stepsMeet_cons hn, ih hrest,
      and_assoc]

/-- Two conditions are met step by step. -/
theorem stepsMeet_and {C D : σ → ℓ → Prop} {s s' : σ} {ls : List ℓ}
    (h : S.run s ls = some s') :
    S.StepsMeet (fun s l => C s l ∧ D s l) s ls ↔
      S.StepsMeet C s ls ∧ S.StepsMeet D s ls := by
  induction ls generalizing s with
  | nil => simp [StepsMeet]
  | cons l ls ih =>
    obtain ⟨m, hm, hrest⟩ := run_cons_eq_some.1 h
    rw [stepsMeet_cons hm, stepsMeet_cons hm, stepsMeet_cons hm, ih hrest]
    exact and_and_and_comm

/-- An executed run whose steps meet `C` is a reachability proof. -/
theorem reachableWhere_of_run {C : σ → ℓ → Prop} {s s' : σ} {ls : List ℓ}
    (hs : S.ReachableWhere C s) (hrun : S.run s ls = some s')
    (hmeet : S.StepsMeet C s ls) : S.ReachableWhere C s' := by
  induction ls generalizing s with
  | nil =>
    rw [run_nil, Option.some.injEq] at hrun
    exact hrun ▸ hs
  | cons l ls ih =>
    obtain ⟨m, hm, hrest⟩ := run_cons_eq_some.1 hrun
    rw [stepsMeet_cons hm] at hmeet
    exact ih (hs.step hmeet.1 hm) hrest hmeet.2

/-- A condition on the labels alone is checked label by label. -/
theorem stepsMeet_of_forall {C : ℓ → Prop} {ls : List ℓ}
    (h : ∀ l ∈ ls, C l) (s : σ) : S.StepsMeet (fun _ l => C l) s ls := by
  induction ls generalizing s with
  | nil => trivial
  | cons l ls ih =>
    refine ⟨h l (List.mem_cons_self ..), fun s' _ => ?_⟩
    exact ih (fun l hl => h l (List.mem_cons_of_mem _ hl)) s'

/-- An executed run is a reachability proof. -/
theorem reachable_of_run {s s' : σ} {ls : List ℓ} (hs : S.Reachable s)
    (hrun : S.run s ls = some s') : S.Reachable s' :=
  reachableWhere_of_run hs hrun (stepsMeet_of_forall (fun _ _ => trivial) s)

/-- The runs that keep a property.  If a step from a state with the invariant
`I` leads to `P` exactly when it starts in `P` and meets `C`, then a run from
such a state ends in `P` exactly when it starts there and all its steps meet
`C`. -/
theorem exact_of_step (I P : σ → Prop) (C : σ → ℓ → Prop)
    (hI : ∀ s l s', I s → S.step s l = some s' → I s')
    (hP : ∀ s l s', I s → S.step s l = some s' → (P s' ↔ P s ∧ C s l))
    {s s' : σ} {ls : List ℓ} (hs : I s) (hrun : S.run s ls = some s') :
    P s' ↔ P s ∧ S.StepsMeet C s ls := by
  induction ls generalizing s with
  | nil =>
    rw [run_nil, Option.some.injEq] at hrun
    subst hrun
    simp [StepsMeet]
  | cons l ls ih =>
    obtain ⟨m, hm, hrest⟩ := run_cons_eq_some.1 hrun
    rw [ih (hI s l m hs hm) hrest, hP s l m hs hm, stepsMeet_cons hm, and_assoc]

/-! ## Properties of all states of a run -/

variable (S) in
/-- `P` holds after every step of a run. -/
def Along (P : σ → Prop) : σ → List ℓ → Prop
  | _, [] => True
  | s, l :: ls => ∀ s', S.step s l = some s' → P s' ∧ Along P s' ls

theorem along_cons {P : σ → Prop} {s m : σ} {l : ℓ} {ls : List ℓ}
    (h : S.step s l = some m) :
    S.Along P s (l :: ls) ↔ P m ∧ S.Along P m ls := by
  simp [Along, h]

/-- The runs that have a property all the time.  If a step between states with
the invariant `I`, from a state with `P`, leads to `P` exactly when it meets
`C`, then a run has `P` all the time exactly when all its steps meet `C`. -/
theorem along_of_step (I P : σ → Prop) (C : σ → ℓ → Prop)
    (hI : ∀ s l s', I s → S.step s l = some s' → I s')
    (hP : ∀ s l s', I s → P s → S.step s l = some s' → (P s' ↔ C s l))
    {s s' : σ} {ls : List ℓ} (hs : I s) (hp : P s)
    (hrun : S.run s ls = some s') : S.Along P s ls ↔ S.StepsMeet C s ls := by
  induction ls generalizing s with
  | nil => exact Iff.rfl
  | cons l ls ih =>
    obtain ⟨m, hm, hrest⟩ := run_cons_eq_some.1 hrun
    rw [along_cons hm, stepsMeet_cons hm, ← hP s l m hs hp hm]
    exact and_congr_right fun hpm => ih (hI s l m hs hm) hpm hrest

/-- What holds of every step from a state with `P` holds of all steps of a run
that has `P` all the time. -/
theorem stepsMeet_of_along {P : σ → Prop} {C : σ → ℓ → Prop}
    (hC : ∀ s l, P s → C s l) {s s' : σ} {ls : List ℓ} (hp : P s)
    (hrun : S.run s ls = some s') (h : S.Along P s ls) : S.StepsMeet C s ls := by
  induction ls generalizing s with
  | nil => trivial
  | cons l ls ih =>
    obtain ⟨m, hm, hrest⟩ := run_cons_eq_some.1 hrun
    rw [along_cons hm] at h
    rw [stepsMeet_cons hm]
    exact ⟨hC s l hp, ih h.1 hrest h.2⟩

/-! ## Quantities that never decrease -/

section Quantity

variable {α : Type*} [Preorder α]

variable (S) in
/-- `f` does not decrease from any state of a run to any later one. -/
def NeverDecreases (f : σ → α) (s : σ) (ls : List ℓ) : Prop :=
  ∀ (before between after : List ℓ) (earlier later : σ),
    before ++ (between ++ after) = ls → S.run s before = some earlier →
    S.run earlier between = some later → f earlier ≤ f later

/-- A run whose steps meet a condition under which no step lowers `f`. -/
theorem le_of_stepsMeet (I : σ → Prop) (C : σ → ℓ → Prop) (f : σ → α)
    (hI : ∀ s l s', I s → S.step s l = some s' → I s')
    (hf : ∀ s l s', I s → S.step s l = some s' → C s l → f s ≤ f s')
    {s s' : σ} {ls : List ℓ} (hs : I s) (hrun : S.run s ls = some s')
    (hmeet : S.StepsMeet C s ls) : f s ≤ f s' := by
  induction ls generalizing s with
  | nil =>
    rw [run_nil, Option.some.injEq] at hrun
    rw [hrun]
  | cons l ls ih =>
    obtain ⟨m, hm, hrest⟩ := run_cons_eq_some.1 hrun
    rw [stepsMeet_cons hm] at hmeet
    have hstep := hf s l m hs hm hmeet.1
    exact hstep.trans (ih (hI s l m hs hm) hrest hmeet.2)

/-- An invariant of the steps is an invariant of the runs. -/
theorem invariant_of_run (I : σ → Prop)
    (hI : ∀ s l s', I s → S.step s l = some s' → I s')
    {s s' : σ} {ls : List ℓ} (hs : I s) (hrun : S.run s ls = some s') :
    I s' := by
  induction ls generalizing s with
  | nil =>
    rw [run_nil, Option.some.injEq] at hrun
    exact hrun ▸ hs
  | cons l ls ih =>
    obtain ⟨m, hm, hrest⟩ := run_cons_eq_some.1 hrun
    exact ih (hI s l m hs hm) hrest

/-- The runs in which a quantity never decreases.  If a step from a state with
the invariant `I` keeps `f` from falling exactly when it meets `C`, then `f`
never decreases in a run from such a state exactly when all its steps meet
`C`. -/
theorem neverDecreases_of_step (I : σ → Prop) (C : σ → ℓ → Prop) (f : σ → α)
    (hI : ∀ s l s', I s → S.step s l = some s' → I s')
    (hf : ∀ s l s', I s → S.step s l = some s' → (f s ≤ f s' ↔ C s l))
    {s s' : σ} {ls : List ℓ} (hs : I s) (hrun : S.run s ls = some s') :
    S.NeverDecreases f s ls ↔ S.StepsMeet C s ls := by
  constructor
  · intro hnever
    induction ls generalizing s with
    | nil => trivial
    | cons l ls ih =>
      obtain ⟨m, hm, hrest⟩ := run_cons_eq_some.1 hrun
      rw [stepsMeet_cons hm, ← hf s l m hs hm]
      refine ⟨?_, ih (hI s l m hs hm) hrest ?_⟩
      · exact hnever [] [l] ls s m rfl rfl (run_singleton_eq_some.2 hm)
      · intro before between after earlier later heq hbefore hbetween
        have hcons : S.run s (l :: before) = some earlier :=
          run_cons_eq_some.2 ⟨m, hm, hbefore⟩
        exact hnever (l :: before) between after earlier later
          (by rw [List.cons_append, heq]) hcons hbetween
  · intro hmeet before between after earlier later heq hbefore hbetween
    subst heq
    rw [stepsMeet_append hbefore, stepsMeet_append hbetween] at hmeet
    exact le_of_stepsMeet I C f hI (fun s l s' hs hl => (hf s l s' hs hl).2)
      (invariant_of_run I hI hs hbefore) hbetween hmeet.2.1

end Quantity

/-! ## Runs with chosen labels -/

section RunsTo

variable (S)

/-- `s'` comes from `s` by steps whose labels all meet `C`. -/
def RunsTo (C : ℓ → Prop) : σ → σ → Prop :=
  Relation.ReflTransGen fun s s' => ∃ l, C l ∧ S.step s l = some s'

variable {S} {C : ℓ → Prop} {s s' : σ}

theorem RunsTo.single {l : ℓ} (hc : C l) (hs : S.step s l = some s') :
    S.RunsTo C s s' :=
  Relation.ReflTransGen.single ⟨l, hc, hs⟩

theorem RunsTo.mono {D : ℓ → Prop} (hCD : ∀ l, C l → D l)
    (h : S.RunsTo C s s') : S.RunsTo D s s' := by
  refine Relation.ReflTransGen.mono ?_ _ _ h
  rintro a b ⟨l, hc, hs⟩
  exact ⟨l, hCD l hc, hs⟩

/-- What the chosen steps keep, a run of them keeps. -/
theorem RunsTo.invariant (I : σ → Prop)
    (hI : ∀ s l s', I s → C l → S.step s l = some s' → I s') (hs : I s)
    (h : S.RunsTo C s s') : I s' := by
  induction h with
  | refl => exact hs
  | tail _ hstep ih =>
    obtain ⟨l, hc, hs⟩ := hstep
    exact hI _ l _ ih hc hs

theorem RunsTo.reachable (h : S.RunsTo C s s') (hs : S.Reachable s) :
    S.Reachable s' :=
  h.invariant S.Reachable (fun _ _ _ hr _ hstep => hr.step hstep) hs

/-- The rule for coming to an end.  Where one of the chosen steps lowers the
rank of every state that is not done, a run of them leads to one that is. -/
theorem exists_runsTo_of_rank (I done : σ → Prop) (rank : σ → ℕ)
    (hlower : ∀ s, I s → ¬done s →
      ∃ l s', C l ∧ S.step s l = some s' ∧ I s' ∧ rank s' < rank s)
    (hs : I s) : ∃ s', S.RunsTo C s s' ∧ I s' ∧ done s' := by
  induction hn : rank s using Nat.strongRecOn generalizing s with
  | _ n ih =>
    by_cases hdone : done s
    · exact ⟨s, .refl, hs, hdone⟩
    · obtain ⟨l, m, hc, hstep, hm, hlt⟩ := hlower s hs hdone
      obtain ⟨s', hrun, hs', hd⟩ := ih (rank m) (hn ▸ hlt) hm rfl
      exact ⟨s', (RunsTo.single hc hstep).trans hrun, hs', hd⟩

/-- The rule for a bound on runs.  Where every one of the chosen steps lowers the
rank, no run of them is longer than the rank it starts with. -/
theorem length_le_rank (I : σ → Prop) (rank : σ → ℕ)
    (hI : ∀ s l s', I s → C l → S.step s l = some s' → I s' ∧ rank s' < rank s)
    {ls : List ℓ} (hls : ∀ l ∈ ls, C l) (hs : I s)
    (hrun : S.run s ls = some s') : ls.length ≤ rank s := by
  induction ls generalizing s with
  | nil => exact Nat.zero_le _
  | cons l ls ih =>
    obtain ⟨m, hm, hrest⟩ := run_cons_eq_some.1 hrun
    obtain ⟨him, hlt⟩ := hI s l m hs (hls l (List.mem_cons_self ..)) hm
    have hle := ih (fun k hk => hls k (List.mem_cons_of_mem _ hk)) him hrest
    rw [List.length_cons]
    omega

end RunsTo

end System

end Transition
