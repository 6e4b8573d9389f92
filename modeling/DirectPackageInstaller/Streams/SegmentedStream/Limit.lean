import DirectPackageInstaller.Streams.SegmentedStream.Cover

/-!
# The connection limit

A segment that is not completed has a connection.  `MonitorTasksAsync` counts
these in its first lock section and adds segments against two limits: a priority
segment below `Concurrency + 1`, a split below `Concurrency`.  The split is made
in a second lock section, when downloads have moved on; they only complete
segments, so the count that the first section has seen is still a bound.

* `Segment.isCompleted` is for good (`completed_step`).
* `LimitInv` is what the two counts come to.
-/

namespace DirectPackageInstaller.SegmentedStream

open Transition

/-- `_segments.Count(s => !s.IsCompleted)`. -/
def active (segments : List Segment) : Nat :=
  segments.countP fun seg => !seg.isCompleted

theorem length_incomplete (segments : List Segment) :
    (incomplete segments).length = active segments := by
  have hrows : (List.range segments.length).map (segments[·]?) =
      segments.map some := by
    apply List.ext_getElem?
    intro n
    simp only [List.getElem?_map]
    by_cases hn : n < segments.length
    · simp [hn]
    · simp [hn]
  unfold incomplete active
  rw [← List.countP_eq_length_filter]
  have hcount := congrArg
    (List.countP fun row : Option Segment => row.any fun seg => !seg.isCompleted) hrows
  rw [List.countP_map, List.countP_map] at hcount
  exact hcount

/-! ## Changes of the table -/

section Table

variable {segments : List Segment} {i : Nat} {seg : Segment}

/-- A row that is completed no sooner. -/
theorem active_set_le (hi : segments[i]? = some seg) {new : Segment}
    (hnew : seg.isCompleted = true → new.isCompleted = true) :
    active (segments.set i new) ≤ active segments := by
  unfold active
  rw [Table.countP_set_of_getElem? hi, Table.countP_of_getElem? hi]
  cases hold : seg.isCompleted with
  | true => simp [hnew hold]
  | false =>
    cases new.isCompleted <;> simp

theorem active_cutTable_le (hi : segments[i]? = some seg) {newLength : Int}
    (hcut : newLength ≤ seg.length) :
    active (cutTable segments i seg newLength) ≤ active segments + 1 := by
  have hset : active (segments.set i { seg with length := newLength }) ≤
      active segments := by
    apply active_set_le hi
    simp only [Segment.isCompleted, decide_eq_true_eq]
    intro hdone
    omega
  unfold cutTable
  unfold active at hset ⊢
  rw [List.countP_append]
  have hone := List.countP_le_length
    (p := fun seg : Segment => !seg.isCompleted)
    (l := [Segment.fresh (seg.offset + newLength) (seg.length - newLength)])
  rw [List.length_singleton] at hone
  omega

end Table

/-! ## Completed segments -/

/-- Row `i` is completed. -/
def CompletedAt (s : State) (i : Nat) : Prop :=
  ∃ seg, s.segments[i]? = some seg ∧ seg.isCompleted = true

/-- A change of row `j` to a row that is completed no sooner. -/
theorem CompletedAt.set {s s' : State} {i j : Nat} {seg new : Segment}
    (h : CompletedAt s i) (hj : s.segments[j]? = some seg)
    (hnew : seg.isCompleted = true → new.isCompleted = true)
    (hseg : s'.segments = s.segments.set j new) : CompletedAt s' i := by
  obtain ⟨old, hold, hdone⟩ := h
  refine ⟨if j = i then new else old, ?_, ?_⟩
  · rw [hseg]
    exact Table.getElem?_set_of_some hold j new
  · by_cases hji : j = i
    · subst hji
      rw [hj, Option.some.injEq] at hold
      rw [if_pos rfl]
      exact hnew (hold ▸ hdone)
    · rw [if_neg hji]
      exact hdone

theorem CompletedAt.cut {s s' : State} {i j : Nat} {seg : Segment} {newLength : Int}
    (h : CompletedAt s i) (hj : s.segments[j]? = some seg)
    (hcut : newLength ≤ seg.length)
    (hseg : s'.segments = cutTable s.segments j seg newLength) : CompletedAt s' i := by
  have hset : CompletedAt
      { s with segments := s.segments.set j { seg with length := newLength } } i := by
    refine h.set hj ?_ rfl
    simp only [Segment.isCompleted, decide_eq_true_eq]
    intro hdone
    omega
  obtain ⟨row, hrow, hdone⟩ := hset
  refine ⟨row, ?_, hdone⟩
  have hlt := (List.getElem?_eq_some_iff.1 hrow).1
  rw [hseg, cutTable, List.getElem?_append_left hlt]
  exact hrow

/-- What the monitor is about to cut off is not negative. -/
theorem CoverInv.split_le {cfg : Config} {s : State} (h : CoverInv cfg s) {i : Nat}
    {seg : Segment} {splitSize : Int} (hmon : s.monitor = .splitLock i splitSize)
    (hi : s.segments[i]? = some seg) : seg.length - splitSize ≤ seg.length := by
  have hsize := (h.monitor.splitSize hmon hi).1
  omega

/-- A completed segment stays completed. -/
theorem completed_step {cfg : Config} {s s' : State} {l : Label} {i : Nat}
    (hcover : CoverInv cfg s) (h : CompletedAt s i) (hs : step cfg s l = some s') :
    CompletedAt s' i := by
  have hsame : s'.segments = s.segments → CompletedAt s' i := by
    intro hseg
    obtain ⟨seg, hi, hdone⟩ := h
    exact ⟨seg, hseg ▸ hi, hdone⟩
  cases step_change hs with
  | idle hseg => exact hsame hseg
  | pick j hbest hseg => exact hsame hseg
  | stale j seg hold hj hseg => exact hsame hseg
  | control j seg task registered hj hmove hseg =>
    refine h.set hj ?_ hseg
    exact id
  | commit j seg v toRead read hj htask hpos hmax hseg =>
    refine h.set hj ?_ hseg
    simp only [Segment.isCompleted, decide_eq_true_eq]
    intro hdone
    omega
  | create j seg offset hj hinc hlo hhi hseg =>
    exact h.cut hj (by omega) hseg
  | split j seg splitSize hold hj hseg =>
    exact h.cut hj (hcover.split_le hold hj) hseg

/-- Over a whole run. -/
theorem completed_run {cfg : Config} (hbuf : cfg.bufferSize ≤ 2 * 1024 * 1024)
    {s s' : State} {ls : List Label} {i : Nat} (hreach : (system cfg).Reachable s)
    (h : CompletedAt s i) (hrun : (system cfg).run s ls = some s') : CompletedAt s' i := by
  refine (System.invariant_of_run
    (fun t => (system cfg).Reachable t ∧ CompletedAt t i) ?_ ⟨hreach, h⟩ hrun).2
  intro t l t' ht hs
  obtain ⟨hreach, hdone⟩ := ht
  exact ⟨hreach.step hs, completed_step (coverInv_of_reachable hbuf hreach).1 hdone hs⟩

/-! ## The limits -/

/-- The limit on the segments that are not completed, and the lower one while
the monitor holds a segment to split. -/
structure LimitInv (cfg : Config) (s : State) : Prop where
  active_le : (active s.segments : Int) ≤ cfg.concurrency + 1
  split_lt : s.monitor.splits = true → (active s.segments : Int) < cfg.concurrency

theorem limitInv_init {cfg : Config} (hcon : 1 ≤ cfg.concurrency) :
    LimitInv cfg (init cfg) where
  active_le := by
    have hone := List.countP_le_length (p := fun seg : Segment => !seg.isCompleted)
      (l := (init cfg).segments)
    have hlen : (init cfg).segments.length = 1 := rfl
    unfold active
    omega
  split_lt := fun h => nomatch h

/-- A priority segment is created below the limit. -/
theorem createPriority_room {cfg : Config} {s : State} {k : Nat}
    (h : (createPriority cfg s).2 = some k) :
    (active s.segments : Int) < cfg.concurrency + 1 := by
  unfold createPriority at h
  rw [length_incomplete] at h
  dsimp only at h
  split at h
  · cases h
  · split at h
    · assumption
    · cases h

/-- The first lock section picks a segment below the lower limit, and only when it
has not created one. -/
theorem decideStep_splits {cfg : Config} {s : State}
    (h : (decideStep cfg s).monitor.splits = true) :
    (createPriority cfg s).2 = none ∧ (active s.segments : Int) < cfg.concurrency := by
  unfold decideStep at h
  dsimp only at h
  cases hcreated : (createPriority cfg s).2 with
  | some k =>
    rw [hcreated] at h
    cases h
  | none =>
    refine ⟨rfl, ?_⟩
    rw [hcreated, length_incomplete] at h
    by_contra hroom
    rw [if_neg (by simpa using hroom)] at h
    cases h

theorem LimitInv.decide {cfg : Config} {s : State} (h : LimitInv cfg s) :
    LimitInv cfg (decideStep cfg s) := by
  have hcases := (createPriority_cases cfg s).1
  have hseg : (decideStep cfg s).segments = (createPriority cfg s).1.segments := rfl
  rcases hcases with ⟨-, hsame⟩ | ⟨i, seg, offset, hi, -, -, hhi, hcut, hk⟩
  · rw [hsame] at hseg
    refine ⟨?_, fun hsplits => ?_⟩
    · rw [hseg]
      exact h.active_le
    · rw [hseg]
      exact (decideStep_splits hsplits).2
  · have hroom := createPriority_room hk
    have hgrown := active_cutTable_le hi
      (show offset - seg.offset ≤ seg.length by omega)
    refine ⟨?_, fun hsplits => ?_⟩
    · rw [hseg, hcut]
      omega
    · rw [(decideStep_splits hsplits).1] at hk
      cases hk

/-- A step that completes segments at most, and leaves the monitor where it is or
makes it forget its segment. -/
theorem LimitInv.of_le {cfg : Config} {s s' : State} (h : LimitInv cfg s)
    (hle : active s'.segments ≤ active s.segments)
    (hmon : s'.monitor.splits = true → s.monitor.splits = true) : LimitInv cfg s' where
  active_le := by
    have := h.active_le
    omega
  split_lt := fun hsplits => by
    have := h.split_lt (hmon hsplits)
    omega

/-- The monitor is moved by its own steps. -/
theorem monitor_of_ne {cfg : Config} {s s' : State} {l : Label}
    (hs : step cfg s l = some s') (hl : l ≠ .monitor) :
    s'.monitor = s.monitor ∨ s'.monitor = .stopped := by
  cases l with
  | task i =>
    change taskStep cfg s i = some s' at hs
    unfold taskStep at hs
    split at hs
    · cases hs
    · obtain ⟨task, -, rfl⟩ := Option.map_eq_some_iff.1 hs
      exact .inl rfl
  | chunk i read =>
    obtain ⟨_, _, _, -, -, -, -, -, -, -, hmon⟩ := chunkStep_eq_some hs
    exact .inl hmon
  | fail i =>
    change failStep s i = some s' at hs
    unfold failStep at hs
    split at hs
    · cases hs
    · split at hs <;> cases hs <;> exact .inl rfl
  | monitor => exact absurd rfl hl
  | monitorFail =>
    change monitorFailStep s = some s' at hs
    unfold monitorFailStep at hs
    split at hs <;> cases hs
    exact .inr rfl
  | cancel =>
    cases hs
    exact .inl rfl
  | readAt r position count =>
    change readAtStep cfg s r position count = some s' at hs
    unfold readAtStep at hs
    split_ifs at hs <;> cases hs <;> exact .inl rfl
  | wait r slow => exact .inl (waitStep_data hs).2.2.2.1
  | deliver r read =>
    change deliverStep cfg s r read = some s' at hs
    unfold deliverStep at hs
    split at hs
    · cases hs
    · split_ifs at hs
      cases hs
      exact .inl rfl

theorem splits_of_ne {cfg : Config} {s s' : State} {l : Label}
    (hs : step cfg s l = some s') (hl : l ≠ .monitor)
    (h : s'.monitor.splits = true) : s.monitor.splits = true := by
  rcases monitor_of_ne hs hl with hmon | hmon
  · exact hmon ▸ h
  · rw [hmon] at h
    cases h

/-- A step of another thread completes segments at most. -/
theorem active_of_ne {cfg : Config} {s s' : State} {l : Label}
    (hs : step cfg s l = some s') (hl : l ≠ .monitor) :
    active s'.segments ≤ active s.segments := by
  have hlen := (step_frame hs).length hl
  cases step_change hs with
  | idle hseg => rw [hseg]
  | pick j hbest hseg => rw [hseg]
  | stale j seg hold hj hseg => rw [hseg]
  | control j seg task registered hj hmove hseg =>
    rw [hseg]
    exact active_set_le hj id
  | commit j seg v toRead read hj htask hpos hmax hseg =>
    rw [hseg]
    apply active_set_le hj
    simp only [Segment.isCompleted, decide_eq_true_eq]
    intro hdone
    omega
  | create j seg offset hj hinc hlo hhi hseg | split j seg _ hold hj hseg =>
    rw [hseg] at hlen
    simp [cutTable] at hlen

/-- The monitor's own steps. -/
theorem LimitInv.monitorStep {cfg : Config} {s s' : State} (h : LimitInv cfg s)
    (hcover : CoverInv cfg s) (hs : monitorStep cfg s = some s') : LimitInv cfg s' := by
  unfold SegmentedStream.monitorStep at hs
  split at hs
  case h_1 | h_8 =>
    cases hs
    refine h.of_le le_rfl ?_
    dsimp only
    split <;> exact fun hsplits => nomatch hsplits
  case h_2 =>
    cases hs
    refine h.of_le le_rfl ?_
    dsimp only
    split <;> exact fun hsplits => nomatch hsplits
  case h_3 =>
    cases hs
    exact h.decide
  case h_4 i hmon =>
    obtain ⟨seg, -, rfl⟩ := Option.map_eq_some_iff.1 hs
    refine h.of_le le_rfl fun _ => ?_
    rw [hmon]
    rfl
  case h_5 i splitSize hmon =>
    have hsplits : s.monitor.splits = true := by
      rw [hmon]
      rfl
    obtain ⟨seg, hi, hseg⟩ := step_splits (l := .monitor)
      (show step cfg s .monitor = some s' by
        unfold step SegmentedStream.monitorStep
        rw [hmon]
        exact hs) ⟨rfl, hmon⟩
    have hgrown := active_cutTable_le hi (hcover.split_le hmon hi)
    have hroom := h.split_lt hsplits
    refine ⟨?_, fun hafter => ?_⟩
    · rw [hseg]
      omega
    · unfold splitStep at hs
      rw [hi] at hs
      cases hs
      cases hafter
  case h_6 i hmon | h_7 i hmon =>
    obtain ⟨seg, hi, rfl⟩ := Option.map_eq_some_iff.1 hs
    exact h.of_le (active_set_le hi id) fun hsplits => nomatch hsplits
  case h_9 => cases hs

theorem limitInv_of_reachable {cfg : Config} (hbuf : cfg.bufferSize ≤ 2 * 1024 * 1024)
    (hcon : 1 ≤ cfg.concurrency) {s : State} (h : (system cfg).Reachable s) :
    LimitInv cfg s := by
  have hboth : (system cfg).Reachable s ∧ LimitInv cfg s := by
    refine h.invariant (fun t => (system cfg).Reachable t ∧ LimitInv cfg t) ?_ ?_
    · intro t ht
      refine ⟨.init ht, ?_⟩
      rw [show t = init cfg from ht]
      exact limitInv_init hcon
    · intro t l t' ht hs
      obtain ⟨hreach, hinv⟩ := ht
      refine ⟨hreach.step hs, ?_⟩
      by_cases hl : l = .monitor
      · subst hl
        exact hinv.monitorStep (coverInv_of_reachable hbuf hreach).1 hs
      · exact hinv.of_le (active_of_ne hs hl) (splits_of_ne hs hl)
  exact hboth.2

/-! ## One iteration of the monitor -/

/-- The first lock section is about to create a priority segment. -/
def CreatesPriority (cfg : Config) (s : State) : Prop :=
  s.monitor = .decide ∧ (createPriority cfg s).2.isSome = true

instance (cfg : Config) (s : State) : Decidable (CreatesPriority cfg s) :=
  inferInstanceAs (Decidable (_ ∧ _))

/-- The step is not the first lock section, with which the next iteration decides. -/
def SameIteration (s : State) (l : Label) : Prop :=
  ¬(l = .monitor ∧ s.monitor = .decide)

instance (s : State) (l : Label) : Decidable (SameIteration s l) :=
  inferInstanceAs (Decidable ¬_)

/-- A monitor without a segment to split finds one in its first lock section only. -/
theorem splits_of_sameIteration {cfg : Config} {s s' : State} {l : Label}
    (hs : step cfg s l = some s') (hl : SameIteration s l)
    (h : s.monitor.splits = false) : s'.monitor.splits = false := by
  by_cases hmonitor : l = .monitor
  · subst hmonitor
    change monitorStep cfg s = some s' at hs
    unfold monitorStep at hs
    split at hs
    case h_1 | h_8 =>
      cases hs
      dsimp only
      split <;> rfl
    case h_2 =>
      cases hs
      dsimp only
      split <;> rfl
    case h_3 hmon => exact absurd ⟨rfl, hmon⟩ hl
    case h_4 hmon | h_5 hmon =>
      rw [hmon] at h
      cases h
    case h_6 i hmon | h_7 i hmon =>
      obtain ⟨seg, -, rfl⟩ := Option.map_eq_some_iff.1 hs
      rfl
    case h_9 => cases hs
  · rcases monitor_of_ne hs hmonitor with hmon | hmon
    · exact hmon ▸ h
    · rw [hmon]
      rfl

theorem splits_run {cfg : Config} {s s' : State} {ls : List Label}
    (h : s.monitor.splits = false) (hrun : (system cfg).run s ls = some s')
    (hmeet : (system cfg).StepsMeet SameIteration s ls) : s'.monitor.splits = false := by
  induction ls generalizing s with
  | nil =>
    rw [System.run_nil, Option.some.injEq] at hrun
    exact hrun ▸ h
  | cons l ls ih =>
    obtain ⟨m, hm, hrest⟩ := System.run_cons_eq_some.1 hrun
    rw [System.stepsMeet_cons hm] at hmeet
    exact ih (splits_of_sameIteration hm hmeet.1 h) hrest hmeet.2

/-- The first lock section that creates a priority segment picks none to split. -/
theorem CreatesPriority.splits {cfg : Config} {s m : State} (h : CreatesPriority cfg s)
    (hs : step cfg s .monitor = some m) : m.monitor.splits = false := by
  change monitorStep cfg s = some m at hs
  unfold monitorStep at hs
  rw [h.1] at hs
  cases hs
  by_contra hsplits
  have hnone := (decideStep_splits (Bool.eq_true_of_not_eq_false hsplits)).1
  have hsome := h.2
  rw [hnone] at hsome
  cases hsome

theorem not_splits {s : State} (h : s.monitor.splits = false) (l : Label) (i : Nat)
    (splitSize : Int) : ¬Splits s l i splitSize := by
  intro hsplits
  rw [hsplits.2] at h
  cases h

/-- With the buffer that every caller passes, at most `Concurrency + 1` segments are
incomplete; a split is made where fewer than `Concurrency` are, and never in an
iteration that has created a priority segment; a completed segment stays completed. -/
theorem connections_limited (cfg : Config) (hbuf : cfg.bufferSize = 1024 * 1024)
    (hcon : 1 ≤ cfg.concurrency) (s : State) (hreach : (system cfg).Reachable s) :
    (active s.segments : Int) ≤ cfg.concurrency + 1 ∧
      (∀ l i splitSize, Splits s l i splitSize →
        (active s.segments : Int) < cfg.concurrency) ∧
      (∀ m ls s', CreatesPriority cfg s → step cfg s .monitor = some m →
        (system cfg).run m ls = some s' → (system cfg).StepsMeet SameIteration m ls →
        ∀ l i splitSize, ¬Splits s' l i splitSize) ∧
      ∀ ls s' i, CompletedAt s i → (system cfg).run s ls = some s' → CompletedAt s' i := by
  have hsmall : cfg.bufferSize ≤ 2 * 1024 * 1024 := by omega
  have hlimit := limitInv_of_reachable hsmall hcon hreach
  refine ⟨hlimit.active_le, ?_, ?_, ?_⟩
  · intro l i splitSize hsplits
    apply hlimit.split_lt
    rw [hsplits.2]
    rfl
  · intro m ls s' hcreate hm hrun hmeet
    exact not_splits (splits_run (hcreate.splits hm) hrun hmeet)
  · intro ls s' i hdone hrun
    exact completed_run hsmall hreach hdone hrun

/-- The limits when a reader's request has made a second segment. -/
theorem connections_limited_priority :
    ∃ s, (system (sevens 9)).Reachable s ∧ CreatesPriority (sevens 9) s ∧
      (active s.segments : Int) ≤ (sevens 9).concurrency + 1 ∧
      ∀ m, step (sevens 9) s .monitor = some m → ∀ l i k, ¬Splits m l i k := by
  have hrun : ∃ s, (system (sevens 9)).run (init (sevens 9)) [.readAt 0 5 1, .wait 0 true,
      .wait 0 true, .wait 0 true, .monitor, .monitor] = some s ∧
        CreatesPriority (sevens 9) s := ⟨_, rfl, by decide +kernel⟩
  obtain ⟨s, hrun, hcreate⟩ := hrun
  have hreach := System.reachable_of_run (.init rfl) hrun
  have hall := connections_limited (sevens 9) rfl (by decide) s hreach
  refine ⟨s, hreach, hcreate, hall.1, fun m hm => ?_⟩
  exact hall.2.2.1 m [] m hcreate hm rfl trivial

end DirectPackageInstaller.SegmentedStream
