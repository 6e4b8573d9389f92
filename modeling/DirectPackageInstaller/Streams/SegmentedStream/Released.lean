import DirectPackageInstaller.Streams.SegmentedStream.Cancelled

/-!
# What a cancellation leaves readable

A stream that is cancelled can stay in use.  Its tasks and its monitor come to
an end, and what is in the buffer by then is all that a reader will get.

* `exists_ended`: a cancelled stream can always end without another byte.
* `canRead_iff`: a reader at a position is never left behind exactly when the
  stream is not cancelled, or the counters have reached the total size, or all
  is available from the position on and the monitor is not about to split it.
* `settled_readers_iff`: all readers are released, however the tasks and the
  monitor come to their ends, exactly when the counters had reached the total
  size as the stream was cancelled.
-/

namespace DirectPackageInstaller.SegmentedStream

open Transition Tiling

/-- A step in which nobody cancels the download. -/
def Calm (l : Label) : Prop := l ≠ .cancel ∧ l ≠ .monitorFail

/-- A calm step without a chunk. -/
def Still (l : Label) : Prop := Calm l ∧ ∀ i read, l ≠ .chunk i read

/-- The monitor and every task that was ever started have ended. -/
structure Ended (s : State) : Prop where
  monitor : s.monitor = .stopped
  tasks : ∀ seg ∈ s.segments,
    seg.task = .completed ∨ seg.task = .created ∧ seg.registered = false

/-- Whatever the tasks still do: when they have ended, a reader at the position
leaves the wait loop. -/
def CanRead (cfg : Config) (s : State) (position : Int) : Prop :=
  ∀ s' count, (system cfg).RunsTo Calm s s' → Ended s' → 0 < count →
    position < cfg.totalSize →
      ReaderExits cfg s' position (min count (cfg.totalSize - position))

/-- The split that the monitor is about to make cuts nothing off, or it is in a
segment that ends before the position. -/
def SplitsBelow (position : Int) : State → Prop :=
  MonitorHolds (fun _ => True) fun splitSize seg =>
    splitSize = 0 ∨ seg.offset + seg.length ≤ position

/-- The rest from the position on is available, and stays so. -/
structure RestReady (cfg : Config) (s : State) (position : Int) : Prop where
  available : ∀ p, position ≤ p → p < cfg.totalSize → AvailableAt s.segments p
  split : SplitsBelow position s

/-- What a cancelled stream must have. -/
def Released (cfg : Config) (s : State) (position : Int) : Prop :=
  cfg.totalSize ≤ totalProgress s.segments ∨ RestReady cfg s position

/-! ## Calm steps -/

theorem monitorStep_cancelled {cfg : Config} {s s' : State}
    (h : monitorStep cfg s = some s') : s'.cancelled = s.cancelled := by
  unfold monitorStep at h
  split at h
  case h_3 =>
    cases h
    exact createPriority_cancelled cfg s
  case h_4 | h_6 | h_7 =>
    obtain ⟨seg, -, rfl⟩ := Option.map_eq_some_iff.1 h
    rfl
  case h_5 =>
    unfold splitStep at h
    split at h <;> cases h
    rfl
  case h_9 => cases h
  all_goals
    cases h
    rfl

theorem waitStep_cancelled {cfg : Config} {s s' : State} {r : Nat} {slow : Bool}
    (h : waitStep cfg s r slow = some s') : s'.cancelled = s.cancelled := by
  unfold waitStep at h
  split at h
  · cases h
  split at h
  case h_4 =>
    split_ifs at h <;> cases h
    · unfold requestPrioritySegment
      split_ifs <;> rfl
    · rfl
  case h_5 => cases h
  all_goals
    cases h
    rfl

/-- Only the two steps that are not calm cancel. -/
theorem step_cancelled {cfg : Config} {s s' : State} {l : Label} (hl : Calm l)
    (h : step cfg s l = some s') : s'.cancelled = s.cancelled := by
  cases l with
  | task i =>
    change taskStep cfg s i = some s' at h
    unfold taskStep at h
    split at h
    · cases h
    · obtain ⟨task, -, rfl⟩ := Option.map_eq_some_iff.1 h
      rfl
  | chunk i read =>
    change chunkStep cfg s i read = some s' at h
    unfold chunkStep at h
    split at h
    · cases h
    · split at h
      · split_ifs at h <;> cases h <;> rfl
      · cases h
  | fail i =>
    change failStep s i = some s' at h
    unfold failStep at h
    split at h
    · cases h
    · split at h <;> cases h <;> rfl
  | monitor => exact monitorStep_cancelled h
  | monitorFail => exact absurd rfl hl.2
  | cancel => exact absurd rfl hl.1
  | readAt r position count =>
    change readAtStep cfg s r position count = some s' at h
    unfold readAtStep at h
    split_ifs at h <;> cases h <;> rfl
  | wait r slow => exact waitStep_cancelled h
  | deliver r read =>
    change deliverStep cfg s r read = some s' at h
    unfold deliverStep at h
    split at h
    · cases h
    · split_ifs at h
      cases h
      rfl

theorem cancelled_of_runsTo {cfg : Config} {s s' : State}
    (h : (system cfg).RunsTo Calm s s') : s'.cancelled = s.cancelled :=
  h.invariant (fun t => t.cancelled = s.cancelled)
    (fun _ _ _ ht hl hs => (step_cancelled hl hs).trans ht) rfl

theorem Ended.settled {s : State} (h : Ended s) (hcan : s.cancelled = true) :
    Settled s :=
  ⟨hcan, h.monitor, h.tasks⟩

/-! ## Tasks that were started -/

/-- A task is registered after it was started, and the monitor starts segments
of the table. -/
structure Started (s : State) : Prop where
  registered : ∀ seg ∈ s.segments, seg.registered = true → seg.task ≠ .created
  start : ∀ i, s.monitor = .start i → i < s.segments.length
  register : ∀ i, s.monitor = .register i →
    ∃ seg, s.segments[i]? = some seg ∧ seg.task ≠ .created

theorem started_init (cfg : Config) : Started (init cfg) where
  registered := by
    intro seg hmem _
    rw [init, List.mem_singleton] at hmem
    subst hmem
    rintro ⟨⟩
  start := by rintro i ⟨⟩
  register := by rintro i ⟨⟩

/-- Neither the table nor the monitor moves. -/
theorem Started.same {s s' : State} (h : Started s)
    (hseg : s'.segments = s.segments) (hmon : s'.monitor = s.monitor) :
    Started s' := by
  refine ⟨?_, ?_, ?_⟩
  · rw [hseg]
    exact h.registered
  · rw [hseg, hmon]
    exact h.start
  · rw [hseg, hmon]
    exact h.register

/-- A task moves that was started before. -/
theorem Started.set {s s' : State} (h : Started s) {i : Nat} {new : Segment}
    (hnew : new.task ≠ .created)
    (hseg : s'.segments = s.segments.set i new) (hmon : s'.monitor = s.monitor) :
    Started s' := by
  refine ⟨?_, ?_, ?_⟩
  · rw [hseg]
    exact Table.forall_mem_set h.registered fun _ => hnew
  · rw [hseg, hmon, List.length_set]
    exact h.start
  · intro j hj
    obtain ⟨old, hold, htask⟩ := h.register j (hmon ▸ hj)
    refine ⟨_, hseg ▸ Table.getElem?_set_of_some hold i new, ?_⟩
    split
    · exact hnew
    · exact htask

/-- The monitor moves to a place where it holds no segment. -/
theorem Started.of_monitor {s : State}
    (hreg : ∀ seg ∈ s.segments, seg.registered = true → seg.task ≠ .created)
    (hstart : ∀ i, s.monitor ≠ .start i)
    (hregister : ∀ i, s.monitor ≠ .register i) : Started s :=
  ⟨hreg, fun i h => absurd h (hstart i), fun i h => absurd h (hregister i)⟩

/-- The segments after a cut, the last of which the monitor is about to
start. -/
theorem Started.cut {s s' : State} (h : Started s) {i : Nat} {seg : Segment}
    {newLength : Int} (hi : s.segments[i]? = some seg)
    (hseg : s'.segments = cutTable s.segments i seg newLength)
    (hmon : s'.monitor = .start s.segments.length) : Started s' := by
  refine ⟨?_, ?_, ?_⟩
  · rw [hseg]
    exact forall_mem_cutTable h.registered
      (h.registered seg (Table.mem_of_getElem? hi)) fun hfresh => nomatch hfresh
  · intro j hj
    rw [hmon, MonitorPc.start.injEq] at hj
    rw [hseg, cutTable, List.length_append, List.length_set]
    exact hj ▸ Nat.lt_succ_self _
  · intro j hj
    rw [hmon] at hj
    cases hj

/-- Where the monitor goes from its first lock section. -/
theorem decideStep_monitor (cfg : Config) (s : State) :
    (∃ i seg newLength, s.segments[i]? = some seg ∧
      (decideStep cfg s).segments = cutTable s.segments i seg newLength ∧
      (decideStep cfg s).monitor = .start s.segments.length) ∨
    (decideStep cfg s).segments = s.segments ∧
      ((decideStep cfg s).monitor = .delay ∨
        ∃ i, (decideStep cfg s).monitor = .readRemaining i) := by
  have hcases := (createPriority_cases cfg s).1
  unfold decideStep
  cases hc : createPriority cfg s with
  | mk s₁ created =>
    rw [hc] at hcases
    dsimp only at hcases ⊢
    rcases hcases with ⟨rfl, hseg⟩ | ⟨i, seg, offset, hi, -, -, -, hseg, rfl⟩
    · refine Or.inr ⟨hseg, ?_⟩
      split
      · rename_i hsome
        cases hsome
      · exact Or.inr ⟨_, rfl⟩
      · exact Or.inl rfl
    · exact Or.inl ⟨i, seg, _, hi, hseg, rfl⟩

theorem monitorStep_started {cfg : Config} {s s' : State} (h : Started s)
    (hs : monitorStep cfg s = some s') : Started s' := by
  unfold monitorStep at hs
  split at hs
  case h_1 | h_2 | h_8 =>
    cases hs
    refine .of_monitor h.registered ?_ ?_ <;>
    · intro i
      dsimp only
      split <;> exact fun h => nomatch h
  case h_3 =>
    cases hs
    rcases decideStep_monitor cfg s with ⟨i, seg, n, hi, hseg, hmon⟩ | ⟨hseg, hmon⟩
    · exact h.cut hi hseg hmon
    · refine .of_monitor (hseg ▸ h.registered) ?_ ?_ <;>
      · intro j hj
        rw [hj] at hmon
        rcases hmon with hmon | ⟨i, hmon⟩ <;> cases hmon
  case h_4 i hmon =>
    obtain ⟨seg, -, rfl⟩ := Option.map_eq_some_iff.1 hs
    exact .of_monitor h.registered (fun _ h => nomatch h) fun _ h => nomatch h
  case h_5 i splitSize hmon =>
    have hstep : step cfg s .monitor = some s' := by
      change monitorStep cfg s = some s'
      unfold monitorStep
      rw [hmon]
      exact hs
    obtain ⟨seg, hi, hseg⟩ := step_splits hstep ⟨rfl, hmon⟩
    refine h.cut hi hseg ?_
    unfold splitStep at hs
    rw [hi] at hs
    cases hs
    rfl
  case h_6 i hmon =>
    obtain ⟨seg, hi, rfl⟩ := Option.map_eq_some_iff.1 hs
    refine ⟨?_, (fun _ h => nomatch h), fun j hj => ?_⟩
    · exact Table.forall_mem_set h.registered fun _ h => nomatch h
    · cases hj
      exact ⟨_, List.getElem?_set_self (h.start i hmon), fun h => nomatch h⟩
  case h_7 i hmon =>
    obtain ⟨seg, hi, rfl⟩ := Option.map_eq_some_iff.1 hs
    obtain ⟨old, hold, htask⟩ := h.register i hmon
    rw [hi, Option.some.injEq] at hold
    refine .of_monitor ?_ (fun _ h => nomatch h) fun _ h => nomatch h
    exact Table.forall_mem_set h.registered fun _ => hold ▸ htask
  case h_9 => cases hs

theorem DownloadTask.next_ne_created {cfg : Config} {cancelled : Bool}
    {seg : Segment} {task task' : DownloadTask}
    (h : task.next cfg cancelled seg = some task') : task' ≠ .created := by
  unfold DownloadTask.next at h
  split at h
  all_goals try split at h
  all_goals try split at h
  all_goals
    cases h
    try exact fun h => nomatch h

theorem step_started {cfg : Config} {s s' : State} {l : Label} (h : Started s)
    (hs : step cfg s l = some s') : Started s' := by
  cases l with
  | task i =>
    change taskStep cfg s i = some s' at hs
    unfold taskStep at hs
    split at hs
    · cases hs
    · obtain ⟨task, hnext, rfl⟩ := Option.map_eq_some_iff.1 hs
      exact h.set (DownloadTask.next_ne_created hnext) rfl rfl
  | chunk i read =>
    obtain ⟨seg, v, toRead, -, -, -, -, hseg, -, -, hmon⟩ := chunkStep_eq_some hs
    refine h.set ?_ hseg hmon
    exact fun h => nomatch h
  | fail i =>
    change failStep s i = some s' at hs
    unfold failStep at hs
    split at hs
    · cases hs
    · split at hs <;> cases hs <;>
      · refine h.set ?_ rfl rfl
        exact fun h => nomatch h
  | monitor => exact monitorStep_started h hs
  | monitorFail =>
    change monitorFailStep s = some s' at hs
    unfold monitorFailStep at hs
    split at hs <;> cases hs
    exact .of_monitor h.registered (fun _ h => nomatch h) fun _ h => nomatch h
  | cancel =>
    cases hs
    exact h.same rfl rfl
  | readAt r position count =>
    change readAtStep cfg s r position count = some s' at hs
    unfold readAtStep at hs
    split_ifs at hs <;> cases hs <;> exact h.same rfl rfl
  | wait r slow =>
    obtain ⟨hseg, -, -, hmon, -⟩ := waitStep_data hs
    exact h.same hseg hmon
  | deliver r read =>
    change deliverStep cfg s r read = some s' at hs
    unfold deliverStep at hs
    split at hs
    · cases hs
    · split_ifs at hs
      cases hs
      exact h.same rfl rfl

theorem started_of_reachable {cfg : Config} {s : State}
    (h : (system cfg).Reachable s) : Started s := by
  refine h.invariant Started ?_ fun s l s' hst hs => step_started hst hs
  rintro s rfl
  exact started_init cfg

/-! ## Coming to an end -/

/-- How many steps the monitor is away from its end, once it is cancelled. -/
def MonitorPc.rank : MonitorPc → Nat
  | .stopped => 0
  | .loopTest => 1
  | .delay => 2
  | .register _ => 3
  | .start _ => 4
  | .splitLock _ _ => 5
  | .readRemaining _ => 6
  | .decide => 7
  | .progressTest => 8

/-- How many steps a task is away from its end, once it is cancelled. -/
def DownloadTask.rank : DownloadTask → Nat
  | .created | .completed => 0
  | .outerLoop => 1
  | .connecting | .innerLoop _ | .innerTest _ | .reading _ _ => 2
  | .outerTest => 3

/-- A state of a run that was cancelled. -/
structure Ending (cfg : Config) (s : State) : Prop where
  cancelled : s.cancelled = true
  reachable : (system cfg).Reachable s

theorem Ending.step {cfg : Config} {s s' : State} {l : Label}
    (h : Ending cfg s) (hs : step cfg s l = some s') : Ending cfg s' :=
  ⟨(step_frame hs).cancelled h.cancelled, h.reachable.step hs⟩

theorem still_monitor : Still .monitor :=
  ⟨⟨fun h => (nomatch h), fun h => nomatch h⟩, fun _ _ h => nomatch h⟩

theorem still_task (i : Nat) : Still (.task i) :=
  ⟨⟨fun h => (nomatch h), fun h => nomatch h⟩, fun _ _ h => nomatch h⟩

theorem still_fail (i : Nat) : Still (.fail i) :=
  ⟨⟨fun h => (nomatch h), fun h => nomatch h⟩, fun _ _ h => nomatch h⟩

/-- The monitor always gets one step closer to its end. -/
theorem Ending.monitor {cfg : Config}
    (hbuf : cfg.bufferSize ≤ 2 * 1024 * 1024) {s : State} (h : Ending cfg s)
    (hrun : s.monitor ≠ .stopped) :
    ∃ s', monitorStep cfg s = some s' ∧ s'.monitor.rank < s.monitor.rank := by
  have hok := (coverInv_of_reachable hbuf h.reachable).1.monitor
  have hstarted := started_of_reachable h.reachable
  unfold MonitorOk at hok
  unfold monitorStep
  cases hmon : s.monitor with
  | stopped => exact absurd hmon hrun
  | loopTest =>
    refine ⟨_, rfl, ?_⟩
    dsimp only
    rw [if_pos h.cancelled]
    decide
  | progressTest =>
    refine ⟨_, rfl, ?_⟩
    dsimp only
    split <;> decide
  | decide =>
    refine ⟨_, rfl, ?_⟩
    rcases decideStep_monitor cfg s with ⟨-, -, -, -, -, hgo⟩ | ⟨-, hgo | ⟨i, hgo⟩⟩ <;>
    · rw [hgo]
      simp [MonitorPc.rank]
  | readRemaining i =>
    rw [hmon] at hok
    obtain ⟨seg, hi, -⟩ := hok
    refine ⟨_, by dsimp only; rw [hi]; rfl, ?_⟩
    simp [MonitorPc.rank]
  | splitLock i splitSize =>
    rw [hmon] at hok
    obtain ⟨seg, hi, -⟩ := hok
    refine ⟨_, by dsimp only; unfold splitStep; rw [hi], ?_⟩
    simp [MonitorPc.rank]
  | start i =>
    have hi := List.getElem?_eq_getElem (hstarted.start i hmon)
    refine ⟨_, by dsimp only; rw [hi]; rfl, ?_⟩
    simp [MonitorPc.rank]
  | register i =>
    obtain ⟨seg, hi, -⟩ := hstarted.register i hmon
    refine ⟨_, by dsimp only; rw [hi]; rfl, ?_⟩
    simp [MonitorPc.rank]
  | delay =>
    refine ⟨_, rfl, ?_⟩
    dsimp only
    rw [if_pos h.cancelled]
    decide

theorem taskStep_of_next {cfg : Config} {s : State} {i : Nat} {seg : Segment}
    {task : DownloadTask} (hi : s.segments[i]? = some seg)
    (hnext : seg.task.next cfg s.cancelled seg = some task) :
    taskStep cfg s i = some (s.setSegment i { seg with task }) := by
  unfold taskStep
  rw [hi]
  dsimp only
  rw [hnext]
  rfl

/-- Inside its `try` block a task can always fail. -/
theorem failStep_of_rank {s : State} {i : Nat} {seg : Segment}
    (hi : s.segments[i]? = some seg) (hrank : seg.task.rank = 2) :
    failStep s i = some (s.setSegment i { seg with task := .outerLoop }) := by
  unfold failStep
  rw [hi]
  dsimp only
  cases htask : seg.task with
  | connecting | innerLoop | innerTest | reading => rfl
  | created | completed | outerLoop | outerTest =>
    rw [htask] at hrank
    cases hrank

/-- A task that has not ended gets one step closer to its end. -/
theorem Ending.task {cfg : Config} {s : State} (h : Ending cfg s) {i : Nat}
    {seg : Segment} (hi : s.segments[i]? = some seg) (hrun : seg.task.rank ≠ 0) :
    ∃ l task, Still l ∧
      SegmentedStream.step cfg s l = some (s.setSegment i { seg with task }) ∧
        task.rank < seg.task.rank := by
  cases htask : seg.task with
  | created | completed =>
    rw [htask] at hrun
    exact absurd rfl hrun
  | outerLoop =>
    refine ⟨_, .completed, still_task i, taskStep_of_next hi ?_, by decide⟩
    rw [htask, DownloadTask.next, if_pos h.cancelled]
  | outerTest =>
    refine ⟨_, _, still_task i, taskStep_of_next hi (by rw [htask]; rfl), ?_⟩
    split <;> decide
  | connecting | innerLoop | innerTest | reading =>
    refine ⟨_, .outerLoop, still_fail i, failStep_of_rank hi (by rw [htask]; rfl), ?_⟩
    simp [DownloadTask.rank]

/-- How many steps all the tasks are away from their ends. -/
def tasksRank (segments : List Segment) : Nat :=
  (segments.map fun seg => seg.task.rank).sum

theorem tasksRank_set_lt {segments : List Segment} {i : Nat} {seg new : Segment}
    (hi : segments[i]? = some seg) (hlt : new.task.rank < seg.task.rank) :
    tasksRank (segments.set i new) < tasksRank segments := by
  have hold := ((Table.perm_of_getElem? hi).map fun seg => seg.task.rank).sum_eq
  have hnew := ((Table.set_perm hi new).map fun seg => seg.task.rank).sum_eq
  simp only [List.map_cons, List.sum_cons] at hold hnew
  unfold tasksRank
  omega

/-- A cancelled stream can end without another byte. -/
theorem exists_ended {cfg : Config} (hbuf : cfg.bufferSize ≤ 2 * 1024 * 1024)
    {s : State} (h : Ending cfg s) :
    ∃ s', (system cfg).RunsTo Still s s' ∧ Ending cfg s' ∧ Ended s' := by
  -- first the monitor
  obtain ⟨s₁, hrun₁, hs₁, hstop₁⟩ := System.exists_runsTo_of_rank (S := system cfg)
    (C := Still) (Ending cfg) (fun s => s.monitor = .stopped)
    (fun s => s.monitor.rank) (fun s hs hrun => by
      obtain ⟨s', hstep, hlt⟩ := hs.monitor hbuf hrun
      exact ⟨.monitor, s', still_monitor, hstep, hs.step (l := .monitor) hstep, hlt⟩) h
  -- then the tasks
  obtain ⟨s₂, hrun₂, ⟨hs₂, hstop₂⟩, hdone⟩ := System.exists_runsTo_of_rank
    (S := system cfg) (C := Still)
    (fun s => Ending cfg s ∧ s.monitor = .stopped)
    (fun s => ∀ seg ∈ s.segments, seg.task.rank = 0)
    (fun s => tasksRank s.segments) (fun s hs hrun => by
      push Not at hrun
      obtain ⟨seg, hmem, hrank⟩ := hrun
      obtain ⟨i, hi⟩ := List.mem_iff_getElem?.1 hmem
      obtain ⟨l, task, hl, hstep, hlt⟩ := hs.1.task hi hrank
      have hset : tasksRank (s.segments.set i { seg with task }) <
          tasksRank s.segments := tasksRank_set_lt hi hlt
      exact ⟨l, _, hl, hstep, ⟨hs.1.step hstep, hs.2⟩, hset⟩)
    ⟨hs₁, hstop₁⟩
  refine ⟨s₂, hrun₁.trans hrun₂, hs₂, hstop₂, fun seg hmem => ?_⟩
  have hrank := hdone seg hmem
  cases htask : seg.task with
  | completed => exact Or.inl rfl
  | created =>
    -- a task that was not started is not registered
    refine Or.inr ⟨rfl, ?_⟩
    by_contra hreg
    rw [Bool.not_eq_false] at hreg
    exact (started_of_reachable hs₂.reachable).registered seg hmem hreg htask
  | outerLoop | outerTest | connecting | innerLoop | innerTest | reading =>
    rw [htask] at hrank
    cases hrank

/-- Without a chunk nothing becomes available and no counter moves. -/
theorem Still.step {cfg : Config} {s s' : State} {l : Label} (hl : Still l)
    (h : CoverInv cfg s) (hs : step cfg s l = some s') :
    totalProgress s'.segments = totalProgress s.segments ∧
      ∀ p, AvailableAt s'.segments p → AvailableAt s.segments p := by
  have hsum := (step_frame hs).progress hl.2
  refine ⟨hsum, fun p hp => ?_⟩
  cases step_change hs with
  | idle hseg | pick i hbest hseg | stale i seg hold hi hseg =>
    rw [hseg] at hp
    exact hp
  | control i seg task registered hi hmove hseg =>
    rw [hseg] at hp
    refine (Table.exists_mem_set_congr hi ?_).1 hp
    exact Iff.rfl
  | commit i seg v toRead read hi htask hpos hmax hseg =>
    -- the chunk is empty
    rw [hseg, totalProgress_set hi] at hsum
    dsimp only at hsum
    obtain rfl : read = 0 := by omega
    rw [hseg] at hp
    refine (Table.exists_mem_set_congr hi ?_).1 hp
    simp only [Segment.HasAt, Int.add_zero]
  | create i seg offset hi hinc hlo hhi hseg =>
    rw [hseg] at hp
    exact availableAt_of_cutTable hi (by omega) hp
  | split i seg splitSize hold hi hseg =>
    have hsize := h.monitor.splitSize hold hi
    rw [hseg] at hp
    exact availableAt_of_cutTable hi (by omega) hp

theorem available_of_still {cfg : Config}
    (hbuf : cfg.bufferSize ≤ 2 * 1024 * 1024) {s s' : State}
    (hreach : (system cfg).Reachable s) (hrun : (system cfg).RunsTo Still s s') :
    totalProgress s'.segments = totalProgress s.segments ∧
      ∀ p, AvailableAt s'.segments p → AvailableAt s.segments p := by
  refine (hrun.invariant (fun t => (system cfg).Reachable t ∧
    totalProgress t.segments = totalProgress s.segments ∧
      ∀ p, AvailableAt t.segments p → AvailableAt s.segments p) ?_
    ⟨hreach, rfl, fun _ => id⟩).2
  rintro t l t' ⟨ht, hsum, havail⟩ hl hs
  have hstep := hl.step (coverInv_of_reachable hbuf ht).1 hs
  exact ⟨ht.step hs, hstep.1.trans hsum, fun p hp => havail p (hstep.2 p hp)⟩

/-! ## What stays available -/

theorem CoverInv.lt_totalSize {cfg : Config} {s : State} (h : CoverInv cfg s)
    {seg : Segment} (hmem : seg ∈ s.segments) {p : Int} (hlo : seg.offset ≤ p)
    (hhi : p < seg.offset + seg.length) : p < cfg.totalSize :=
  ((h.tiles.cover p).1 ⟨seg.interval, List.mem_map_of_mem hmem, hlo, hhi⟩).2

/-- A segment that reaches past the position is complete. -/
theorem RestReady.complete {cfg : Config} {s : State} {position : Int}
    (h : RestReady cfg s position) (hcover : CoverInv cfg s)
    (hdata : DataInv cfg s) {i : Nat} {seg : Segment}
    (hi : s.segments[i]? = some seg) (hpos : position < seg.offset + seg.length) :
    seg.length ≤ seg.downloaded := by
  have hmem := Table.mem_of_getElem? hi
  have hdown := (hdata.segment seg hmem).downloaded_nonneg
  by_contra hlt
  -- the first position that is missing in the segment and not before ours
  have hlo : seg.offset ≤ max position (seg.offset + seg.downloaded) := by omega
  have hhi : max position (seg.offset + seg.downloaded) <
      seg.offset + seg.length := by omega
  have hat := h.available _ (le_max_left _ _) (hcover.lt_totalSize hmem hlo hhi)
  have hgot := ((availableAt_row_iff hcover.tiles hi hlo hhi).1 hat).2.2
  omega

theorem RestReady.step {cfg : Config} {s s' : State} {l : Label} {position : Int}
    (h : RestReady cfg s position) (hcover : CoverInv cfg s)
    (hdata : DataInv cfg s) (hs : step cfg s l = some s') :
    RestReady cfg s' position := by
  cases step_change hs with
  | idle hseg _ _ hmon =>
    exact ⟨hseg ▸ h.available, h.split.same hseg hmon⟩
  | pick i hbest hseg _ _ hmon =>
    refine ⟨hseg ▸ h.available, ?_⟩
    obtain ⟨seg, hi, -⟩ := bestSegmentToSplit_eq_some hbest
    unfold SplitsBelow MonitorHolds
    rw [hmon, hseg]
    exact ⟨seg, hi, trivial⟩
  | stale i seg hold hi hseg _ _ hmon =>
    refine ⟨hseg ▸ h.available, ?_⟩
    unfold SplitsBelow MonitorHolds
    rw [hmon, hseg]
    refine ⟨seg, hi, or_iff_not_imp_right.2 fun hpos => ?_⟩
    -- nothing remains of a segment that reaches past the position
    have hdone := h.complete hcover hdata hi (by omega)
    have hover := (hcover.monitor.noOvershoot hold hi).1
    rw [show seg.length - seg.downloaded = 0 by omega, Int.zero_tdiv]
  | control i seg task registered hi hmove hseg _ _ hmon =>
    refine ⟨fun p hlo hhi => ?_, h.split.set hi hseg hmon id (fun _ => id)⟩
    rw [hseg]
    exact availableAt_set hi (by rfl) (by rfl) (by rfl) (h.available p hlo hhi)
  | commit i seg v toRead read hi htask hpos hmax hseg _ _ hmon =>
    refine ⟨fun p hlo hhi => ?_,
      h.split.set hi hseg (Or.inl hmon) id (fun _ => id)⟩
    rw [hseg]
    exact availableAt_set hi (by rfl) (by rfl) (by dsimp only; omega)
      (h.available p hlo hhi)
  | create i seg offset hi hinc hlo hhi hseg _ _ hmon =>
    refine ⟨fun p hplo hphi => ?_, monitorHolds_of_not_splits hmon⟩
    rw [hseg, availableAt_cutTable hi]
    refine ((Table.exists_mem_iff hi _).1 (h.available p hplo hphi)).imp_left ?_
    rintro ⟨h1, h2, h3⟩
    exact ⟨h1, by dsimp only; omega, h3⟩
  | split i seg splitSize hold hi hseg _ _ hmon =>
    refine ⟨fun p hplo hphi => ?_, monitorHolds_of_not_splits hmon⟩
    have hbelow := h.split.splitLock hold hi
    rw [hseg, availableAt_cutTable hi]
    refine ((Table.exists_mem_iff hi _).1 (h.available p hplo hphi)).imp_left ?_
    rintro ⟨h1, h2, h3⟩
    exact ⟨h1, by dsimp only; omega, h3⟩

/-! ## The readers that are released -/

/-- Only the table and the place of the monitor count. -/
theorem Released.congr {cfg : Config} {s s' : State} {position : Int}
    (h : Released cfg s position) (hseg : s'.segments = s.segments)
    (hmon : s'.monitor = s.monitor) : Released cfg s' position := by
  refine h.imp (fun hsum => hseg ▸ hsum) fun hrest => ?_
  exact ⟨hseg ▸ hrest.available, hrest.split.same hseg (Or.inl hmon)⟩

theorem Released.of_runsTo {cfg : Config}
    (hbuf : cfg.bufferSize ≤ 2 * 1024 * 1024) {C : Label → Prop} {s s' : State}
    {position : Int} (h : Released cfg s position)
    (hreach : (system cfg).Reachable s) (hrun : (system cfg).RunsTo C s s') :
    Released cfg s' position := by
  refine (hrun.invariant (fun t => (system cfg).Reachable t ∧
    Released cfg t position) ?_ ⟨hreach, h⟩).2
  rintro t l t' ⟨ht, hrel⟩ - hs
  obtain ⟨hcover, hdata⟩ := coverInv_of_reachable hbuf ht
  refine ⟨ht.step hs, ?_⟩
  rcases hrel with hsum | hrest
  · exact Or.inl (hsum.trans (totalProgress_le_of_step hs))
  · exact Or.inr (hrest.step hcover hdata hs)

/-- When a cancelled stream has ended, the whole rest from the position on is
available to a reader or none of its counters is short. -/
theorem Ended.exits {cfg : Config} (hbuf : cfg.bufferSize ≤ 2 * 1024 * 1024)
    {s : State} (h : Ended s) (hreach : (system cfg).Reachable s)
    {position count : Int} (hcount : 0 < count) (hpos : position < cfg.totalSize)
    (hrel : s.cancelled = false ∨ Released cfg s position) :
    ReaderExits cfg s position (min count (cfg.totalSize - position)) := by
  have hfinished : cfg.totalSize ≤ totalProgress s.segments →
      ReaderExits cfg s position (min count (cfg.totalSize - position)) := by
    intro hsum
    refine Or.inr ?_
    unfold finished
    rw [inProgress_eq_false h.tasks]
    simpa using hsum
  cases hcan : s.cancelled with
  | false =>
    have hinv : ProgressInv cfg s := by
      refine hreach.invariant (ProgressInv cfg) ?_ fun _ _ _ ht hs => ht.step hs
      rintro t rfl
      exact progressInv_init cfg
    rcases hinv.stopped h.monitor with hcan' | hsum
    · rw [hcan] at hcan'
      cases hcan'
    · exact hfinished hsum
  | true =>
    rw [hcan] at hrel
    rcases hrel.resolve_left Bool.noConfusion with hsum | hrest
    · exact hfinished hsum
    · have hcover := (coverInv_of_reachable hbuf hreach).1
      refine (settled_exits_iff hcover (h.settled hcan) position _ (by omega)
        (by omega)).2 (Or.inr fun p hlo hhi => ?_)
      exact hrest.available p hlo (by omega)

theorem CanRead.step {cfg : Config} {s s' : State} {l : Label} {position : Int}
    (h : CanRead cfg s position) (hl : Calm l) (hs : step cfg s l = some s') :
    CanRead cfg s' position :=
  fun t count hrun =>
    h t count (Relation.ReflTransGen.trans (System.RunsTo.single hl hs) hrun)

/-- Whoever can read a cancelled stream has all of the rest now. -/
theorem CanRead.available {cfg : Config}
    (hbuf : cfg.bufferSize ≤ 2 * 1024 * 1024) {s : State} {position : Int}
    (h : CanRead cfg s position) (hs : Ending cfg s)
    (hsum : totalProgress s.segments < cfg.totalSize) (p : Int)
    (hlo : position ≤ p) (hhi : p < cfg.totalSize) : AvailableAt s.segments p := by
  obtain ⟨s', hrun, hs', hend⟩ := exists_ended hbuf hs
  obtain ⟨hsame, havail⟩ := available_of_still hbuf hs.reachable hrun
  have hexit := h s' (cfg.totalSize - position) (hrun.mono fun _ hl => hl.1) hend
    (by omega) (by omega)
  rw [min_self, settled_exits_iff (coverInv_of_reachable hbuf hs'.reachable).1
    (hend.settled hs'.cancelled) position _ (by omega) (by omega)] at hexit
  rcases hexit with hprogress | hall
  · omega
  · exact havail p (hall p hlo (by omega))

/-- Whoever can read a cancelled stream will not lose anything to a split. -/
theorem CanRead.splitsBelow {cfg : Config}
    (hbuf : cfg.bufferSize ≤ 2 * 1024 * 1024) {s : State} {position : Int}
    (h : CanRead cfg s position) (hs : Ending cfg s)
    (hsum : totalProgress s.segments < cfg.totalSize) : SplitsBelow position s := by
  have hcover := (coverInv_of_reachable hbuf hs.reachable).1
  have hok := hcover.monitor
  unfold SplitsBelow MonitorHolds
  unfold MonitorOk at hok
  split
  · rename_i i hmon
    rw [hmon] at hok
    obtain ⟨seg, hi, -⟩ := hok
    exact ⟨seg, hi, trivial⟩
  · rename_i i splitSize hmon
    rw [hmon] at hok
    obtain ⟨seg, hi, hsize⟩ := hok
    refine ⟨seg, hi, ?_⟩
    by_contra hcut
    push Not at hcut
    obtain ⟨hne, hpos⟩ := hcut
    obtain ⟨s', hstep, -⟩ := hs.monitor hbuf (by rw [hmon]; exact fun h => nomatch h)
    have hs' : SegmentedStream.step cfg s .monitor = some s' := hstep
    obtain ⟨seg', hi', hseg⟩ := step_splits hs' ⟨rfl, hmon⟩
    rw [hi, Option.some.injEq] at hi'
    subst hi'
    -- the split takes the last positions of the segment away
    have hlo : seg.offset ≤ max position (seg.offset + (seg.length - splitSize)) := by
      omega
    have hhi : max position (seg.offset + (seg.length - splitSize)) <
        seg.offset + seg.length := by omega
    have hat := (h.step still_monitor.1 hs').available hbuf (hs.step hs')
      (by rw [(still_monitor.step hcover hs').1]; exact hsum) _ (le_max_left _ _)
      (hcover.lt_totalSize (Table.mem_of_getElem? hi) hlo hhi)
    rw [hseg, availableAt_cutTable hi] at hat
    rcases hat with ⟨-, hend, -⟩ | ⟨other, hother, hat⟩
    · exact absurd hend (by dsimp only; omega)
    · exact not_hasAt_of_eraseIdx hcover.tiles hi hlo hhi hother hat
  · trivial

/-- A reader at the position is never left behind exactly when nobody has
cancelled the stream, or the cancelled stream has what the reader needs. -/
theorem canRead_iff {cfg : Config} (hbuf : cfg.bufferSize ≤ 2 * 1024 * 1024)
    {s : State} (hreach : (system cfg).Reachable s) (position : Int) :
    CanRead cfg s position ↔ s.cancelled = false ∨ Released cfg s position := by
  constructor
  · intro h
    by_cases hcan : s.cancelled = true
    · refine Or.inr ?_
      by_cases hsum : cfg.totalSize ≤ totalProgress s.segments
      · exact Or.inl hsum
      · have hs : Ending cfg s := ⟨hcan, hreach⟩
        exact Or.inr ⟨h.available hbuf hs (by omega), h.splitsBelow hbuf hs (by omega)⟩
    · exact Or.inl (by simpa using hcan)
  · intro h s' count hrun hend hcount hpos
    refine hend.exits hbuf (hrun.reachable hreach) hcount hpos ?_
    rw [cancelled_of_runsTo hrun]
    exact h.imp_right fun hrel => hrel.of_runsTo hbuf hreach hrun

/-! ## The state in which a stream is cancelled -/

/-- A step that is not calm cancels, and moves no segment. -/
theorem cancelStep {cfg : Config} {s s₁ : State} {l : Label} (hl : ¬Calm l)
    (hs : step cfg s l = some s₁) : s₁.cancelled = true ∧ s₁.segments = s.segments := by
  unfold Calm at hl
  obtain rfl | rfl : l = .cancel ∨ l = .monitorFail := by tauto
  · cases hs
    exact ⟨rfl, rfl⟩
  · change monitorFailStep s = some s₁ at hs
    unfold monitorFailStep at hs
    split_ifs at hs
    cases hs
    exact ⟨rfl, rfl⟩

/-- Where everything is available the counters have reached the total size. -/
theorem totalSize_le_of_available {cfg : Config} {s : State}
    (hreach : (system cfg).Reachable s)
    (h : ∀ p, 0 ≤ p → p < cfg.totalSize → AvailableAt s.segments p) :
    cfg.totalSize ≤ totalProgress s.segments := by
  have hinv : ProgressInv cfg s := by
    refine hreach.invariant (ProgressInv cfg) ?_ fun _ _ _ ht hs => ht.step hs
    rintro t rfl
    exact progressInv_init cfg
  have hsub : Set.Ico 0 cfg.totalSize ⊆ Memory.marked s.written := by
    rintro p ⟨hlo, hhi⟩
    obtain ⟨seg, hmem, hat⟩ := h p hlo hhi
    exact (hinv.data.written_iff p).2 ⟨seg, hmem, hat.1, hat.2.2⟩
  have hcard := Set.ncard_le_ncard hsub hinv.finite
  have hsize : ((Set.Ico 0 cfg.totalSize).ncard : Int) = cfg.totalSize := by
    simpa using ncard_Ico_chunk 0 cfg.totalSize_nonneg
  have hcounted := hinv.counted
  omega

/-- The cancellations that release all readers.  After a step that cancels a
stream, in every state in which its tasks and its monitor have come to their
ends, all readers are released, exactly when the counters have reached the total
size before the step. -/
theorem settled_readers_iff (cfg : Config) (hbuf : cfg.bufferSize ≤ 2 * 1024 * 1024)
    (s s₁ : State) (l : Label) (hreach : (system cfg).Reachable s) (hl : ¬Calm l)
    (hs : (system cfg).step s l = some s₁) :
    (∀ s', (system cfg).RunsTo (fun _ => True) s₁ s' → Settled s' →
        ReadersReleased cfg s') ↔
      cfg.totalSize ≤ totalProgress s.segments := by
  obtain ⟨hcan, hseg⟩ := cancelStep hl hs
  have hreach₁ := hreach.step hs
  constructor
  · intro h
    rw [← hseg]
    by_cases hsize : cfg.totalSize ≤ 0
    · exact totalSize_le_of_available hreach₁ fun p hlo hhi => by omega
    · obtain ⟨s', hrun, hending, hended⟩ := exists_ended hbuf ⟨hcan, hreach₁⟩
      obtain ⟨hsum, havail⟩ := available_of_still hbuf hreach₁ hrun
      have hset := hended.settled hending.cancelled
      have hexit := (h s' (hrun.mono fun _ _ => trivial) hset).exits 0 cfg.totalSize le_rfl
        (by omega) (by omega)
      rw [settled_exits_iff (coverInv_of_reachable hbuf hending.reachable).1 hset 0 _ (by omega)
        (by omega)] at hexit
      rcases hexit with hprogress | hall
      · exact hsum ▸ hprogress
      · exact totalSize_le_of_available hreach₁ fun p hlo hhi => havail p (hall p hlo (by omega))
  · intro hsum s' hrun hset
    refine readersReleased_of_le hset ?_
    refine hrun.invariant (fun t => cfg.totalSize ≤ totalProgress t.segments) ?_ (hseg ▸ hsum)
    exact fun t l t' ht _ hstep => ht.trans (totalProgress_le_of_step hstep)

/-- The download of three bytes in one chunk. -/
def wholeEnd : State :=
  ((system (sevens 3)).run (init (sevens 3))
    (startReading 0 ++ [.chunk 0 3])).get (by decide +kernel)

/-- The whole resource is there before it is cancelled. -/
theorem settled_readers_wholeEnd :
    totalProgress wholeEnd.segments = 3 ∧
      ∀ s', (system (sevens 3)).RunsTo (fun _ => True) { wholeEnd with cancelled := true } s' →
        Settled s' → ReadersReleased (sevens 3) s' := by
  have hsum : totalProgress wholeEnd.segments = 3 := by decide +kernel
  refine ⟨hsum, (settled_readers_iff (sevens 3) (by decide) wholeEnd _ .cancel
    (System.reachable_of_run (.init rfl) (Option.some_get _).symm) (fun h => h.1 rfl) rfl).2 ?_⟩
  rw [hsum]
  decide

end DirectPackageInstaller.SegmentedStream
