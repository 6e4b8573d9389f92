import DirectPackageInstaller.Lib.Table
import DirectPackageInstaller.Streams.SegmentedStream.Model

/-!
# What one step does

`Change` lists what a step can do to the segment table, to the backing buffer
and to the split in progress, with the guards of the source.  `step_change`
proves that the list is complete.  Every invariant of the system is then a
case analysis on `Change`, and no invariant proof unfolds a step function.

The two split paths of the source compute the new offset and length in
different ways.  `cutTable` is the operation that both perform.
-/

namespace DirectPackageInstaller.SegmentedStream

open Memory

/-- Cut segment `i` to `newLength` and append the rest as a new segment. -/
def cutTable (segments : List Segment) (i : Nat) (seg : Segment)
    (newLength : Int) : List Segment :=
  segments.set i { seg with length := newLength } ++
    [.fresh (seg.offset + newLength) (seg.length - newLength)]

/-- The monitor holds a segment that it is about to split. -/
def MonitorPc.splits : MonitorPc → Bool
  | .readRemaining _ | .splitLock _ _ => true
  | _ => false

/-- Where the program counter of a task can go without a chunk: back to the
outer loop, nowhere, or where `next` says. -/
def TaskMove (cfg : Config) (cancelled : Bool) (seg : Segment)
    (task : DownloadTask) : Prop :=
  task = .outerLoop ∨ task = seg.task ∨
    seg.task.next cfg cancelled seg = some task

/-- The changes that a step can make. -/
inductive Change (cfg : Config) (s s' : State) : Prop
  /-- Nothing happens to the table and the buffer. -/
  | idle (hseg : s'.segments = s.segments) (hbuf : s'.buffer = s.buffer)
      (hwr : s'.written = s.written)
      (hmon : s'.monitor = s.monitor ∨ s'.monitor.splits = false)
  /-- The monitor picks segment `i` for a split. -/
  | pick (i : Nat) (hbest : bestSegmentToSplit s.segments = some i)
      (hseg : s'.segments = s.segments) (hbuf : s'.buffer = s.buffer)
      (hwr : s'.written = s.written) (hmon : s'.monitor = .readRemaining i)
  /-- The monitor reads `remaining` outside the lock. -/
  | stale (i : Nat) (seg : Segment) (hold : s.monitor = .readRemaining i)
      (hi : s.segments[i]? = some seg)
      (hseg : s'.segments = s.segments) (hbuf : s'.buffer = s.buffer)
      (hwr : s'.written = s.written)
      (hmon : s'.monitor = .splitLock i ((seg.length - seg.downloaded).tdiv 2))
  /-- The task of segment `i` moves, or is registered. -/
  | control (i : Nat) (seg : Segment) (task : DownloadTask) (registered : Bool)
      (hi : s.segments[i]? = some seg)
      (hmove : TaskMove cfg s.cancelled seg task)
      (hseg : s'.segments = s.segments.set i { seg with task, registered })
      (hbuf : s'.buffer = s.buffer) (hwr : s'.written = s.written)
      (hmon : s'.monitor = s.monitor ∨ s'.monitor.splits = false)
  /-- A chunk of `read` bytes is written for segment `i`. -/
  | commit (i : Nat) (seg : Segment) (vStream : VirtualStream)
      (toRead read : Int) (hi : s.segments[i]? = some seg)
      (htask : seg.task = .reading vStream toRead) (hpos : 0 ≤ read)
      (hmax : read ≤ maxChunk cfg vStream toRead)
      (hseg : s'.segments = s.segments.set i { seg with
        downloaded := seg.downloaded + read
        task := .innerLoop (vStream.advance read) })
      (hbuf : s'.buffer = overlay s.buffer
        (fun p => cfg.origin (vStream.filePos + vStream.pos +
          (p - (seg.offset + seg.downloaded))))
        (seg.offset + seg.downloaded) (seg.offset + seg.downloaded + read))
      (hwr : s'.written = overlay s.written (fun _ => true)
        (seg.offset + seg.downloaded) (seg.offset + seg.downloaded + read))
      (hmon : s'.monitor = s.monitor)
  /-- The priority path cuts segment `i` at `offset`. -/
  | create (i : Nat) (seg : Segment) (offset : Int)
      (hi : s.segments[i]? = some seg) (hinc : seg.isCompleted = false)
      (hlo : seg.offset + seg.downloaded < offset)
      (hhi : offset < seg.offset + seg.length)
      (hseg : s'.segments =
        cutTable s.segments i seg (offset - seg.offset))
      (hbuf : s'.buffer = s.buffer) (hwr : s'.written = s.written)
      (hmon : s'.monitor.splits = false)
  /-- The monitor cuts `splitSize` bytes off segment `i`. -/
  | split (i : Nat) (seg : Segment) (splitSize : Int)
      (hold : s.monitor = .splitLock i splitSize)
      (hi : s.segments[i]? = some seg)
      (hseg : s'.segments =
        cutTable s.segments i seg (seg.length - splitSize))
      (hbuf : s'.buffer = s.buffer) (hwr : s'.written = s.written)
      (hmon : s'.monitor.splits = false)

/-! ## Splitting -/

theorem mem_incomplete {segments : List Segment} {i : Nat}
    (h : i ∈ incomplete segments) :
    ∃ seg, segments[i]? = some seg ∧ seg.isCompleted = false := by
  simpa [incomplete, Option.any_eq_true] using (List.mem_filter.1 h).2

/-- The guards of `CreateSegmentAtOffsetUnsafe` and what it does when they
hold. -/
theorem createSegmentAtOffsetUnsafe_eq_some {cfg : Config}
    {segments segments' : List Segment} {offset : Int} {k : Nat}
    (h : createSegmentAtOffsetUnsafe cfg segments offset = some (segments', k)) :
    ∃ i seg, segments[i]? = some seg ∧ seg.isCompleted = false ∧
      seg.offset + seg.downloaded < offset ∧
      offset < seg.offset + seg.length ∧
      segments' = cutTable segments i seg (offset - seg.offset) ∧
      k = segments.length := by
  unfold createSegmentAtOffsetUnsafe at h
  split at h
  · cases h
  split at h
  · cases h
  dsimp only at h
  split at h
  · cases h
  rename_i i hmin
  have hmem := List.argmin_mem (Option.mem_def.2 hmin)
  obtain ⟨hinc, hrange⟩ := List.mem_filter.1 hmem
  obtain ⟨seg, hi, hnot⟩ := mem_incomplete hinc
  rw [hi] at h hrange
  dsimp only at h
  split at h
  · cases h
  split at h
  · cases h
  rename_i havail hlen
  simp only [Option.some.injEq, Prod.mk.injEq] at h
  refine ⟨i, seg, hi, hnot, by omega, by omega, ?_, h.2.symm⟩
  rw [← h.1, cutTable]
  congr 3 <;> omega

/-- A segment that the monitor picks has at least 2 MiB left. -/
theorem bestSegmentToSplit_eq_some {segments : List Segment} {i : Nat}
    (h : bestSegmentToSplit segments = some i) :
    ∃ seg, segments[i]? = some seg ∧
      2 * 1024 * 1024 ≤ seg.length - seg.downloaded := by
  unfold bestSegmentToSplit at h
  split at h
  · cases h
  split at h
  · cases h
  rename_i seg hi
  split at h
  · cases h
  · rename_i hlen
    cases h
    exact ⟨seg, hi, by omega⟩

/-! ## The steps -/

theorem taskStep_change {cfg : Config} {s s' : State} {i : Nat}
    (h : taskStep cfg s i = some s') : Change cfg s s' := by
  unfold taskStep at h
  split at h
  · cases h
  rename_i seg hi
  obtain ⟨task, hnext, rfl⟩ := Option.map_eq_some_iff.1 h
  exact .control i seg task seg.registered hi (.inr (.inr hnext)) rfl rfl rfl
    (.inl rfl)

theorem failStep_change {cfg : Config} {s s' : State} {i : Nat}
    (h : failStep s i = some s') : Change cfg s s' := by
  unfold failStep at h
  split at h
  · cases h
  rename_i seg hi
  have hs : s' = s.setSegment i { seg with task := .outerLoop } := by
    split at h <;> cases h <;> rfl
  subst hs
  exact .control i seg .outerLoop seg.registered hi (.inl rfl) rfl rfl rfl
    (.inl rfl)

/-- What a chunk of `read` bytes for segment `i` changes.  A chunk of no bytes
is the commit of an empty range. -/
theorem chunkStep_eq_some {cfg : Config} {s s' : State} {i : Nat} {read : Int}
    (h : chunkStep cfg s i read = some s') :
    ∃ seg vStream toRead, s.segments[i]? = some seg ∧
      seg.task = .reading vStream toRead ∧ 0 ≤ read ∧
      read ≤ maxChunk cfg vStream toRead ∧
      s'.segments = s.segments.set i { seg with
        downloaded := seg.downloaded + read
        task := .innerLoop (vStream.advance read) } ∧
      s'.buffer = overlay s.buffer
        (fun p => cfg.origin (vStream.filePos + vStream.pos +
          (p - (seg.offset + seg.downloaded))))
        (seg.offset + seg.downloaded) (seg.offset + seg.downloaded + read) ∧
      s'.written = overlay s.written (fun _ => true)
        (seg.offset + seg.downloaded) (seg.offset + seg.downloaded + read) ∧
      s'.monitor = s.monitor := by
  unfold chunkStep at h
  split at h
  · cases h
  rename_i seg hi
  split at h
  · rename_i vStream toRead htask
    split at h
    · cases h
    rename_i hguard
    refine ⟨seg, vStream, toRead, hi, htask, by omega, by omega, ?_⟩
    split at h
    · rename_i hzero
      subst hzero
      cases h
      refine ⟨?_, ?_, ?_, rfl⟩
      · rw [VirtualStream.advance_zero, Int.add_zero]
        rfl
      · rw [Int.add_zero, overlay_self]
        rfl
      · rw [Int.add_zero, overlay_self]
        rfl
    · cases h
      exact ⟨rfl, rfl, rfl, rfl⟩
  · cases h

theorem chunkStep_change {cfg : Config} {s s' : State} {i : Nat} {read : Int}
    (h : chunkStep cfg s i read = some s') : Change cfg s s' := by
  obtain ⟨seg, vStream, toRead, hi, htask, hpos, hmax, hseg, hbuf, hwr, hmon⟩ :=
    chunkStep_eq_some h
  exact .commit i seg vStream toRead read hi htask hpos hmax hseg hbuf hwr hmon

/-- What `createPriority` does to the table: nothing, or one cut. -/
theorem createPriority_cases (cfg : Config) (s : State) :
    ((createPriority cfg s).2 = none ∧
      (createPriority cfg s).1.segments = s.segments ∨
    ∃ i seg offset, s.segments[i]? = some seg ∧ seg.isCompleted = false ∧
      seg.offset + seg.downloaded < offset ∧
      offset < seg.offset + seg.length ∧
      (createPriority cfg s).1.segments =
        cutTable s.segments i seg (offset - seg.offset) ∧
      (createPriority cfg s).2 = some s.segments.length) ∧
    (createPriority cfg s).1.buffer = s.buffer ∧
    (createPriority cfg s).1.written = s.written := by
  unfold createPriority
  dsimp only
  split
  · exact ⟨.inl ⟨rfl, rfl⟩, rfl, rfl⟩
  rename_i offset _
  split
  · split
    · exact ⟨.inl ⟨rfl, rfl⟩, rfl, rfl⟩
    · rename_i segments k hcreate
      obtain ⟨i, seg, hi, hinc, hlo, hhi, rfl, rfl⟩ :=
        createSegmentAtOffsetUnsafe_eq_some hcreate
      exact ⟨.inr ⟨i, seg, offset, hi, hinc, hlo, hhi, rfl, rfl⟩, rfl, rfl⟩
  · exact ⟨.inl ⟨rfl, rfl⟩, rfl, rfl⟩

/-- The first lock section of the monitor creates a priority segment, picks a
segment to split, or does neither. -/
theorem decideStep_change (cfg : Config) (s : State) :
    Change cfg s (decideStep cfg s) := by
  have hcases := createPriority_cases cfg s
  unfold decideStep
  cases hc : createPriority cfg s with
  | mk s₁ created =>
    rw [hc] at hcases
    obtain ⟨hcases, hbuf, hwr⟩ := hcases
    dsimp only at hcases hbuf hwr ⊢
    rcases hcases with ⟨rfl, hseg⟩ |
      ⟨i, seg, offset, hi, hinc, hlo, hhi, hseg, rfl⟩
    · simp only [hseg, Option.isSome_none, Bool.false_eq_true, if_false]
      split
      · rename_i hsome
        cases hsome
      · rename_i i _ hbest
        split at hbest
        · exact .pick i hbest rfl hbuf hwr rfl
        · cases hbest
      · exact .idle rfl hbuf hwr (.inr rfl)
    · exact .create i seg offset hi hinc hlo hhi hseg hbuf hwr rfl

theorem splitStep_change {cfg : Config} {s s' : State} {i : Nat}
    {splitSize : Int} (hold : s.monitor = .splitLock i splitSize)
    (h : splitStep s i splitSize = some s') : Change cfg s s' := by
  unfold splitStep at h
  split at h
  · cases h
  rename_i seg hi
  cases h
  refine .split i seg splitSize hold hi ?_ rfl rfl rfl
  have hoff : seg.offset + (seg.length - splitSize) =
      seg.offset + seg.length - splitSize := by omega
  have hlen : seg.length - (seg.length - splitSize) = splitSize := by omega
  rw [cutTable, hoff, hlen]

theorem monitorStep_change {cfg : Config} {s s' : State}
    (h : monitorStep cfg s = some s') : Change cfg s s' := by
  unfold monitorStep at h
  split at h
  case h_1 =>
    cases h
    exact .idle rfl rfl rfl (.inr (by dsimp only; split <;> rfl))
  case h_2 =>
    cases h
    exact .idle rfl rfl rfl (.inr (by dsimp only; split <;> rfl))
  case h_3 =>
    cases h
    exact decideStep_change cfg s
  case h_4 i hmon =>
    obtain ⟨seg, hi, rfl⟩ := Option.map_eq_some_iff.1 h
    exact .stale i seg hmon hi rfl rfl rfl rfl
  case h_5 i splitSize hmon => exact splitStep_change hmon h
  case h_6 i hmon =>
    obtain ⟨seg, hi, rfl⟩ := Option.map_eq_some_iff.1 h
    exact .control i seg .outerLoop seg.registered hi (.inl rfl) rfl rfl rfl
      (.inr rfl)
  case h_7 i hmon =>
    obtain ⟨seg, hi, rfl⟩ := Option.map_eq_some_iff.1 h
    exact .control i seg seg.task true hi (.inr (.inl rfl)) rfl rfl rfl
      (.inr rfl)
  case h_8 =>
    cases h
    exact .idle rfl rfl rfl (.inr (by dsimp only; split <;> rfl))
  case h_9 => cases h

/-- The steps of the readers only touch the readers, the priority request and
the log. -/
theorem waitStep_data {cfg : Config} {s s' : State} {r : Nat} {slow : Bool}
    (h : waitStep cfg s r slow = some s') :
    s'.segments = s.segments ∧ s'.buffer = s.buffer ∧
      s'.written = s.written ∧ s'.monitor = s.monitor ∧
      s'.returned = s.returned := by
  unfold waitStep at h
  split at h
  · cases h
  split at h
  case h_4 =>
    split at h
    · cases h
      unfold requestPrioritySegment
      split_ifs <;> exact ⟨rfl, rfl, rfl, rfl, rfl⟩
    · cases h
      exact ⟨rfl, rfl, rfl, rfl, rfl⟩
  case h_5 => cases h
  all_goals
    cases h
    exact ⟨rfl, rfl, rfl, rfl, rfl⟩

/-- The list of changes is complete. -/
theorem step_change {cfg : Config} {s s' : State} {l : Label}
    (h : step cfg s l = some s') : Change cfg s s' := by
  cases l with
  | task i => exact taskStep_change h
  | chunk i read => exact chunkStep_change h
  | fail i => exact failStep_change h
  | monitor => exact monitorStep_change h
  | monitorFail =>
    change monitorFailStep s = some s' at h
    unfold monitorFailStep at h
    split at h
    · cases h
    · cases h
      exact .idle rfl rfl rfl (.inr rfl)
  | cancel =>
    cases h
    exact .idle rfl rfl rfl (.inl rfl)
  | readAt r position count =>
    change readAtStep cfg s r position count = some s' at h
    unfold readAtStep at h
    split at h
    · cases h
    split at h <;>
    · cases h
      exact .idle rfl rfl rfl (.inl rfl)
  | wait r slow =>
    obtain ⟨hseg, hbuf, hwr, hmon, -⟩ := waitStep_data h
    exact .idle hseg hbuf hwr (.inl hmon)
  | deliver r read =>
    change deliverStep cfg s r read = some s' at h
    unfold deliverStep at h
    split at h
    · cases h
    split at h
    · cases h
    · cases h
      exact .idle rfl rfl rfl (.inl rfl)

/-! ## What the monitor knows about its segment -/

/-- `R` holds of the segment whose `remaining` the monitor is about to read,
and `Q` of the size and the segment of the split that it is about to make. -/
def MonitorHolds (R : Segment → Prop) (Q : Int → Segment → Prop)
    (s : State) : Prop :=
  match s.monitor with
  | .readRemaining i => ∃ seg, s.segments[i]? = some seg ∧ R seg
  | .splitLock i splitSize =>
    ∃ seg, s.segments[i]? = some seg ∧ Q splitSize seg
  | _ => True

section MonitorHolds

variable {R : Segment → Prop} {Q : Int → Segment → Prop} {s s' : State}

theorem monitorHolds_of_not_splits (h : s.monitor.splits = false) :
    MonitorHolds R Q s := by
  unfold MonitorHolds
  split
  · rename_i heq
    rw [heq] at h
    cases h
  · rename_i heq
    rw [heq] at h
    cases h
  · trivial

/-- A monitor at the same place with the same table. -/
theorem MonitorHolds.same (h : MonitorHolds R Q s)
    (hseg : s'.segments = s.segments)
    (hmon : s'.monitor = s.monitor ∨ s'.monitor.splits = false) :
    MonitorHolds R Q s' := by
  rcases hmon with hmon | hmon
  · unfold MonitorHolds
    rw [hmon, hseg]
    exact h
  · exact monitorHolds_of_not_splits hmon

/-- Row `j` is replaced by a segment that keeps both properties. -/
theorem MonitorHolds.set (h : MonitorHolds R Q s) {j : Nat}
    {seg new : Segment} (hj : s.segments[j]? = some seg)
    (hseg : s'.segments = s.segments.set j new)
    (hmon : s'.monitor = s.monitor ∨ s'.monitor.splits = false)
    (hR : R seg → R new) (hQ : ∀ k, Q k seg → Q k new) :
    MonitorHolds R Q s' := by
  rcases hmon with hmon | hmon
  · unfold MonitorHolds at h ⊢
    rw [hmon, hseg]
    split
    · rename_i i heq
      simp only [heq] at h
      obtain ⟨old, hi, hok⟩ := h
      refine ⟨_, Table.getElem?_set_of_some hi j new, ?_⟩
      split
      · rename_i hji
        subst hji
        rw [hj, Option.some.injEq] at hi
        exact hR (hi ▸ hok)
      · exact hok
    · rename_i i splitSize heq
      simp only [heq] at h
      obtain ⟨old, hi, hok⟩ := h
      refine ⟨_, Table.getElem?_set_of_some hi j new, ?_⟩
      split
      · rename_i hji
        subst hji
        rw [hj, Option.some.injEq] at hi
        exact hQ splitSize (hi ▸ hok)
      · exact hok
    · trivial
  · exact monitorHolds_of_not_splits hmon

/-- What the monitor knows when it is about to read `remaining`. -/
theorem MonitorHolds.readRemaining (h : MonitorHolds R Q s) {i : Nat}
    {seg : Segment} (hmon : s.monitor = .readRemaining i)
    (hi : s.segments[i]? = some seg) : R seg := by
  unfold MonitorHolds at h
  rw [hmon] at h
  obtain ⟨old, hold, hok⟩ := h
  rw [hi, Option.some.injEq] at hold
  exact hold ▸ hok

/-- What the monitor knows when it is about to split. -/
theorem MonitorHolds.splitLock (h : MonitorHolds R Q s) {i : Nat}
    {seg : Segment} {splitSize : Int} (hmon : s.monitor = .splitLock i splitSize)
    (hi : s.segments[i]? = some seg) : Q splitSize seg := by
  unfold MonitorHolds at h
  rw [hmon] at h
  obtain ⟨old, hold, hok⟩ := h
  rw [hi, Option.some.injEq] at hold
  exact hold ▸ hok

end MonitorHolds

/-! ## What the label says about the change -/

theorem totalProgress_set {segments : List Segment} {i : Nat} {seg : Segment}
    (hi : segments[i]? = some seg) (new : Segment) :
    totalProgress (segments.set i new) =
      totalProgress segments + (new.downloaded - seg.downloaded) := by
  have hold := ((Table.perm_of_getElem? hi).map Segment.downloaded).sum_eq
  have hnew := ((Table.set_perm hi new).map Segment.downloaded).sum_eq
  simp only [List.map_cons, List.sum_cons] at hold hnew
  unfold totalProgress
  omega

/-- A row with the same counter does not change the progress. -/
theorem totalProgress_set_of_eq {segments : List Segment} {i : Nat}
    {seg new : Segment} (hi : segments[i]? = some seg)
    (hdown : new.downloaded = seg.downloaded) :
    totalProgress (segments.set i new) = totalProgress segments := by
  rw [totalProgress_set hi, hdown]
  omega

/-- A cut moves no counter, and the new segment starts at zero. -/
theorem totalProgress_cutTable {segments : List Segment} {i : Nat}
    {seg : Segment} (hi : segments[i]? = some seg) (newLength : Int) :
    totalProgress (cutTable segments i seg newLength) =
      totalProgress segments := by
  have hset : totalProgress (segments.set i { seg with length := newLength }) =
      totalProgress segments := totalProgress_set_of_eq hi rfl
  rw [← hset]
  simp [totalProgress, cutTable, Segment.fresh]

/-- What a step leaves alone, by its label. -/
structure StepFrame (cfg : Config) (s s' : State) (l : Label) : Prop where
  /-- Only the monitor adds segments. -/
  length : l ≠ .monitor → s'.segments.length = s.segments.length
  /-- Only a chunk writes. -/
  written : (∀ i read, l ≠ .chunk i read) → s'.written = s.written
  /-- Only a chunk moves a counter. -/
  progress : (∀ i read, l ≠ .chunk i read) →
    totalProgress s'.segments = totalProgress s.segments
  /-- Cancellation is for good. -/
  cancelled : s.cancelled = true → s'.cancelled = true
  /-- The monitor stops for one of two reasons. -/
  stopped : s'.monitor = .stopped → s.monitor = .stopped ∨
    s'.cancelled = true ∨ cfg.totalSize ≤ totalProgress s.segments

/-- A step that touches neither the table nor the monitor. -/
theorem StepFrame.of_same {cfg : Config} {s s' : State} {l : Label}
    (hseg : s'.segments = s.segments) (hwr : s'.written = s.written)
    (hcan : s.cancelled = true → s'.cancelled = true)
    (hmon : s'.monitor = s.monitor) : StepFrame cfg s s' l where
  length := fun _ => by rw [hseg]
  written := fun _ => hwr
  progress := fun _ => by rw [hseg]
  cancelled := hcan
  stopped := fun h => Or.inl (hmon ▸ h)

/-- A step of a task: one row is replaced by one with the same counter. -/
theorem StepFrame.of_set {cfg : Config} {s s' : State} {l : Label} {i : Nat}
    {seg new : Segment} (hi : s.segments[i]? = some seg)
    (hdown : new.downloaded = seg.downloaded)
    (hseg : s'.segments = s.segments.set i new) (hwr : s'.written = s.written)
    (hcan : s'.cancelled = s.cancelled)
    (hmon : s'.monitor = .stopped → s.monitor = .stopped) :
    StepFrame cfg s s' l where
  length := fun _ => by rw [hseg, List.length_set]
  written := fun _ => hwr
  progress := fun _ => by rw [hseg, totalProgress_set_of_eq hi hdown]
  cancelled := fun h => hcan ▸ h
  stopped := fun h => Or.inl (hmon h)

theorem createPriority_cancelled (cfg : Config) (s : State) :
    (createPriority cfg s).1.cancelled = s.cancelled := by
  unfold createPriority
  dsimp only
  split
  · rfl
  · split_ifs
    · split <;> rfl
    · rfl

/-- The monitor is never stopped by its lock sections. -/
theorem decideStep_frame (cfg : Config) (s : State) :
    StepFrame cfg s (decideStep cfg s) .monitor := by
  have hcases := createPriority_cases cfg s
  have hcan := createPriority_cancelled cfg s
  obtain ⟨hseg, -, hwr⟩ := hcases
  have hmon : (decideStep cfg s).monitor ≠ .stopped := by
    unfold decideStep
    dsimp only
    split <;> exact fun h => by cases h
  refine ⟨fun h => absurd rfl h, fun _ => hwr, fun _ => ?_,
    fun h => hcan.trans h, fun h => absurd h hmon⟩
  rcases hseg with ⟨-, hseg⟩ | ⟨i, seg, offset, hi, -, -, -, hseg, -⟩
  · change totalProgress (createPriority cfg s).1.segments = _
    rw [hseg]
  · change totalProgress (createPriority cfg s).1.segments = _
    rw [hseg, totalProgress_cutTable hi]

theorem monitorStep_frame {cfg : Config} {s s' : State}
    (h : monitorStep cfg s = some s') : StepFrame cfg s s' .monitor := by
  unfold monitorStep at h
  split at h
  case h_1 hmon | h_8 hmon =>
    cases h
    refine ⟨fun _ => rfl, fun _ => rfl, fun _ => rfl, id, fun h => ?_⟩
    dsimp only at h
    split at h
    · exact Or.inr (Or.inl ‹_›)
    · cases h
  case h_2 hmon =>
    cases h
    refine ⟨fun _ => rfl, fun _ => rfl, fun _ => rfl, id, fun h => ?_⟩
    dsimp only at h
    split at h
    · cases h
    · exact Or.inr (Or.inr (by omega))
  case h_3 =>
    cases h
    exact decideStep_frame cfg s
  case h_4 i hmon =>
    obtain ⟨seg, hi, rfl⟩ := Option.map_eq_some_iff.1 h
    exact ⟨fun _ => rfl, fun _ => rfl, fun _ => rfl, id, fun h => by cases h⟩
  case h_5 i splitSize hmon =>
    unfold splitStep at h
    split at h
    · cases h
    rename_i seg hi
    cases h
    refine ⟨fun h => absurd rfl h, fun _ => rfl, fun _ => ?_, id,
      fun h => by cases h⟩
    have hset : totalProgress (s.segments.set i
        { seg with length := seg.length - splitSize }) =
          totalProgress s.segments := totalProgress_set_of_eq hi rfl
    rw [← hset]
    simp [totalProgress, Segment.fresh]
  case h_6 i hmon =>
    obtain ⟨seg, hi, rfl⟩ := Option.map_eq_some_iff.1 h
    exact .of_set hi (by rfl) rfl rfl rfl (fun h => by cases h)
  case h_7 i hmon =>
    obtain ⟨seg, hi, rfl⟩ := Option.map_eq_some_iff.1 h
    exact .of_set hi (by rfl) rfl rfl rfl (fun h => by cases h)
  case h_9 => cases h

/-- Every step has the frame of its label. -/
theorem step_frame {cfg : Config} {s s' : State} {l : Label}
    (h : step cfg s l = some s') : StepFrame cfg s s' l := by
  cases l with
  | task i =>
    change taskStep cfg s i = some s' at h
    unfold taskStep at h
    split at h
    · cases h
    · rename_i seg hi
      obtain ⟨task, -, rfl⟩ := Option.map_eq_some_iff.1 h
      exact .of_set hi (by rfl) rfl rfl rfl id
  | chunk i read =>
    change chunkStep cfg s i read = some s' at h
    obtain ⟨seg, v, toRead, -, -, -, -, hseg, -, -, hmon⟩ := chunkStep_eq_some h
    refine ⟨fun _ => by rw [hseg, List.length_set],
      fun hl => absurd rfl (hl i read), fun hl => absurd rfl (hl i read), ?_,
      fun h => Or.inl (hmon ▸ h)⟩
    unfold chunkStep at h
    split at h
    · cases h
    · split at h
      · split_ifs at h <;> cases h <;> exact id
      · cases h
  | fail i =>
    change failStep s i = some s' at h
    unfold failStep at h
    split at h
    · cases h
    · rename_i seg hi
      split at h <;> cases h <;> exact .of_set hi (by rfl) rfl rfl rfl id
  | monitor => exact monitorStep_frame h
  | monitorFail =>
    change monitorFailStep s = some s' at h
    unfold monitorFailStep at h
    split at h <;> cases h
    exact ⟨fun _ => rfl, fun _ => rfl, fun _ => rfl, fun _ => rfl,
      fun _ => Or.inr (Or.inl rfl)⟩
  | cancel =>
    cases h
    exact .of_same rfl rfl (fun _ => rfl) rfl
  | readAt r position count =>
    change readAtStep cfg s r position count = some s' at h
    unfold readAtStep at h
    split_ifs at h <;> cases h <;> exact .of_same rfl rfl id rfl
  | wait r slow =>
    obtain ⟨hseg, -, hwr, hmon, -⟩ := waitStep_data h
    refine .of_same hseg hwr ?_ hmon
    change waitStep cfg s r slow = some s' at h
    unfold waitStep at h
    split at h
    · cases h
    · split at h
      case h_4 =>
        split_ifs at h <;> cases h
        · unfold requestPrioritySegment
          split_ifs <;> exact id
        · exact id
      case h_5 => cases h
      all_goals
        cases h
        exact id
  | deliver r read =>
    change deliverStep cfg s r read = some s' at h
    unfold deliverStep at h
    split at h
    · cases h
    · split_ifs at h
      cases h
      exact .of_same rfl rfl id rfl

/-- The counters only go up. -/
theorem totalProgress_le_of_step {cfg : Config} {s s' : State} {l : Label}
    (h : step cfg s l = some s') :
    totalProgress s.segments ≤ totalProgress s'.segments := by
  by_cases hl : ∃ i read, l = .chunk i read
  · obtain ⟨i, read, rfl⟩ := hl
    obtain ⟨seg, v, toRead, hi, -, hpos, -, hseg, -⟩ := chunkStep_eq_some h
    rw [hseg, totalProgress_set hi]
    dsimp only
    omega
  · rw [(step_frame h).progress fun i read he => hl ⟨i, read, he⟩]

/-- The label is the one that runs the second lock section of the monitor. -/
def Splits (s : State) (l : Label) (i : Nat) (splitSize : Int) : Prop :=
  l = .monitor ∧ s.monitor = .splitLock i splitSize

/-- A step splits one segment at most, so what holds of every split of a step is
said of that one. -/
theorem Splits.forall_iff {s : State} {l : Label} {i : Nat} {splitSize : Int}
    {seg : Segment} {P : Int → Segment → Prop} (h : Splits s l i splitSize)
    (hi : s.segments[i]? = some seg) :
    (∀ j size other, Splits s l j size → s.segments[j]? = some other → P size other) ↔
      P splitSize seg := by
  constructor
  · intro hall
    exact hall i splitSize seg h hi
  · intro hp j size other h' hj
    have hsame := h.2.symm.trans h'.2
    rw [MonitorPc.splitLock.injEq] at hsame
    obtain ⟨rfl, rfl⟩ := hsame
    rw [hi, Option.some.injEq] at hj
    exact hj ▸ hp

/-- What the second lock section of the monitor does. -/
theorem step_splits {cfg : Config} {s s' : State} {l : Label} {i : Nat}
    {splitSize : Int} (h : step cfg s l = some s')
    (hsplit : Splits s l i splitSize) :
    ∃ seg, s.segments[i]? = some seg ∧
      s'.segments = cutTable s.segments i seg (seg.length - splitSize) := by
  obtain ⟨rfl, hmon⟩ := hsplit
  have hstep : splitStep s i splitSize = some s' := by
    have h' : monitorStep cfg s = some s' := h
    unfold monitorStep at h'
    rw [hmon] at h'
    exact h'
  unfold splitStep at hstep
  split at hstep
  · cases hstep
  rename_i seg hi
  cases hstep
  refine ⟨seg, hi, ?_⟩
  have hoff : seg.offset + (seg.length - splitSize) =
      seg.offset + seg.length - splitSize := by omega
  have hlen : seg.length - (seg.length - splitSize) = splitSize := by omega
  rw [cutTable, hoff, hlen]

/-- Any other step leaves the split to come for later. -/
theorem step_not_splits {cfg : Config} {s s' : State} {l : Label}
    (h : step cfg s l = some s') (hl : ∀ i k, ¬Splits s l i k) {i : Nat}
    {splitSize : Int} (hold : s.monitor = .splitLock i splitSize)
    (seg : Segment) (newLength : Int) :
    s'.segments ≠ cutTable s.segments i seg newLength := by
  intro heq
  have hne : l ≠ .monitor := fun he => hl i splitSize ⟨he, hold⟩
  have hlen := (step_frame h).length hne
  rw [heq] at hlen
  simp [cutTable] at hlen

end DirectPackageInstaller.SegmentedStream
