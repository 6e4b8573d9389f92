import DirectPackageInstaller.Streams.SegmentedStream.Released

/-!
# The download comes to its end

Nothing that happened before keeps a download from finishing, as long as it
has not been cancelled: failed connections, stale splits and segments that
were cut below their counter all leave a state from which the tasks and the
monitor finish on their own.

* `Underway` is what holds of the table of a stream that nobody cancelled.
* `Underway.lowers`: each step of a task, and each chunk that is not empty,
  lowers `workLeft`.
* `Underway.enabled`: a task that has not ended can take such a step.
* `download_completes`: the rest of the content always can be downloaded, and
  the tasks cannot spend more than `workLeft` steps on it.
-/

namespace DirectPackageInstaller.SegmentedStream

open Transition Tiling

/-! ## What holds while nobody cancels -/

/-- A task ends when its segment is complete, and it asks for bytes that are
there. -/
structure SegmentLive (cfg : Config) (seg : Segment) : Prop where
  completed : seg.task = .completed → seg.length ≤ seg.downloaded
  reading : ∀ v toRead, seg.task = .reading v toRead →
    0 < toRead ∧ v.pos + toRead ≤ v.len ∧ v.filePos + v.len ≤ cfg.totalSize

/-- The one segment that has no task yet is the one that the monitor is about
to start. -/
def OneCreated (s : State) : Prop :=
  ∀ (j : Nat) (seg : Segment), s.segments[j]? = some seg →
    seg.task = .created → s.monitor = .start j

/-- The invariant of a stream that was not cancelled. -/
structure Underway (cfg : Config) (s : State) : Prop where
  live : ∀ seg ∈ s.segments, SegmentLive cfg seg
  created : OneCreated s

/-- A task that neither has ended nor reads. -/
theorem segmentLive_between {cfg : Config} {seg : Segment} (hend : seg.task ≠ .completed)
    (hread : ∀ v toRead, seg.task ≠ .reading v toRead) : SegmentLive cfg seg where
  completed := fun h => absurd h hend
  reading := fun v toRead h => absurd h (hread v toRead)

theorem segmentLive_fresh (cfg : Config) (offset length : Int) :
    SegmentLive cfg (.fresh offset length) := by
  apply segmentLive_between <;> simp [Segment.fresh]

theorem SegmentLive.move {cfg : Config} {seg : Segment} {task : DownloadTask}
    {registered : Bool} (h : SegmentLive cfg seg) (hok : SegmentOk seg)
    (hmove : TaskMove cfg false seg task) :
    SegmentLive cfg { seg with task, registered } := by
  have hstream := hok.stream
  rcases hmove with rfl | rfl | hnext
  · apply segmentLive_between <;> simp
  · exact ⟨h.completed, h.reading⟩
  cases htask : seg.task with
  | created | completed | reading =>
    rw [htask] at hnext
    cases hnext
  | outerLoop =>
    rw [htask] at hnext
    cases hnext
    apply segmentLive_between <;> simp
  | outerTest =>
    rw [htask] at hnext
    simp only [DownloadTask.next, Option.some.injEq] at hnext
    subst hnext
    split
    · rename_i hdone
      exact ⟨fun _ => hdone, by simp⟩
    · apply segmentLive_between <;> simp
  | connecting =>
    rw [htask] at hnext
    simp only [DownloadTask.next] at hnext
    split at hnext <;> cases hnext <;>
      apply segmentLive_between <;> simp
  | innerLoop w =>
    rw [htask] at hnext
    cases hnext
    apply segmentLive_between <;> simp
  | innerTest w =>
    rw [htask] at hnext hstream
    obtain ⟨-, hpos⟩ := hstream w rfl
    simp only [DownloadTask.next] at hnext
    split at hnext
    · cases hnext
      apply segmentLive_between <;> simp
    rename_i w' hw
    obtain ⟨hlen, rfl⟩ := VirtualStream.setLength_eq_some hw
    split at hnext
    · cases hnext
      apply segmentLive_between <;> simp
    · rename_i hleft
      cases hnext
      refine ⟨by simp, fun v toRead hread => ?_⟩
      cases hread
      have hbuf := cfg.bufferSize_pos
      show 0 < _ ∧ w.pos + _ ≤ seg.length ∧ w.filePos + seg.length ≤ _
      omega

/-- A segment that is cut shorter. -/
theorem SegmentLive.shorter {cfg : Config} {seg : Segment} {newLength : Int}
    (h : SegmentLive cfg seg) (hle : newLength ≤ seg.length) :
    SegmentLive cfg { seg with length := newLength } where
  completed := fun htask => Int.le_trans hle (h.completed htask)
  reading := h.reading

theorem live_change {cfg : Config} {s s' : State}
    (h : ∀ seg ∈ s.segments, SegmentLive cfg seg) (hcan : s.cancelled = false)
    (hcover : CoverInv cfg s) (hdata : DataInv cfg s) (hc : Change cfg s s') :
    ∀ seg ∈ s'.segments, SegmentLive cfg seg := by
  cases hc with
  | idle hseg | pick i hbest hseg | stale i seg hold hi hseg =>
    rw [hseg]
    exact h
  | control i seg task registered hi hmove hseg =>
    have hmem := Table.mem_of_getElem? hi
    rw [hcan] at hmove
    rw [hseg]
    exact Table.forall_mem_set h ((h seg hmem).move (hdata.segment seg hmem) hmove)
  | commit i seg v toRead read hi htask hpos hmax hseg =>
    rw [hseg]
    apply Table.forall_mem_set h
    apply segmentLive_between <;> simp
  | create i seg offset hi hinc hlo hhi hseg =>
    rw [hseg]
    apply forall_mem_cutTable h _ (segmentLive_fresh cfg _ _)
    exact (h seg (Table.mem_of_getElem? hi)).shorter (by omega)
  | split i seg splitSize hold hi hseg =>
    have hsize := hcover.monitor.splitSize hold hi
    rw [hseg]
    apply forall_mem_cutTable h _ (segmentLive_fresh cfg _ _)
    exact (h seg (Table.mem_of_getElem? hi)).shorter (by omega)

/-! ## The segment without a task -/

/-- The monitor is where it was, and so are the segments without a task. -/
theorem created_set {s s' : State} {i : Nat} {new : Segment}
    (h : OneCreated s) (hnew : new.task ≠ .created)
    (hseg : s'.segments = s.segments.set i new) (hmon : s'.monitor = s.monitor) :
    OneCreated s' := by
  intro j seg hj htask
  rw [hseg, List.getElem?_set] at hj
  rw [hmon]
  split at hj
  · split at hj <;> cases hj
    exact absurd htask hnew
  · exact h j seg hj htask

/-- After a cut the new segment has no task, and the monitor starts it. -/
theorem created_cut {s s' : State} {i : Nat} {seg : Segment} {newLength : Int}
    (h : ∀ (j : Nat) (seg : Segment), s.segments[j]? = some seg → seg.task ≠ .created)
    (hi : s.segments[i]? = some seg)
    (hseg : s'.segments = cutTable s.segments i seg newLength)
    (hmon : s'.monitor = .start s.segments.length) : OneCreated s' := by
  intro j new hj htask
  rw [hseg, cutTable] at hj
  rcases Nat.lt_or_ge j s.segments.length with hlt | hge
  · rw [List.getElem?_append_left (by simpa using hlt), List.getElem?_set] at hj
    split at hj
    · split at hj <;> cases hj
      exact absurd htask (h i seg hi)
    · exact absurd htask (h j new hj)
  · obtain ⟨hlen, -⟩ := List.getElem?_eq_some_iff.1 hj
    rw [List.length_append, List.length_set, List.length_singleton] at hlen
    rw [hmon, show j = s.segments.length by omega]

/-- Where the monitor is not about to start a segment, all have their tasks. -/
theorem Underway.ne_created {cfg : Config} {s : State} (h : Underway cfg s)
    (hmon : ∀ i, s.monitor ≠ .start i) (j : Nat) (seg : Segment)
    (hj : s.segments[j]? = some seg) : seg.task ≠ .created :=
  fun htask => hmon j (h.created j seg hj htask)

theorem monitorStep_created {cfg : Config} {s s' : State} (h : Underway cfg s)
    (hs : monitorStep cfg s = some s') : OneCreated s' := by
  have hne := h.ne_created
  unfold monitorStep at hs
  split at hs
  case h_1 hmon | h_2 hmon | h_8 hmon =>
    cases hs
    intro j seg hj htask
    exact absurd htask (hne (by simp [hmon]) j seg hj)
  case h_3 hmon =>
    cases hs
    have hall := hne (by simp [hmon])
    rcases decideStep_monitor cfg s with ⟨i, seg, n, hi, hseg, hgo⟩ | ⟨hseg, -⟩
    · exact created_cut hall hi hseg hgo
    · intro j seg hj htask
      rw [hseg] at hj
      exact absurd htask (hall j seg hj)
  case h_4 i hmon =>
    obtain ⟨seg, -, rfl⟩ := Option.map_eq_some_iff.1 hs
    intro j seg hj htask
    exact absurd htask (hne (by simp [hmon]) j seg hj)
  case h_5 i splitSize hmon =>
    have hstep : step cfg s .monitor = some s' := by
      show monitorStep cfg s = some s'
      unfold monitorStep
      rw [hmon]
      exact hs
    obtain ⟨seg, hi, hseg⟩ := step_splits hstep ⟨rfl, hmon⟩
    apply created_cut (hne (by simp [hmon])) hi hseg
    unfold splitStep at hs
    rw [hi] at hs
    cases hs
    rfl
  case h_6 i hmon =>
    obtain ⟨seg, hi, rfl⟩ := Option.map_eq_some_iff.1 hs
    intro j new hj htask
    have hj' : (s.segments.set i { seg with task := .outerLoop })[j]? = some new := hj
    rw [List.getElem?_set] at hj'
    split at hj'
    · split at hj' <;> cases hj'
      cases htask
    · rename_i hij
      have hstart := h.created j new hj' htask
      rw [hmon, MonitorPc.start.injEq] at hstart
      exact absurd hstart hij
  case h_7 i hmon =>
    obtain ⟨seg, hi, rfl⟩ := Option.map_eq_some_iff.1 hs
    have hall := hne (by simp [hmon])
    intro j new hj htask
    have hj' : (s.segments.set i { seg with registered := true })[j]? = some new := hj
    rw [List.getElem?_set] at hj'
    split at hj'
    · split at hj' <;> cases hj'
      exact absurd htask (hall i seg hi)
    · exact absurd htask (hall j new hj')
  case h_9 => cases hs

theorem created_step {cfg : Config} {s s' : State} {l : Label}
    (h : Underway cfg s) (hcan : s'.cancelled = false)
    (hs : step cfg s l = some s') : OneCreated s' := by
  cases l with
  | task i =>
    change taskStep cfg s i = some s' at hs
    unfold taskStep at hs
    split at hs
    · cases hs
    · obtain ⟨task, hnext, rfl⟩ := Option.map_eq_some_iff.1 hs
      exact created_set h.created (DownloadTask.next_ne_created hnext) rfl rfl
  | chunk i read =>
    obtain ⟨seg, v, toRead, -, -, -, -, hseg, -, -, hmon⟩ := chunkStep_eq_some hs
    exact created_set h.created (by simp) hseg hmon
  | fail i =>
    change failStep s i = some s' at hs
    unfold failStep at hs
    split at hs
    · cases hs
    · rename_i seg hi
      have hset : s' = s.setSegment i { seg with task := .outerLoop } := by
        split at hs <;> cases hs <;> rfl
      subst hset
      exact created_set h.created (by simp) rfl rfl
  | monitor => exact monitorStep_created h hs
  | monitorFail =>
    change monitorFailStep s = some s' at hs
    unfold monitorFailStep at hs
    split at hs <;> cases hs
    cases hcan
  | cancel =>
    cases hs
    cases hcan
  | readAt r position count =>
    change readAtStep cfg s r position count = some s' at hs
    unfold readAtStep at hs
    split_ifs at hs <;> cases hs <;> exact h.created
  | wait r slow =>
    obtain ⟨hseg, -, -, hmon, -⟩ := waitStep_data hs
    unfold OneCreated
    rw [hseg, hmon]
    exact h.created
  | deliver r read =>
    change deliverStep cfg s r read = some s' at hs
    unfold deliverStep at hs
    split at hs
    · cases hs
    · split_ifs at hs
      cases hs
      exact h.created

theorem underway_of_reachable {cfg : Config}
    (hbuf : cfg.bufferSize ≤ 2 * 1024 * 1024) {s : State}
    (h : (system cfg).Reachable s) (hcan : s.cancelled = false) :
    Underway cfg s := by
  have hboth : (system cfg).Reachable s ∧ (s.cancelled = false → Underway cfg s) := by
    refine h.invariant (fun s => (system cfg).Reachable s ∧
      (s.cancelled = false → Underway cfg s)) ?_ ?_
    · intro s hs
      refine ⟨.init hs, fun _ => ?_⟩
      subst hs
      constructor
      · intro seg hmem
        rw [init, List.mem_singleton] at hmem
        subst hmem
        apply segmentLive_between <;> simp
      · intro i seg hi htask
        have hmem := Table.mem_of_getElem? hi
        rw [init, List.mem_singleton] at hmem
        subst hmem
        cases htask
    · intro s l s' hs hstep
      refine ⟨hs.1.step hstep, fun hcan' => ?_⟩
      have hbefore : s.cancelled = false := by
        by_contra htrue
        have := (step_frame hstep).cancelled (by simpa using htrue)
        rw [hcan'] at this
        cases this
      have hunder := hs.2 hbefore
      obtain ⟨hcover, hdata⟩ := coverInv_of_reachable hbuf hs.1
      exact ⟨live_change hunder.live hbefore hcover hdata (step_change hstep),
        created_step hunder hcan' hstep⟩
  exact hboth.2 hcan

/-! ## What is left to do -/

/-- How many steps a task is away from its next chunk. -/
def DownloadTask.toChunk : DownloadTask → Nat
  | .outerLoop => 5
  | .outerTest => 4
  | .connecting => 3
  | .innerLoop _ => 2
  | .innerTest _ => 1
  | .created | .reading _ _ | .completed => 0

/-- How many steps a task of a complete segment is away from its end. -/
def DownloadTask.toEnd : DownloadTask → Nat
  | .connecting | .reading _ _ => 5
  | .innerLoop _ => 4
  | .innerTest _ => 3
  | .outerLoop => 2
  | .outerTest => 1
  | .created | .completed => 0

/-- `Length - Downloaded`, or zero where a cut has left the counter behind. -/
def Segment.missing (seg : Segment) : Nat :=
  (seg.length - seg.downloaded).toNat

/-- A bound on the steps that a task still takes, when every chunk has one byte
at least. -/
def Segment.workLeft (seg : Segment) : Nat :=
  if seg.missing = 0 then seg.task.toEnd else 10 * seg.missing + seg.task.toChunk

def workLeft (segments : List Segment) : Nat :=
  (segments.map Segment.workLeft).sum

theorem workLeft_set_lt {segments : List Segment} {i : Nat} {seg new : Segment}
    (hi : segments[i]? = some seg) (hlt : new.workLeft < seg.workLeft) :
    workLeft (segments.set i new) < workLeft segments := by
  have hold := ((Table.perm_of_getElem? hi).map Segment.workLeft).sum_eq
  have hnew := ((Table.set_perm hi new).map Segment.workLeft).sum_eq
  simp only [List.map_cons, List.sum_cons] at hold hnew
  unfold workLeft
  omega

/-- A step of a task of a stream that was not cancelled brings it closer to its
next chunk, or to its end when nothing is missing. -/
theorem next_lowers {cfg : Config} {seg : Segment} {task : DownloadTask}
    (hok : SegmentOk seg)
    (hroom : 0 < seg.length → seg.offset + seg.length ≤ cfg.totalSize)
    (hnext : seg.task.next cfg false seg = some task) :
    { seg with task }.workLeft < seg.workLeft := by
  have hdown := hok.downloaded_nonneg
  have hstream := hok.stream
  unfold Segment.workLeft Segment.missing
  dsimp only
  cases htask : seg.task with
  | created | completed | reading =>
    rw [htask] at hnext
    cases hnext
  | outerLoop =>
    rw [htask] at hnext
    cases hnext
    split <;> simp [DownloadTask.toEnd, DownloadTask.toChunk]
  | outerTest =>
    rw [htask] at hnext
    simp only [DownloadTask.next, Option.some.injEq] at hnext
    subst hnext
    by_cases hdone : seg.downloaded ≥ seg.length
    · rw [if_pos hdone, if_pos (by omega), if_pos (by omega)]
      decide
    · rw [if_neg hdone, if_neg (by omega), if_neg (by omega)]
      simp [DownloadTask.toChunk]
  | connecting =>
    rw [htask] at hnext
    simp only [DownloadTask.next] at hnext
    split at hnext
    · rename_i hthrows
      cases hnext
      -- the window is shorter than the counter, so nothing is missing
      have hshort : seg.length < seg.downloaded := by
        by_contra hle
        unfold VirtualStream.setPosition VirtualStream.create at hthrows
        rw [if_neg (by dsimp only; omega)] at hthrows
        cases hthrows
      rw [if_pos (by omega), if_pos (by omega)]
      decide
    · cases hnext
      split <;> simp [DownloadTask.toEnd, DownloadTask.toChunk]
  | innerLoop w =>
    rw [htask] at hnext
    cases hnext
    split <;> simp [DownloadTask.toEnd, DownloadTask.toChunk]
  | innerTest w =>
    rw [htask] at hnext hstream
    obtain ⟨hfile, -⟩ := hstream w rfl
    simp only [DownloadTask.next] at hnext
    by_cases hdone : seg.downloaded ≥ seg.length
    · have htask' : task = .outerLoop := by
        split at hnext
        · cases hnext
          rfl
        · rw [if_pos hdone] at hnext
          cases hnext
          rfl
      subst htask'
      rw [if_pos (by omega), if_pos (by omega)]
      simp [DownloadTask.toEnd]
    · -- the window ends with the segment, inside the resource
      have hend := hroom (by omega)
      unfold VirtualStream.setLength at hnext
      rw [if_neg (by omega)] at hnext
      dsimp only at hnext
      rw [if_neg hdone] at hnext
      cases hnext
      rw [if_neg (by omega), if_neg (by omega)]
      simp [DownloadTask.toChunk]

/-- So does a chunk that is not empty. -/
theorem chunk_lowers {seg : Segment} {v : VirtualStream} {toRead read : Int}
    (htask : seg.task = .reading v toRead) (hread : 0 < read) :
    { seg with
      downloaded := seg.downloaded + read
      task := .innerLoop (v.advance read) }.workLeft < seg.workLeft := by
  unfold Segment.workLeft Segment.missing
  rw [htask]
  dsimp only [DownloadTask.toEnd, DownloadTask.toChunk]
  split <;> split <;> omega

/-! ## The steps that finish the download -/

/-- A step of a task, or a chunk that is not empty. -/
def Downloads : Label → Prop
  | .task _ => True
  | .chunk _ read => 0 < read
  | _ => False

/-- A step of a task or of the monitor, or a chunk that is not empty. -/
def Works (l : Label) : Prop := Downloads l ∨ l = .monitor

theorem Works.calm {l : Label} (h : Works l) : Calm l := by
  rcases h with h | rfl
  · cases l with
    | task | chunk => exact ⟨fun h => (nomatch h), fun h => nomatch h⟩
    | _ => exact absurd h (fun h => h)
  · exact ⟨fun h => (nomatch h), fun h => nomatch h⟩

/-- A reachable state of a run that was not cancelled. -/
structure Running (cfg : Config) (s : State) : Prop where
  reachable : (system cfg).Reachable s
  calm : s.cancelled = false

theorem Running.step {cfg : Config} {s s' : State} {l : Label}
    (h : Running cfg s) (hl : Calm l) (hs : step cfg s l = some s') :
    Running cfg s' :=
  ⟨h.reachable.step hs, (step_cancelled hl hs).trans h.calm⟩

theorem CoverInv.end_le {cfg : Config} {s : State} (h : CoverInv cfg s)
    {seg : Segment} (hmem : seg ∈ s.segments) (hlen : 0 < seg.length) :
    seg.offset + seg.length ≤ cfg.totalSize := by
  have hlast := h.lt_totalSize hmem
    (show seg.offset ≤ seg.offset + seg.length - 1 by omega) (by omega)
  omega

/-- Every such step of a task leaves less to do. -/
theorem Running.lowers {cfg : Config} (hbuf : cfg.bufferSize ≤ 2 * 1024 * 1024)
    {s s' : State} {l : Label} (h : Running cfg s) (hl : Downloads l)
    (hs : SegmentedStream.step cfg s l = some s') :
    workLeft s'.segments < workLeft s.segments := by
  obtain ⟨hcover, hdata⟩ := coverInv_of_reachable hbuf h.reachable
  cases l with
  | task i =>
    change taskStep cfg s i = some s' at hs
    unfold taskStep at hs
    split at hs
    · cases hs
    · rename_i seg hi
      have hmem := Table.mem_of_getElem? hi
      obtain ⟨task, hnext, rfl⟩ := Option.map_eq_some_iff.1 hs
      rw [h.calm] at hnext
      apply workLeft_set_lt hi
      exact next_lowers (hdata.segment seg hmem) (hcover.end_le hmem) hnext
  | chunk i read =>
    obtain ⟨seg, v, toRead, hi, htask, -, -, hseg, -⟩ := chunkStep_eq_some hs
    rw [hseg]
    exact workLeft_set_lt hi (chunk_lowers htask hl)
  | fail | monitor | monitorFail | cancel | readAt | wait | deliver => exact absurd hl id

/-- A read in flight can be answered with one byte. -/
theorem one_le_maxChunk {cfg : Config} {s : State} {seg : Segment}
    {v : VirtualStream} {toRead : Int} (hlive : SegmentLive cfg seg)
    (hcover : CoverInv cfg s) (hmem : seg ∈ s.segments)
    (htask : seg.task = .reading v toRead) : 1 ≤ maxChunk cfg v toRead := by
  obtain ⟨hpos, hwindow, hend⟩ := hlive.reading v toRead htask
  have hbuffer := (hcover.toRead seg hmem v toRead htask).2
  have hclamp : 1 ≤ v.clampCount cfg.bufferSize 0 toRead := by
    unfold VirtualStream.clampCount
    dsimp only
    split_ifs <;> omega
  apply le_min hclamp
  omega

/-- A task that was started and has not ended can take one. -/
theorem Running.enabled {cfg : Config} (hbuf : cfg.bufferSize ≤ 2 * 1024 * 1024)
    {s : State} (h : Running cfg s) {i : Nat} {seg : Segment}
    (hi : s.segments[i]? = some seg) (hcreated : seg.task ≠ .created)
    (hrun : seg.task ≠ .completed) :
    ∃ l s', Downloads l ∧ SegmentedStream.step cfg s l = some s' ∧
      s'.monitor = s.monitor := by
  have hcover := (coverInv_of_reachable hbuf h.reachable).1
  have hmem := Table.mem_of_getElem? hi
  have hlive := (underway_of_reachable hbuf h.reachable h.calm).live seg hmem
  have hgo : ∀ task, seg.task.next cfg s.cancelled seg = some task →
      ∃ l s', Downloads l ∧ SegmentedStream.step cfg s l = some s' ∧
        s'.monitor = s.monitor :=
    fun task hnext => ⟨.task i, _, trivial, taskStep_of_next hi hnext, rfl⟩
  cases htask : seg.task with
  | created => exact absurd htask hcreated
  | completed => exact absurd htask hrun
  | outerLoop | outerTest | innerLoop =>
    rw [htask] at hgo
    exact hgo _ rfl
  | connecting =>
    rw [htask] at hgo
    unfold DownloadTask.next at hgo
    dsimp only at hgo
    split at hgo <;> exact hgo _ rfl
  | innerTest =>
    rw [htask] at hgo
    unfold DownloadTask.next at hgo
    dsimp only at hgo
    split at hgo
    · exact hgo _ rfl
    · split at hgo <;> exact hgo _ rfl
  | reading v toRead =>
    have hmax := one_le_maxChunk hlive hcover hmem htask
    have hstep : ∃ s', chunkStep cfg s i 1 = some s' := by
      unfold chunkStep
      rw [hi]
      dsimp only
      rw [htask]
      dsimp only
      rw [if_neg (by omega), if_neg (by omega)]
      exact ⟨_, rfl⟩
    obtain ⟨s', hs⟩ := hstep
    obtain ⟨-, -, -, -, -, -, -, -, -, -, hmon⟩ := chunkStep_eq_some hs
    exact ⟨.chunk i 1, s', Int.zero_lt_one, hs, hmon⟩

/-! ## The monitor between two rounds -/

/-- The monitor is not inside a round. -/
def Rests (s : State) : Prop :=
  s.monitor = .loopTest ∨ s.monitor = .delay ∨ s.monitor = .stopped

/-- A cancellation does not change what the monitor does inside a round. -/
theorem monitorStep_of_cancelled {cfg : Config} {s s' : State} (h : ¬Rests s)
    (hs : monitorStep cfg { s with cancelled := true } = some s') :
    ∃ t, monitorStep cfg s = some t ∧ t.monitor = s'.monitor := by
  unfold Rests at h
  push Not at h
  obtain ⟨hloop, hdelay, hstopped⟩ := h
  unfold monitorStep at hs ⊢
  dsimp only at hs
  cases hmon : s.monitor with
  | loopTest => exact absurd hmon hloop
  | delay => exact absurd hmon hdelay
  | stopped => exact absurd hmon hstopped
  | progressTest =>
    rw [hmon] at hs
    cases hs
    exact ⟨_, rfl, rfl⟩
  | decide =>
    rw [hmon] at hs
    cases hs
    refine ⟨_, rfl, ?_⟩
    have hsame : createPriority cfg { s with cancelled := true, monitor := .decide } =
        ({ (createPriority cfg s).1 with cancelled := true, monitor := .decide },
          (createPriority cfg s).2) := by
      unfold createPriority
      dsimp only
      split
      · rfl
      · split
        · split <;> rfl
        · rfl
    unfold decideStep
    rw [hsame]
  | readRemaining i =>
    rw [hmon] at hs
    obtain ⟨seg, hi, rfl⟩ := Option.map_eq_some_iff.1 hs
    refine ⟨_, by dsimp only; rw [hi]; rfl, ?_⟩
    rfl
  | splitLock i splitSize =>
    rw [hmon] at hs
    unfold splitStep at hs ⊢
    dsimp only at hs ⊢
    cases hi : s.segments[i]? with
    | none =>
      rw [hi] at hs
      cases hs
    | some seg =>
      rw [hi] at hs
      cases hs
      exact ⟨_, rfl, rfl⟩
  | start i | register i =>
    rw [hmon] at hs
    obtain ⟨seg, hi, rfl⟩ := Option.map_eq_some_iff.1 hs
    refine ⟨_, by dsimp only; rw [hi]; rfl, ?_⟩
    rfl

/-- Inside a round the monitor gets closer to the end of it.  This is what it
does after a cancellation as well. -/
theorem Running.monitor {cfg : Config} (hbuf : cfg.bufferSize ≤ 2 * 1024 * 1024)
    {s : State} (h : Running cfg s) (hmon : ¬Rests s) :
    ∃ s', monitorStep cfg s = some s' ∧ s'.monitor.rank < s.monitor.rank := by
  have hend : Ending cfg { s with cancelled := true } :=
    ⟨rfl, h.reachable.step (l := .cancel) rfl⟩
  obtain ⟨s', hs', hlt⟩ := hend.monitor hbuf fun hstop => hmon (.inr (.inr hstop))
  obtain ⟨t, ht, hsame⟩ := monitorStep_of_cancelled hmon hs'
  exact ⟨t, ht, hsame ▸ hlt⟩

theorem Running.restMonitor {cfg : Config}
    (hbuf : cfg.bufferSize ≤ 2 * 1024 * 1024) {s : State} (h : Running cfg s) :
    ∃ s', (system cfg).RunsTo Works s s' ∧ Running cfg s' ∧ Rests s' := by
  apply System.exists_runsTo_of_rank (Running cfg) Rests (fun s => s.monitor.rank) _ h
  intro s hs hmon
  obtain ⟨s', hstep, hlt⟩ := hs.monitor hbuf hmon
  have hlabel : Works .monitor := .inr rfl
  exact ⟨.monitor, s', hlabel, hstep, hs.step (l := .monitor) hlabel.calm hstep, hlt⟩

/-- With the monitor at rest the tasks end, each with its segment complete. -/
theorem Running.endTasks {cfg : Config} (hbuf : cfg.bufferSize ≤ 2 * 1024 * 1024)
    {s : State} (h : Running cfg s) (hrest : Rests s) :
    ∃ s', (system cfg).RunsTo Works s s' ∧ (Running cfg s' ∧ Rests s') ∧
      ∀ seg ∈ s'.segments, seg.task = .completed := by
  apply System.exists_runsTo_of_rank (fun s => Running cfg s ∧ Rests s)
    (fun s => ∀ seg ∈ s.segments, seg.task = .completed)
    (fun s => workLeft s.segments) _ ⟨h, hrest⟩
  rintro s ⟨hs, hmon⟩ hleft
  push Not at hleft
  obtain ⟨seg, hmem, hrun⟩ := hleft
  obtain ⟨i, hi⟩ := List.mem_iff_getElem?.1 hmem
  have hstart : ∀ j, s.monitor ≠ .start j := by
    intro j hj
    rcases hmon with hmon | hmon | hmon <;> rw [hj] at hmon <;> cases hmon
  have hcreated := (underway_of_reachable hbuf hs.reachable hs.calm).ne_created
    hstart i seg hi
  obtain ⟨l, s', hl, hstep, hsame⟩ := hs.enabled hbuf hi hcreated hrun
  have hlabel : Works l := .inl hl
  refine ⟨l, s', hlabel, hstep, ⟨hs.step hlabel.calm hstep, ?_⟩, hs.lowers hbuf hl hstep⟩
  unfold Rests
  rw [hsame]
  exact hmon

/-! ## The end of the download -/

/-- A stream whose segments are all complete has counted every byte. -/
theorem Running.totalSize_le {cfg : Config}
    (hbuf : cfg.bufferSize ≤ 2 * 1024 * 1024) {s : State} (h : Running cfg s)
    (hall : ∀ seg ∈ s.segments, seg.length ≤ seg.downloaded) :
    cfg.totalSize ≤ totalProgress s.segments := by
  obtain ⟨hcover, hdata⟩ := coverInv_of_reachable hbuf h.reachable
  have hprogress : ProgressInv cfg s := by
    refine h.reachable.invariant (ProgressInv cfg) ?_ fun s l s' hp hs => hp.step hs
    intro s hs
    exact hs ▸ progressInv_init cfg
  have hsub : Set.Ico 0 cfg.totalSize ⊆ Memory.marked s.written := by
    intro p hp
    exact (hdata.written_iff p).2 (hcover.downloadedAt_of_completed
      (fun seg hmem => by simpa [Segment.isCompleted] using hall seg hmem) hp.1 hp.2)
  have hcard := Set.ncard_le_ncard hsub hprogress.finite
  have hsize : ((Set.Ico 0 cfg.totalSize).ncard : Int) = cfg.totalSize := by
    simpa using ncard_Ico_chunk 0 cfg.totalSize_nonneg
  have hcounted := hprogress.counted
  omega

/-- Once all bytes are counted a monitor at rest stops. -/
theorem Running.stopMonitor {cfg : Config} {s : State} (h : Running cfg s)
    (hrest : Rests s) (hsum : cfg.totalSize ≤ totalProgress s.segments) :
    (system cfg).RunsTo Works s { s with monitor := .stopped } := by
  have hcan := h.calm
  have hlabel : Works .monitor := .inr rfl
  have hprogress : (system cfg).RunsTo Works { s with monitor := .progressTest }
      { s with monitor := .stopped } := by
    apply System.RunsTo.single hlabel
    show some _ = some _
    rw [if_neg (by dsimp only; omega)]
  have hloop : (system cfg).RunsTo Works { s with monitor := .loopTest }
      { s with monitor := .progressTest } := by
    apply System.RunsTo.single hlabel
    show some _ = some _
    rw [if_neg (by simp [hcan])]
  have hdelay : (system cfg).RunsTo Works { s with monitor := .delay }
      { s with monitor := .loopTest } := by
    apply System.RunsTo.single hlabel
    show some _ = some _
    rw [if_neg (by simp [hcan])]
  obtain ⟨segments, priority, cancelled, monitor, readers, buffer, written, returned⟩ := s
  rcases hrest with hmon | hmon | hmon <;> cases hmon
  · exact hloop.trans hprogress
  · exact (hdelay.trans hloop).trans hprogress
  · exact .refl

/-- The download has finished: nobody works on it any more, `Finished` is true
and the backing buffer holds the resource. -/
structure Downloaded (cfg : Config) (s : State) : Prop where
  monitor : s.monitor = .stopped
  tasks : ∀ seg ∈ s.segments, seg.task = .completed
  finished : finished cfg s.segments = true
  content : ∀ p, 0 ≤ p → p < cfg.totalSize → s.buffer p = cfg.origin p

/-- From every state of a stream that nobody cancelled, whatever failed before,
the tasks and the monitor can finish the download; and the tasks take no more
than `workLeft` steps, however they interleave. -/
theorem download_completes {cfg : Config}
    (hbuf : cfg.bufferSize ≤ 2 * 1024 * 1024) {s : State}
    (h : (system cfg).Reachable s) (hcan : s.cancelled = false) :
    (∃ s', (system cfg).RunsTo Works s s' ∧ Downloaded cfg s') ∧
      ∀ ls s', (∀ l ∈ ls, Downloads l) → (system cfg).run s ls = some s' →
        ls.length ≤ workLeft s.segments := by
  have hs : Running cfg s := ⟨h, hcan⟩
  refine ⟨?_, fun ls s' hls hrun => ?_⟩
  · obtain ⟨s₁, hrun₁, hs₁, hrest₁⟩ := hs.restMonitor hbuf
    obtain ⟨s₂, hrun₂, ⟨hs₂, hrest₂⟩, hall⟩ := hs₁.endTasks hbuf hrest₁
    have hlive := (underway_of_reachable hbuf hs₂.reachable hs₂.calm).live
    have hcomplete : ∀ seg ∈ s₂.segments, seg.length ≤ seg.downloaded :=
      fun seg hmem => (hlive seg hmem).completed (hall seg hmem)
    have hsum := hs₂.totalSize_le hbuf hcomplete
    refine ⟨_, (hrun₁.trans hrun₂).trans (hs₂.stopMonitor hrest₂ hsum), rfl, hall, ?_, ?_⟩
    · have hidle : inProgress s₂.segments = false := by
        simp only [inProgress, List.any_eq_false]
        intro seg hmem
        simp [hall seg hmem]
      simp [SegmentedStream.finished, hidle, hsum]
    · obtain ⟨hcover, hdata⟩ := coverInv_of_reachable hbuf hs₂.reachable
      intro p hlo hhi
      have hdown := hcover.downloadedAt_of_completed
        (fun seg hmem => by simpa [Segment.isCompleted] using hcomplete seg hmem) hlo hhi
      exact hdata.content p ((hdata.written_iff p).2 hdown)
  · apply System.length_le_rank (Running cfg) (fun s => workLeft s.segments) _ hls hs hrun
    intro s l s' hs hl hstep
    exact ⟨hs.step (Works.calm (.inl hl)) hstep, hs.lowers hbuf hl hstep⟩

/-- A download that has lost its first connection. -/
def afterFailure : State :=
  ((system (sevens 3)).run (init (sevens 3))
    [.task 0, .task 0, .fail 0]).get (by decide +kernel)

theorem download_completes_afterFailure :
    (∃ s', (system (sevens 3)).RunsTo Works afterFailure s' ∧ Downloaded (sevens 3) s') ∧
      ∀ ls s', (∀ l ∈ ls, Downloads l) →
        (system (sevens 3)).run afterFailure ls = some s' →
          ls.length ≤ workLeft afterFailure.segments := by
  have hreach : (system (sevens 3)).Reachable afterFailure :=
    System.reachable_of_run (.init rfl) (Option.some_get _).symm
  exact download_completes (by decide) hreach (by decide +kernel)

end DirectPackageInstaller.SegmentedStream
