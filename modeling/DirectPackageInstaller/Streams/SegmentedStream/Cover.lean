import DirectPackageInstaller.Lib.Tiling
import DirectPackageInstaller.Streams.SegmentedStream.Content

/-!
# The segments tile the resource

Both split paths cut a segment in two, so the table stays a tiling of
`[0, TotalSize)` as long as the cut point lies inside the segment.  For a
priority split the guards of `CreateSegmentAtOffsetUnsafe` say so.  The
monitor's split computes its cut point from a `remaining` that it read
outside the lock, and the point is inside only if that value was not
negative.

The monitor picks a segment with at least 2 MiB left.  At that moment a chunk
of at most one buffer may be in flight for it, and every later chunk is cut
to the current length.  With a buffer of at most 2 MiB the counter therefore
stays at or below the length until the split (`NoOvershoot`), however stale
`remaining` is by then.
-/

namespace DirectPackageInstaller.SegmentedStream

open Memory Transition Tiling

/-- `[Offset, Offset + Length)`. -/
def Segment.interval (seg : Segment) : Int × Int :=
  (seg.offset, seg.offset + seg.length)

/-- The counter of the segment is not past its length, and neither will it be
when the chunk in flight arrives. -/
def NoOvershoot (seg : Segment) : Prop :=
  seg.downloaded ≤ seg.length ∧
    ∀ v toRead, seg.task = .reading v toRead →
      seg.downloaded + toRead ≤ seg.length

/-- What the monitor knows about the segment that it is about to split. -/
def MonitorOk (s : State) : Prop :=
  match s.monitor with
  | .readRemaining i => ∃ seg, s.segments[i]? = some seg ∧ NoOvershoot seg
  | .splitLock i splitSize => ∃ seg, s.segments[i]? = some seg ∧
      0 ≤ splitSize ∧ splitSize ≤ seg.length
  | _ => True

structure CoverInv (cfg : Config) (s : State) : Prop where
  tiles : Tiles (s.segments.map Segment.interval) 0 cfg.totalSize
  monitor : MonitorOk s
  toRead : ∀ seg ∈ s.segments, ∀ v toRead, seg.task = .reading v toRead →
    0 ≤ toRead ∧ toRead ≤ cfg.bufferSize
  offset_nonneg : ∀ seg ∈ s.segments, 0 ≤ seg.offset
  inside : ∀ p, DownloadedAt s.segments p → 0 ≤ p ∧ p < cfg.totalSize

/-! ## Chunks in flight -/

/-- A read that a move of the task starts asks for no more than the buffer
and the current length allow. -/
theorem TaskMove.reading {cfg : Config} {cancelled : Bool} {seg : Segment}
    {v : VirtualStream} {toRead : Int}
    (h : TaskMove cfg cancelled seg (.reading v toRead)) :
    seg.task = .reading v toRead ∨
      toRead = min cfg.bufferSize (seg.length - seg.downloaded) ∧
        seg.downloaded < seg.length := by
  rcases h with h | h | h
  · cases h
  · exact Or.inl h.symm
  · right
    cases htask : seg.task with
    | innerTest w =>
      rw [htask] at h
      simp only [DownloadTask.next] at h
      split at h
      · cases h
      · split at h
        · cases h
        · cases h
          exact ⟨rfl, by omega⟩
    | connecting =>
      rw [htask] at h
      simp only [DownloadTask.next] at h
      split at h <;> cases h
    | outerLoop | outerTest | innerLoop =>
      rw [htask] at h
      simp only [DownloadTask.next] at h
      split at h <;> cases h
    | created | completed | reading =>
      rw [htask] at h
      cases h

theorem NoOvershoot.move {cfg : Config} {cancelled registered : Bool}
    {seg : Segment} {task : DownloadTask} (h : NoOvershoot seg)
    (hmove : TaskMove cfg cancelled seg task) :
    NoOvershoot { seg with task, registered } := by
  refine ⟨h.1, fun v toRead htask => ?_⟩
  dsimp only at htask ⊢
  subst htask
  rcases hmove.reading with hold | ⟨hmin, hlt⟩
  · exact h.2 v toRead hold
  · omega

theorem maxChunk_le {cfg : Config} {v : VirtualStream} {toRead : Int}
    (h : 0 ≤ toRead) : maxChunk cfg v toRead ≤ toRead :=
  (min_le_left _ _).trans (VirtualStream.clampCount_le h)

theorem NoOvershoot.commit {cfg : Config} {seg : Segment} {v : VirtualStream}
    {toRead read : Int} (h : NoOvershoot seg)
    (htask : seg.task = .reading v toRead) (hpos : 0 ≤ toRead)
    (hmax : read ≤ maxChunk cfg v toRead) :
    NoOvershoot { seg with
      downloaded := seg.downloaded + read
      task := .innerLoop (v.advance read) } := by
  have hle := hmax.trans (maxChunk_le hpos)
  have hroom := h.2 v toRead htask
  exact ⟨by dsimp only; omega, fun w n hw => by cases hw⟩

/-! ## The monitor's segment -/

/-- `MonitorOk` is what the monitor knows, with `NoOvershoot` before the read
and a size that fits the segment after it. -/
theorem monitorOk_iff {s : State} : MonitorOk s ↔ MonitorHolds NoOvershoot
    (fun splitSize seg => 0 ≤ splitSize ∧ splitSize ≤ seg.length) s :=
  Iff.rfl

theorem monitorOk_of_not_splits {s : State} (h : s.monitor.splits = false) :
    MonitorOk s :=
  monitorOk_iff.2 (monitorHolds_of_not_splits h)

/-- A monitor at the same place with the same table. -/
theorem MonitorOk.same {s s' : State} (h : MonitorOk s)
    (hseg : s'.segments = s.segments)
    (hmon : s'.monitor = s.monitor ∨ s'.monitor.splits = false) :
    MonitorOk s' :=
  monitorOk_iff.2 ((monitorOk_iff.1 h).same hseg hmon)

/-- The segment that the monitor holds after row `j` has been replaced by a
segment of the same length. -/
theorem MonitorOk.set {s s' : State} (h : MonitorOk s) {j : Nat}
    {seg new : Segment} (hj : s.segments[j]? = some seg)
    (hseg : s'.segments = s.segments.set j new)
    (hmon : s'.monitor = s.monitor ∨ s'.monitor.splits = false)
    (hlen : new.length = seg.length)
    (hover : NoOvershoot seg → NoOvershoot new) : MonitorOk s' := by
  refine monitorOk_iff.2 ((monitorOk_iff.1 h).set hj hseg hmon hover ?_)
  intro k hk
  rw [hlen]
  exact hk

/-- The segment whose `remaining` the monitor is about to read. -/
theorem MonitorOk.noOvershoot {s : State} {i : Nat} {seg : Segment}
    (h : MonitorOk s) (hmon : s.monitor = .readRemaining i)
    (hi : s.segments[i]? = some seg) : NoOvershoot seg :=
  (monitorOk_iff.1 h).readRemaining hmon hi

/-- The split that the monitor is about to make lies inside the segment. -/
theorem MonitorOk.splitSize {s : State} {i : Nat} {seg : Segment} {splitSize : Int}
    (h : MonitorOk s) (hmon : s.monitor = .splitLock i splitSize)
    (hi : s.segments[i]? = some seg) : 0 ≤ splitSize ∧ splitSize ≤ seg.length :=
  (monitorOk_iff.1 h).splitLock hmon hi

/-- Half of what remains of a segment, as long as its counter has not passed
its length. -/
theorem NoOvershoot.half {seg : Segment} (h : NoOvershoot seg)
    (hdown : 0 ≤ seg.downloaded) :
    0 ≤ (seg.length - seg.downloaded).tdiv 2 ∧
      (seg.length - seg.downloaded).tdiv 2 ≤ seg.length := by
  have hle := h.1
  have htdiv : (seg.length - seg.downloaded).tdiv 2 =
      (seg.length - seg.downloaded) / 2 :=
    Int.tdiv_eq_ediv_of_nonneg (by omega)
  omega

/-! ## The invariant -/

theorem coverInv_init (cfg : Config) : CoverInv cfg (init cfg) where
  tiles := by
    have h := tiles_singleton cfg.totalSize_nonneg
    simpa [init, Segment.interval] using h
  monitor := trivial
  toRead := by
    intro seg hseg v toRead htask
    rw [init, List.mem_singleton] at hseg
    subst hseg
    cases htask
  offset_nonneg := by
    intro seg hseg
    rw [init, List.mem_singleton] at hseg
    subst hseg
    exact Int.le_refl 0
  inside := by
    rintro p ⟨seg, hseg, hlo, hhi⟩
    rw [init, List.mem_singleton] at hseg
    subst hseg
    dsimp only at hlo hhi
    omega

/-- A state with the same table. -/
theorem CoverInv.same {cfg : Config} {s s' : State} (h : CoverInv cfg s)
    (hseg : s'.segments = s.segments) (hmon : MonitorOk s') :
    CoverInv cfg s' where
  tiles := hseg ▸ h.tiles
  monitor := hmon
  toRead := hseg ▸ h.toRead
  offset_nonneg := hseg ▸ h.offset_nonneg
  inside := hseg ▸ h.inside

/-- A row is replaced by one with the same place. -/
theorem CoverInv.set {cfg : Config} {s s' : State} (h : CoverInv cfg s)
    {i : Nat} {seg new : Segment} (hi : s.segments[i]? = some seg)
    (hseg : s'.segments = s.segments.set i new)
    (hoff : new.offset = seg.offset) (hlen : new.length = seg.length)
    (hmon : MonitorOk s')
    (hread : ∀ v toRead, new.task = .reading v toRead →
      0 ≤ toRead ∧ toRead ≤ cfg.bufferSize)
    (hinside : ∀ p, DownloadedAt s'.segments p → 0 ≤ p ∧ p < cfg.totalSize) :
    CoverInv cfg s' where
  tiles := by
    have hplace : new.interval = seg.interval := by
      rw [Segment.interval, Segment.interval, hoff, hlen]
    rw [hseg, Table.map_set_of_eq hi hplace]
    exact h.tiles
  monitor := hmon
  toRead := hseg ▸ Table.forall_mem_set h.toRead hread
  offset_nonneg := by
    have hnonneg := h.offset_nonneg seg (Table.mem_of_getElem? hi)
    rw [hseg]
    exact Table.forall_mem_set h.offset_nonneg (hoff ▸ hnonneg)
  inside := hinside

/-- A cut inside the segment keeps the tiling. -/
theorem CoverInv.cut {cfg : Config} {s s' : State} (h : CoverInv cfg s)
    {i : Nat} {seg : Segment} {newLength : Int}
    (hi : s.segments[i]? = some seg) (hlo : 0 ≤ newLength)
    (hhi : newLength ≤ seg.length)
    (hseg : s'.segments = cutTable s.segments i seg newLength)
    (hmon : s'.monitor.splits = false) : CoverInv cfg s' := by
  have hmem := Table.mem_of_getElem? hi
  have hoff := h.offset_nonneg seg hmem
  refine ⟨?_, monitorOk_of_not_splits hmon, ?_, ?_, ?_⟩
  · have hrow : (s.segments.map Segment.interval)[i]? =
        some (seg.offset, seg.offset + seg.length) := by
      rw [List.getElem?_map, hi]
      rfl
    have hcut := h.tiles.set_append hrow
      (show seg.offset ≤ seg.offset + newLength by omega) (by omega)
    have hend : seg.offset + newLength + (seg.length - newLength) =
        seg.offset + seg.length := by omega
    rw [hseg, cutTable, List.map_append, List.map_set]
    simpa [Segment.interval, Segment.fresh, hend] using hcut
  · rw [hseg]
    refine forall_mem_cutTable h.toRead (h.toRead seg hmem) ?_
    intro v toRead htask
    cases htask
  · rw [hseg]
    exact forall_mem_cutTable h.offset_nonneg hoff
      (Int.add_nonneg hoff hlo)
  · intro p hp
    rw [hseg, downloadedAt_cutTable hi] at hp
    exact h.inside p hp

/-- Every change keeps the tiling, when a buffer is not larger than what the
monitor leaves in a segment that it splits. -/
theorem CoverInv.change {cfg : Config} {s s' : State}
    (hbuf : cfg.bufferSize ≤ 2 * 1024 * 1024) (h : CoverInv cfg s)
    (hdata : DataInv cfg s) (hc : Change cfg s s') : CoverInv cfg s' := by
  cases hc with
  | idle hseg _ _ hmon => exact h.same hseg (h.monitor.same hseg hmon)
  | pick i hbest hseg _ _ hmon =>
    refine h.same hseg ?_
    obtain ⟨seg, hi, hroom⟩ := bestSegmentToSplit_eq_some hbest
    have hread := h.toRead seg (Table.mem_of_getElem? hi)
    unfold MonitorOk
    rw [hmon, hseg]
    refine ⟨seg, hi, by omega, fun v toRead htask => ?_⟩
    have := (hread v toRead htask).2
    omega
  | stale i seg hold hi hseg _ _ hmon =>
    refine h.same hseg ?_
    have hdown := (hdata.segment seg (Table.mem_of_getElem? hi)).downloaded_nonneg
    unfold MonitorOk
    rw [hmon, hseg]
    exact ⟨seg, hi, (h.monitor.noOvershoot hold hi).half hdown⟩
  | control i seg task registered hi hmove hseg _ _ hmon =>
    refine h.set hi hseg rfl rfl ?_ ?_ ?_
    · exact h.monitor.set hi hseg hmon rfl (fun hover => hover.move hmove)
    · intro v toRead htask
      dsimp only at htask
      subst htask
      rcases hmove.reading with hold | ⟨hmin, hlt⟩
      · exact h.toRead seg (Table.mem_of_getElem? hi) v toRead hold
      · have := cfg.bufferSize_pos
        omega
    · intro p hp
      rw [hseg, downloadedAt_set hi (by rfl) (by rfl)] at hp
      exact h.inside p hp
  | commit i seg v toRead read hi htask hpos hmax hseg _ _ hmon =>
    have hmem := Table.mem_of_getElem? hi
    have hread := h.toRead seg hmem v toRead htask
    have hok := hdata.segment seg hmem
    refine h.set hi hseg rfl rfl ?_ ?_ ?_
    · exact h.monitor.set hi hseg (Or.inl hmon) rfl
        (fun hover => hover.commit htask hread.1 hmax)
    · intro w n hw
      cases hw
    · intro p hp
      rw [hseg, downloadedAt_commit hi hok.downloaded_nonneg hpos] at hp
      rcases hp with hp | ⟨hlo, hhi⟩
      · exact h.inside p hp
      · -- the connection ends with the resource
        obtain ⟨hfile, hcount⟩ := hok.stream v (by rw [htask]; rfl)
        have hend : read ≤ cfg.totalSize - (v.filePos + v.pos) :=
          hmax.trans (min_le_right _ _)
        have hoff := h.offset_nonneg seg hmem
        have hdown := hok.downloaded_nonneg
        exact ⟨by omega, by omega⟩
  | create i seg offset hi hinc hlo hhi hseg _ _ hmon =>
    have hdown := (hdata.segment seg (Table.mem_of_getElem? hi)).downloaded_nonneg
    exact h.cut hi (by omega) (by omega) hseg hmon
  | split i seg splitSize hold hi hseg _ _ hmon =>
    obtain ⟨hlo, hhi⟩ := h.monitor.splitSize hold hi
    exact h.cut hi (by omega) (by omega) hseg hmon

theorem coverInv_of_reachable {cfg : Config}
    (hbuf : cfg.bufferSize ≤ 2 * 1024 * 1024) {s : State}
    (h : (system cfg).Reachable s) : CoverInv cfg s ∧ DataInv cfg s := by
  refine System.Reachable.invariant
    (fun s => CoverInv cfg s ∧ DataInv cfg s) ?_ ?_ h
  · intro s hs
    exact hs ▸ ⟨coverInv_init cfg, dataInv_init cfg⟩
  · intro s l s' hinv hstep
    have hc := step_change hstep
    exact ⟨hinv.1.change hbuf hinv.2 hc, hinv.2.change hc⟩

/-- A table that tiles the resource and whose segments are all completed
counts every position as downloaded. -/
theorem CoverInv.downloadedAt_of_completed {cfg : Config} {s : State}
    (h : CoverInv cfg s) (hall : ∀ seg ∈ s.segments, seg.isCompleted = true)
    {p : Int} (hlo : 0 ≤ p) (hhi : p < cfg.totalSize) :
    DownloadedAt s.segments p := by
  obtain ⟨iv, hiv, hp⟩ := (h.tiles.cover p).2 ⟨hlo, hhi⟩
  obtain ⟨seg, hmem, rfl⟩ := List.mem_map.1 hiv
  have hdone : seg.length ≤ seg.downloaded := by
    simpa [Segment.isCompleted] using hall seg hmem
  have hin : seg.offset ≤ p ∧ p < seg.offset + seg.length := hp
  exact ⟨seg, hmem, hin.1, by omega⟩

/-- In every reachable state the segments tile the resource, the bytes that a
segment counts as downloaded lie in the resource and are in the backing
buffer, and once all segments are completed the buffer is the resource. -/
theorem segments_tile {cfg : Config} (hbuf : cfg.bufferSize ≤ 2 * 1024 * 1024)
    {s : State} (h : (system cfg).Reachable s) :
    Tiles (s.segments.map Segment.interval) 0 cfg.totalSize ∧
      (∀ seg ∈ s.segments, ∀ p, seg.offset ≤ p →
        p < seg.offset + seg.downloaded →
        (0 ≤ p ∧ p < cfg.totalSize) ∧ s.written p = true ∧
          s.buffer p = cfg.origin p) ∧
      ((∀ seg ∈ s.segments, seg.isCompleted = true) →
        ∀ p, 0 ≤ p → p < cfg.totalSize → s.buffer p = cfg.origin p) := by
  obtain ⟨hcover, hdata⟩ := coverInv_of_reachable hbuf h
  refine ⟨hcover.tiles, ?_, ?_⟩
  · intro seg hmem p hlo hhi
    have hdown : DownloadedAt s.segments p := ⟨seg, hmem, hlo, hhi⟩
    have hwritten := (hdata.written_iff p).2 hdown
    exact ⟨hcover.inside p hdown, hwritten, hdata.content p hwritten⟩
  · intro hall p hlo hhi
    exact hdata.content p ((hdata.written_iff p).2
      (hcover.downloadedAt_of_completed hall hlo hhi))

/-- The monitor splits a resource of 2 MiB, and each half is downloaded in one chunk. -/
def halvesRun : List Label :=
  List.flatten [List.replicate 7 .monitor, startReading 0, startReading 1,
    [.chunk 0 (1024 * 1024), .chunk 1 (1024 * 1024)]]

/-- The state that `halvesRun` ends in. -/
def halvesEnd : State :=
  ((system (sevens (2 * 1024 * 1024))).run (init (sevens (2 * 1024 * 1024)))
    halvesRun).get (by decide +kernel)

theorem segments_tile_halvesEnd :
    halvesEnd.segments.length = 2 ∧
      Tiles (halvesEnd.segments.map Segment.interval) 0 (2 * 1024 * 1024) ∧
      ∀ p, 0 ≤ p → p < 2 * 1024 * 1024 → halvesEnd.buffer p = 7 := by
  have hreach : (system (sevens (2 * 1024 * 1024))).Reachable halvesEnd :=
    System.reachable_of_run (.init rfl) (Option.some_get _).symm
  have h := segments_tile (by decide) hreach
  exact ⟨by decide +kernel, h.1, h.2.2 (by decide +kernel)⟩

end DirectPackageInstaller.SegmentedStream
