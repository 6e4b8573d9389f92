import DirectPackageInstaller.Lib.Table
import DirectPackageInstaller.Streams.SegmentedStream.Steps

/-!
# The backing buffer holds origin bytes

`DataInv` is the invariant of the data path.  The bytes that have been
written are exactly the ones that some segment counts as downloaded, and each
of them is the origin's byte.  It needs no assumption on the buffer size, the
split threshold or the order of the threads: a chunk is written where the
counter of its own segment stands, whatever happens to the length of the
segment meanwhile.
-/

namespace DirectPackageInstaller.SegmentedStream

open Memory Transition

/-- Some segment counts position `p` as downloaded. -/
def DownloadedAt (segments : List Segment) (p : Int) : Prop :=
  ∃ seg ∈ segments, seg.offset ≤ p ∧ p < seg.offset + seg.downloaded

/-- The window that a task reads from, while it has one. -/
def DownloadTask.stream : DownloadTask → Option VirtualStream
  | .innerLoop vStream | .innerTest vStream | .reading vStream _ => some vStream
  | _ => none

/-- The window of a task starts at its segment and stands at its counter. -/
structure SegmentOk (seg : Segment) : Prop where
  downloaded_nonneg : 0 ≤ seg.downloaded
  stream : ∀ v, seg.task.stream = some v →
    v.filePos = seg.offset ∧ v.pos = seg.downloaded

structure DataInv (cfg : Config) (s : State) : Prop where
  segment : ∀ seg ∈ s.segments, SegmentOk seg
  written_iff : ∀ p, s.written p = true ↔ DownloadedAt s.segments p
  content : ∀ p, s.written p = true → s.buffer p = cfg.origin p

/-! ## One segment -/

theorem segmentOk_fresh (offset length : Int) :
    SegmentOk (.fresh offset length) where
  downloaded_nonneg := Int.le_refl 0
  stream := fun v hv => by cases hv

/-- A move of the task keeps its window at the counter of the segment. -/
theorem SegmentOk.move {cfg : Config} {cancelled registered : Bool}
    {seg : Segment} {task : DownloadTask} (h : SegmentOk seg)
    (hmove : TaskMove cfg cancelled seg task) :
    SegmentOk { seg with task, registered } := by
  refine ⟨h.downloaded_nonneg, fun v hv => ?_⟩
  dsimp only at hv ⊢
  rcases hmove with rfl | rfl | hnext
  · cases hv
  · exact h.stream v hv
  · have hstream := h.stream
    cases htask : seg.task with
    | created => rw [htask] at hnext; cases hnext
    | completed => rw [htask] at hnext; cases hnext
    | reading w toRead => rw [htask] at hnext; cases hnext
    | outerLoop =>
      rw [htask] at hnext
      simp only [DownloadTask.next, Option.some.injEq] at hnext
      subst hnext
      split at hv <;> cases hv
    | outerTest =>
      rw [htask] at hnext
      simp only [DownloadTask.next, Option.some.injEq] at hnext
      subst hnext
      split at hv <;> cases hv
    | connecting =>
      rw [htask] at hnext
      simp only [DownloadTask.next] at hnext
      split at hnext
      · cases hnext
        cases hv
      · rename_i w hw
        obtain ⟨-, -, rfl⟩ := VirtualStream.setPosition_eq_some hw
        cases hnext
        cases hv
        exact ⟨rfl, rfl⟩
    | innerLoop w =>
      rw [htask] at hnext hstream
      simp only [DownloadTask.next, Option.some.injEq] at hnext
      subst hnext
      split at hv
      · cases hv
      · cases hv
        exact hstream _ rfl
    | innerTest w =>
      rw [htask] at hnext hstream
      simp only [DownloadTask.next] at hnext
      split at hnext
      · cases hnext
        cases hv
      · rename_i w' hw
        obtain ⟨-, rfl⟩ := VirtualStream.setLength_eq_some hw
        split at hnext
        · cases hnext
          cases hv
        · cases hnext
          cases hv
          exact hstream w rfl

/-- A committed chunk moves the window and the counter together. -/
theorem SegmentOk.commit {seg : Segment} {v : VirtualStream} {toRead read : Int}
    (h : SegmentOk seg) (htask : seg.task = .reading v toRead)
    (hread : 0 ≤ read) :
    SegmentOk { seg with
      downloaded := seg.downloaded + read
      task := .innerLoop (v.advance read) } := by
  obtain ⟨hpos, hcount⟩ := h.stream v (by rw [htask]; rfl)
  refine ⟨Int.add_nonneg h.downloaded_nonneg hread, fun w hw => ?_⟩
  cases hw
  exact ⟨hpos, by rw [VirtualStream.advance_pos, hcount]⟩

/-! ## The table -/

/-- A row with the same offset and counter does not change which positions
count as downloaded. -/
theorem downloadedAt_set {segments : List Segment} {i : Nat}
    {seg new : Segment} (hi : segments[i]? = some seg)
    (hoff : new.offset = seg.offset) (hdown : new.downloaded = seg.downloaded)
    (p : Int) : DownloadedAt (segments.set i new) p ↔ DownloadedAt segments p :=
  Table.exists_mem_set_congr hi (by rw [hoff, hdown])

/-- A cut does not change which positions count as downloaded: the first part
keeps its counter and the second part starts at zero. -/
theorem downloadedAt_cutTable {segments : List Segment} {i : Nat}
    {seg : Segment} (hi : segments[i]? = some seg) (newLength p : Int) :
    DownloadedAt (cutTable segments i seg newLength) p ↔
      DownloadedAt segments p := by
  have hset : DownloadedAt (segments.set i { seg with length := newLength }) p ↔
      DownloadedAt segments p := downloadedAt_set hi (by rfl) (by rfl) p
  rw [← hset, cutTable]
  constructor
  · rintro ⟨x, hx, hlo, hhi⟩
    rcases List.mem_append.1 hx with hx | hx
    · exact ⟨x, hx, hlo, hhi⟩
    · rw [List.mem_singleton] at hx
      subst hx
      simp only [Segment.fresh] at hlo hhi
      omega
  · rintro ⟨x, hx, hlo, hhi⟩
    exact ⟨x, List.mem_append_left _ hx, hlo, hhi⟩

/-- The counter of segment `i` grows by the chunk. -/
theorem downloadedAt_commit {segments : List Segment} {i : Nat} {seg : Segment}
    (hi : segments[i]? = some seg) (hseg : 0 ≤ seg.downloaded) {read : Int}
    (hread : 0 ≤ read) (task : DownloadTask) (p : Int) :
    DownloadedAt (segments.set i
        { seg with downloaded := seg.downloaded + read, task }) p ↔
      DownloadedAt segments p ∨ seg.offset + seg.downloaded ≤ p ∧
        p < seg.offset + seg.downloaded + read := by
  unfold DownloadedAt
  rw [Table.exists_mem_set_iff hi, Table.exists_mem_iff hi]
  dsimp only
  constructor
  · rintro (⟨hlo, hhi⟩ | hrest)
    · by_cases hp : p < seg.offset + seg.downloaded
      · exact Or.inl (Or.inl ⟨hlo, hp⟩)
      · exact Or.inr ⟨by omega, by omega⟩
    · exact Or.inl (Or.inr hrest)
  · rintro ((⟨hlo, hhi⟩ | hrest) | ⟨hlo, hhi⟩)
    · exact Or.inl ⟨hlo, by omega⟩
    · exact Or.inr hrest
    · exact Or.inl ⟨by omega, by omega⟩

/-- A property of all rows survives a cut if both parts have it. -/
theorem forall_mem_cutTable {segments : List Segment} {i : Nat} {seg : Segment}
    {newLength : Int} {Q : Segment → Prop} (h : ∀ x ∈ segments, Q x)
    (hcut : Q { seg with length := newLength })
    (hnew : Q (.fresh (seg.offset + newLength) (seg.length - newLength))) :
    ∀ x ∈ cutTable segments i seg newLength, Q x := by
  intro x hx
  rcases List.mem_append.1 hx with hx | hx
  · exact Table.forall_mem_set h hcut x hx
  · rw [List.mem_singleton] at hx
    exact hx ▸ hnew

/-! ## The invariant -/

theorem dataInv_init (cfg : Config) : DataInv cfg (init cfg) where
  segment := by
    intro seg hseg
    rw [init, List.mem_singleton] at hseg
    subst hseg
    exact ⟨Int.le_refl 0, fun v hv => by cases hv⟩
  written_iff := by
    intro p
    simp only [init, DownloadedAt, List.mem_singleton, exists_eq_left]
    constructor
    · intro h
      cases h
    · rintro ⟨hlo, hhi⟩
      omega
  content := by
    intro p h
    cases h

/-- A state with the same counters, buffer and marks. -/
theorem DataInv.of_same {cfg : Config} {s s' : State} (h : DataInv cfg s)
    (hseg : ∀ seg ∈ s'.segments, SegmentOk seg)
    (hdown : ∀ p, DownloadedAt s'.segments p ↔ DownloadedAt s.segments p)
    (hbuf : s'.buffer = s.buffer) (hwr : s'.written = s.written) :
    DataInv cfg s' where
  segment := hseg
  written_iff := fun p => by rw [hwr, h.written_iff, hdown]
  content := fun p hp => by
    rw [hbuf]
    exact h.content p (hwr ▸ hp)

theorem DataInv.cut {cfg : Config} {s s' : State} (h : DataInv cfg s) {i : Nat}
    {seg : Segment} {newLength : Int} (hi : s.segments[i]? = some seg)
    (hseg : s'.segments = cutTable s.segments i seg newLength)
    (hbuf : s'.buffer = s.buffer) (hwr : s'.written = s.written) :
    DataInv cfg s' := by
  have hok := h.segment seg (Table.mem_of_getElem? hi)
  refine h.of_same ?_ ?_ hbuf hwr
  · rw [hseg]
    exact forall_mem_cutTable h.segment
      ⟨hok.downloaded_nonneg, hok.stream⟩ (segmentOk_fresh _ _)
  · intro p
    rw [hseg, downloadedAt_cutTable hi]

/-- Every change keeps the data path right. -/
theorem DataInv.change {cfg : Config} {s s' : State} (h : DataInv cfg s)
    (hc : Change cfg s s') : DataInv cfg s' := by
  cases hc with
  | idle hseg hbuf hwr hmon =>
    exact h.of_same (hseg ▸ h.segment) (fun p => by rw [hseg]) hbuf hwr
  | pick i hbest hseg hbuf hwr hmon =>
    exact h.of_same (hseg ▸ h.segment) (fun p => by rw [hseg]) hbuf hwr
  | stale i seg hold hi hseg hbuf hwr hmon =>
    exact h.of_same (hseg ▸ h.segment) (fun p => by rw [hseg]) hbuf hwr
  | control i seg task registered hi hmove hseg hbuf hwr hmon =>
    have hok := h.segment seg (Table.mem_of_getElem? hi)
    refine h.of_same ?_ ?_ hbuf hwr
    · rw [hseg]
      exact Table.forall_mem_set h.segment (hok.move hmove)
    · intro p
      rw [hseg]
      exact downloadedAt_set hi (by rfl) (by rfl) p
  | commit i seg v toRead read hi htask hpos hmax hseg hbuf hwr hmon =>
    have hok := h.segment seg (Table.mem_of_getElem? hi)
    obtain ⟨hfile, hcount⟩ := hok.stream v (by rw [htask]; rfl)
    refine ⟨?_, ?_, ?_⟩
    · rw [hseg]
      exact Table.forall_mem_set h.segment (hok.commit htask hpos)
    · intro p
      rw [hseg, downloadedAt_commit hi hok.downloaded_nonneg hpos,
        ← h.written_iff, hwr]
      unfold overlay
      split
      · rename_i hin
        simp [hin]
      · rename_i hout
        simp [hout]
    · intro p hp
      have hsrc : ∀ q, cfg.origin (v.filePos + v.pos +
          (q - (seg.offset + seg.downloaded))) = cfg.origin q := by
        intro q
        rw [hfile, hcount]
        congr 1
        omega
      rw [hbuf]
      by_cases hin : seg.offset + seg.downloaded ≤ p ∧
          p < seg.offset + seg.downloaded + read
      · rw [overlay_inside hin.1 hin.2, hsrc]
      · rw [overlay_outside hin]
        rw [hwr, overlay_outside hin] at hp
        exact h.content p hp
  | create i seg offset hi hinc hlo hhi hseg hbuf hwr hmon =>
    exact h.cut hi hseg hbuf hwr
  | split i seg splitSize hold hi hseg hbuf hwr hmon =>
    exact h.cut hi hseg hbuf hwr

/-- In every reachable state the data path is right. -/
theorem dataInv_of_reachable {cfg : Config} {s : State}
    (h : (system cfg).Reachable s) : DataInv cfg s := by
  refine System.Reachable.invariant (DataInv cfg) ?_ ?_ h
  · intro s hs
    exact hs ▸ dataInv_init cfg
  · intro s l s' hinv hstep
    exact hinv.change (step_change hstep)

end DirectPackageInstaller.SegmentedStream
