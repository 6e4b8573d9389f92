import DirectPackageInstaller.Streams.SegmentedStream.ReadAt
import Mathlib.Data.Int.Interval

/-!
# Progress accounting

`TotalProgress` is the sum of the counters of all segments.  The monitor, the
readers and `Finished` take it for the number of bytes that are in the backing
buffer.

It is that number as long as no two tasks write the same byte.  A chunk whose
size was computed before its segment was cut runs into the range of the new
segment, and when that segment downloads its range, the overlap is counted
twice.

* `ProgressInv` holds in every reachable state: the sum counts at least the
  distinct bytes written, and the monitor stops only when it is cancelled or
  the sum has reached the total size.
* `accounting_iff`: a run keeps the accounts exact precisely when each of its
  chunks stays out of what other segments have downloaded.
* `finished_unwritten_byte`: a run without a failure and without `Cancel`
  after which `Finished` is true and a byte is missing.
-/

namespace DirectPackageInstaller.SegmentedStream

open Memory Transition

/-- `Finished => TotalProgress >= TotalSize && !InProgress`. -/
def finished (cfg : Config) (segments : List Segment) : Bool :=
  decide (totalProgress segments ≥ cfg.totalSize) && !inProgress segments

/-- The whole content is in the backing buffer. -/
def WholeWritten (cfg : Config) (s : State) : Prop :=
  ∀ p, 0 ≤ p → p < cfg.totalSize → s.written p = true

/-- Exact accounts: the sum of the counters is the number of distinct
positions written, and what the program concludes from it is true. -/
structure Accounted (cfg : Config) (s : State) : Prop where
  progress_eq : totalProgress s.segments = (marked s.written).ncard
  progress_le : totalProgress s.segments ≤ cfg.totalSize
  finished : finished cfg s.segments = true → WholeWritten cfg s
  stopped : s.monitor = .stopped → s.cancelled = true ∨ WholeWritten cfg s

/-! ## The cut point of the monitor -/

/-- Where the monitor picks a segment its length is positive, and the size
that it reads afterwards is at most half of the length. -/
def SplitPlaced : State → Prop :=
  MonitorHolds (fun seg => 0 < seg.length)
    (fun splitSize seg => 0 < seg.length ∧ 2 * splitSize ≤ seg.length)

/-- Half of what remains is at most half of the length. -/
theorem two_mul_half_remaining_le {length downloaded : Int} (hlen : 0 < length)
    (hdown : 0 ≤ downloaded) : 2 * (length - downloaded).tdiv 2 ≤ length := by
  by_cases hrem : 0 ≤ length - downloaded
  · rw [Int.tdiv_eq_ediv_of_nonneg hrem]
    omega
  · have hneg : (length - downloaded).tdiv 2 ≤ Int.tdiv 0 2 :=
      Int.tdiv_le_tdiv (by omega) (by omega)
    rw [Int.zero_tdiv] at hneg
    omega

theorem SplitPlaced.change {cfg : Config} {s s' : State} (h : SplitPlaced s)
    (hdata : DataInv cfg s) (hc : Change cfg s s') : SplitPlaced s' := by
  cases hc with
  | idle hseg _ _ hmon => exact h.same hseg hmon
  | pick i hbest hseg _ _ hmon =>
    obtain ⟨seg, hi, hroom⟩ := bestSegmentToSplit_eq_some hbest
    have hdown := (hdata.segment seg (Table.mem_of_getElem? hi)).downloaded_nonneg
    unfold SplitPlaced MonitorHolds
    rw [hmon, hseg]
    exact ⟨seg, hi, by omega⟩
  | stale i seg hold hi hseg _ _ hmon =>
    have hdown := (hdata.segment seg (Table.mem_of_getElem? hi)).downloaded_nonneg
    have hlen : 0 < seg.length := h.readRemaining hold hi
    unfold SplitPlaced MonitorHolds
    rw [hmon, hseg]
    exact ⟨seg, hi, hlen, two_mul_half_remaining_le hlen hdown⟩
  | control i seg task registered hi hmove hseg _ _ hmon =>
    exact h.set hi hseg hmon id (fun _ => id)
  | commit i seg v toRead read hi htask hpos hmax hseg _ _ hmon =>
    exact h.set hi hseg (Or.inl hmon) id (fun _ => id)
  | create i seg offset hi hinc hlo hhi hseg _ _ hmon =>
    exact monitorHolds_of_not_splits hmon
  | split i seg splitSize hold hi hseg _ _ hmon =>
    exact monitorHolds_of_not_splits hmon

/-! ## The invariant -/

/-- What holds of the accounts in every reachable state. -/
structure ProgressInv (cfg : Config) (s : State) : Prop where
  data : DataInv cfg s
  placed : SplitPlaced s
  offset_nonneg : ∀ seg ∈ s.segments, 0 ≤ seg.offset
  inside : ∀ p, s.written p = true → 0 ≤ p ∧ p < cfg.totalSize
  counted : ((marked s.written).ncard : Int) ≤ totalProgress s.segments
  stopped : s.monitor = .stopped →
    s.cancelled = true ∨ cfg.totalSize ≤ totalProgress s.segments

theorem progressInv_init (cfg : Config) : ProgressInv cfg (init cfg) where
  data := dataInv_init cfg
  placed := trivial
  offset_nonneg := by
    intro seg hseg
    rw [init, List.mem_singleton] at hseg
    subst hseg
    exact Int.le_refl 0
  inside := fun p hp => by cases hp
  counted := by
    simp [init, totalProgress]
  stopped := fun h => by cases h

/-- Cutting keeps the offsets nonnegative when the cut point is not before the
segment. -/
theorem offset_nonneg_cutTable {segments : List Segment} {i : Nat}
    {seg : Segment} {newLength : Int} (hi : segments[i]? = some seg)
    (h : ∀ x ∈ segments, 0 ≤ x.offset) (hlen : 0 ≤ newLength) :
    ∀ x ∈ cutTable segments i seg newLength, 0 ≤ x.offset := by
  have hoff := h seg (Table.mem_of_getElem? hi)
  exact forall_mem_cutTable h hoff (Int.add_nonneg hoff hlen)

theorem ProgressInv.offset_change {cfg : Config} {s s' : State}
    (h : ProgressInv cfg s) (hc : Change cfg s s') :
    ∀ seg ∈ s'.segments, 0 ≤ seg.offset := by
  cases hc with
  | idle hseg | pick i hbest hseg | stale i seg hold hi hseg =>
    rw [hseg]
    exact h.offset_nonneg
  | control i seg task registered hi hmove hseg =>
    rw [hseg]
    exact Table.forall_mem_set h.offset_nonneg
      (h.offset_nonneg seg (Table.mem_of_getElem? hi))
  | commit i seg v toRead read hi htask hpos hmax hseg =>
    rw [hseg]
    exact Table.forall_mem_set h.offset_nonneg
      (h.offset_nonneg seg (Table.mem_of_getElem? hi))
  | create i seg offset hi hinc hlo hhi hseg =>
    have hdown :=
      (h.data.segment seg (Table.mem_of_getElem? hi)).downloaded_nonneg
    rw [hseg]
    exact offset_nonneg_cutTable hi h.offset_nonneg (by omega)
  | split i seg splitSize hold hi hseg =>
    have hplaced := h.placed.splitLock hold hi
    rw [hseg]
    exact offset_nonneg_cutTable hi h.offset_nonneg (by omega)

theorem ProgressInv.finite {cfg : Config} {s : State} (h : ProgressInv cfg s) :
    (marked s.written).Finite :=
  (Set.finite_Ico (0 : Int) cfg.totalSize).subset fun p hp => h.inside p hp

/-- A chunk ends inside the resource. -/
theorem ProgressInv.chunk_inside {cfg : Config} {s : State}
    (h : ProgressInv cfg s) {seg : Segment} (hmem : seg ∈ s.segments)
    {v : VirtualStream} {toRead read : Int} (htask : seg.task = .reading v toRead)
    (hmax : read ≤ maxChunk cfg v toRead) :
    0 ≤ seg.offset + seg.downloaded ∧
      seg.offset + seg.downloaded + read ≤ cfg.totalSize := by
  have hok := h.data.segment seg hmem
  obtain ⟨hfile, hcount⟩ := hok.stream v (by rw [htask]; rfl)
  have hend : read ≤ cfg.totalSize - (v.filePos + v.pos) :=
    hmax.trans (min_le_right _ _)
  have hoff := h.offset_nonneg seg hmem
  have hdown := hok.downloaded_nonneg
  exact ⟨by omega, by omega⟩

theorem ncard_Ico_chunk (lo : Int) {read : Int} (h : 0 ≤ read) :
    ((Set.Ico lo (lo + read)).ncard : Int) = read := by
  rw [Set.ncard_eq_toFinset_card', Set.toFinset_Ico, Int.card_Ico]
  omega

/-- Every step keeps the invariant. -/
theorem ProgressInv.step {cfg : Config} {s s' : State} {l : Label}
    (h : ProgressInv cfg s) (hs : step cfg s l = some s') :
    ProgressInv cfg s' := by
  have hc := step_change hs
  have hframe := step_frame hs
  have hdata := h.data.change hc
  -- the written bytes and their number, before and after
  have hcount : (∀ p, s'.written p = true → 0 ≤ p ∧ p < cfg.totalSize) ∧
      ((marked s'.written).ncard : Int) ≤ totalProgress s'.segments := by
    by_cases hl : ∃ i read, l = .chunk i read
    · obtain ⟨i, read, rfl⟩ := hl
      obtain ⟨seg, v, toRead, hi, htask, hpos, hmax, hseg, -, hwr, -⟩ :=
        chunkStep_eq_some hs
      have hin := h.chunk_inside (Table.mem_of_getElem? hi) htask hmax
      have hsum := totalProgress_set hi { seg with
        downloaded := seg.downloaded + read
        task := .innerLoop (v.advance read) }
      rw [← hseg] at hsum
      dsimp only at hsum
      refine ⟨?_, ?_⟩
      · intro p hp
        rw [hwr] at hp
        by_cases hchunk : seg.offset + seg.downloaded ≤ p ∧
            p < seg.offset + seg.downloaded + read
        · exact ⟨by omega, by omega⟩
        · rw [overlay_outside hchunk] at hp
          exact h.inside p hp
      · have hle := ncard_marked_overlay_le (m := s.written)
          (seg.offset + seg.downloaded) (seg.offset + seg.downloaded + read)
        have hsize := ncard_Ico_chunk (seg.offset + seg.downloaded) hpos
        have hold := h.counted
        rw [hwr]
        omega
    · have hl' : ∀ i read, l ≠ .chunk i read :=
        fun i read he => hl ⟨i, read, he⟩
      rw [hframe.written hl', hframe.progress hl']
      exact ⟨h.inside, h.counted⟩
  have hle := totalProgress_le_of_step hs
  refine ⟨hdata, h.placed.change h.data hc, h.offset_change hc, hcount.1,
    hcount.2, fun hstop => ?_⟩
  rcases hframe.stopped hstop with hold | hcan | hsum
  · rcases h.stopped hold with hcan | hsum
    · exact Or.inl (hframe.cancelled hcan)
    · exact Or.inr (hsum.trans hle)
  · exact Or.inl hcan
  · exact Or.inr (hsum.trans hle)

/-! ## Exact accounts -/

/-- The condition on a chunk: none of the positions that it is about to write
has been downloaded by another segment. -/
def ChunkApart (s : State) : Label → Prop
  | .chunk i read => ∀ seg, s.segments[i]? = some seg →
      ∀ (j : Nat) (other : Segment), j ≠ i → s.segments[j]? = some other →
        ∀ p, seg.offset + seg.downloaded ≤ p →
          p < seg.offset + seg.downloaded + read →
          ¬(other.offset ≤ p ∧ p < other.offset + other.downloaded)
  | _ => True

/-- Past the counter of its segment, a position is written exactly when
another segment has downloaded it. -/
theorem DataInv.written_past_counter {cfg : Config} {s : State}
    (h : DataInv cfg s) {i : Nat} {seg : Segment}
    (hi : s.segments[i]? = some seg) {p : Int}
    (hp : seg.offset + seg.downloaded ≤ p) :
    s.written p = true ↔ ∃ j other, j ≠ i ∧ s.segments[j]? = some other ∧
      other.offset ≤ p ∧ p < other.offset + other.downloaded := by
  rw [h.written_iff]
  constructor
  · rintro ⟨other, hmem, hlo, hhi⟩
    obtain ⟨j, hj⟩ := List.mem_iff_getElem?.1 hmem
    refine ⟨j, other, ?_, hj, hlo, hhi⟩
    rintro rfl
    rw [hi, Option.some.injEq] at hj
    subst hj
    omega
  · rintro ⟨j, other, -, hj, hlo, hhi⟩
    exact ⟨other, Table.mem_of_getElem? hj, hlo, hhi⟩

/-- One step keeps the sum equal to the number of written positions exactly
when its chunk stays apart. -/
theorem step_progress_eq_iff {cfg : Config} {s s' : State} {l : Label}
    (h : ProgressInv cfg s) (hs : step cfg s l = some s') :
    totalProgress s'.segments = (marked s'.written).ncard ↔
      totalProgress s.segments = (marked s.written).ncard ∧ ChunkApart s l := by
  by_cases hl : ∃ i read, l = .chunk i read
  · obtain ⟨i, read, rfl⟩ := hl
    obtain ⟨seg, v, toRead, hi, htask, hpos, hmax, hseg, -, hwr, -⟩ :=
      chunkStep_eq_some hs
    have hsum := totalProgress_set hi { seg with
      downloaded := seg.downloaded + read
      task := .innerLoop (v.advance read) }
    rw [← hseg] at hsum
    dsimp only at hsum
    have hle := ncard_marked_overlay_le (m := s.written)
      (seg.offset + seg.downloaded) (seg.offset + seg.downloaded + read)
    have hsize := ncard_Ico_chunk (seg.offset + seg.downloaded) hpos
    have hold := h.counted
    have hfresh := ncard_marked_overlay_eq_iff h.finite
      (seg.offset + seg.downloaded) (seg.offset + seg.downloaded + read)
    have hapart : (∀ p, seg.offset + seg.downloaded ≤ p →
        p < seg.offset + seg.downloaded + read → s.written p = false) ↔
          ChunkApart s (.chunk i read) := by
      constructor
      · intro hnone seg' hi' j other hji hj p hlo hhi hin
        rw [hi, Option.some.injEq] at hi'
        subst hi'
        have hwritten := (h.data.written_past_counter hi hlo).2
          ⟨j, other, hji, hj, hin⟩
        rw [hnone p hlo hhi] at hwritten
        cases hwritten
      · intro hap p hlo hhi
        by_contra hne
        rw [Bool.not_eq_false] at hne
        obtain ⟨j, other, hji, hj, hin⟩ :=
          (h.data.written_past_counter hi hlo).1 hne
        exact hap seg hi j other hji hj p hlo hhi hin
    rw [hwr, ← hapart, ← hfresh]
    constructor
    · intro heq
      exact ⟨by omega, by omega⟩
    · rintro ⟨heq, hcard⟩
      omega
  · have hl' : ∀ i read, l ≠ .chunk i read := fun i read he => hl ⟨i, read, he⟩
    have hframe := step_frame hs
    have hcond : ChunkApart s l := by
      cases l with
      | chunk i read => exact absurd rfl (hl' i read)
      | _ => trivial
    rw [hframe.written hl', hframe.progress hl', and_iff_left hcond]

/-- A sum that counts the written positions has reached the total size only when
the whole content is written. -/
theorem ProgressInv.wholeWritten_of_le {cfg : Config} {s : State} (h : ProgressInv cfg s)
    (heq : totalProgress s.segments = (marked s.written).ncard)
    (hsum : cfg.totalSize ≤ totalProgress s.segments) : WholeWritten cfg s := by
  have hsub : marked s.written ⊆ Set.Ico 0 cfg.totalSize :=
    fun p hp => h.inside p hp
  have hsize : ((Set.Ico 0 cfg.totalSize).ncard : Int) = cfg.totalSize := by
    simpa using ncard_Ico_chunk 0 cfg.totalSize_nonneg
  intro p hlo hhi
  have hall := Set.eq_of_subset_of_ncard_le hsub (by omega) (Set.finite_Ico _ _)
  have hp : p ∈ marked s.written := by
    rw [hall]
    exact ⟨hlo, hhi⟩
  exact hp

/-- Exact accounts are the equation: what the program concludes from the sum
follows. -/
theorem ProgressInv.accounted_iff {cfg : Config} {s : State}
    (h : ProgressInv cfg s) :
    Accounted cfg s ↔
      totalProgress s.segments = (marked s.written).ncard := by
  have hsub : marked s.written ⊆ Set.Ico 0 cfg.totalSize :=
    fun p hp => h.inside p hp
  have hsize : ((Set.Ico 0 cfg.totalSize).ncard : Int) = cfg.totalSize := by
    simpa using ncard_Ico_chunk 0 cfg.totalSize_nonneg
  have hcard := Set.ncard_le_ncard hsub (Set.finite_Ico _ _)
  refine ⟨Accounted.progress_eq, fun heq => ?_⟩
  have hwhole : cfg.totalSize ≤ totalProgress s.segments → WholeWritten cfg s :=
    h.wholeWritten_of_le heq
  refine ⟨heq, by omega, fun hfin => ?_, fun hstop => ?_⟩
  · unfold SegmentedStream.finished at hfin
    rw [Bool.and_eq_true, decide_eq_true_eq] at hfin
    exact hwhole hfin.1
  · exact (h.stopped hstop).imp_right hwhole

/-- The runs with exact accounts are exactly the runs in which every chunk
stays out of what the other segments have downloaded. -/
theorem accounting_iff (cfg : Config) (ls : List Label) (s : State)
    (hrun : (system cfg).run (init cfg) ls = some s) :
    Accounted cfg s ↔ (system cfg).StepsMeet ChunkApart (init cfg) ls := by
  have hinv := System.invariant_of_run (ProgressInv cfg)
    (fun s l s' h hs => h.step hs) (progressInv_init cfg) hrun
  have hexact := System.exact_of_step (ProgressInv cfg)
    (fun s => totalProgress s.segments = (marked s.written).ncard) ChunkApart
    (fun s l s' h hs => h.step hs)
    (fun s l s' h hs => step_progress_eq_iff h hs)
    (progressInv_init cfg) hrun
  have hinit : totalProgress (init cfg).segments =
      (marked (init cfg).written).ncard := by
    simp [totalProgress, init]
  rw [hinv.accounted_iff, hexact, and_iff_right hinit]

/-- The accounts of `plainRun`, which downloads three bytes. -/
theorem accounting_plainRun :
    totalProgress plainEnd.segments = 3 ∧ (Accounted (sevens 3) plainEnd ↔
      (system (sevens 3)).StepsMeet ChunkApart (init (sevens 3)) plainRun) :=
  ⟨by decide +kernel, accounting_iff (sevens 3) plainRun plainEnd
    (Option.some_get _).symm⟩

/-- After `overshootRun` the download is `Finished`, and the byte in the
middle of the resource has not been written. -/
theorem finished_unwritten_byte :
    ¬∀ (cfg : Config) (s : State), (system cfg).Reachable s →
      Accounted cfg s := by
  intro h
  have hrun : ((system (sevens (4 * 1024 * 1024 - 2))).run
      (init (sevens (4 * 1024 * 1024 - 2))) overshootRun).map
        (fun s => (finished (sevens (4 * 1024 * 1024 - 2)) s.segments,
          s.written (2 * 1024 * 1024))) = some (true, false) := by
    decide +kernel
  obtain ⟨s, hs, hend⟩ := Option.map_eq_some_iff.1 hrun
  rw [Prod.mk.injEq] at hend
  have hacc := h _ s (System.reachable_of_run (.init rfl) hs)
  have hwritten := hacc.finished hend.1 (2 * 1024 * 1024) (by decide) (by decide)
  rw [hend.2] at hwritten
  cases hwritten

end DirectPackageInstaller.SegmentedStream
