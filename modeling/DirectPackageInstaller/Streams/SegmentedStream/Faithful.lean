import DirectPackageInstaller.Streams.SegmentedStream.Progress
import Mathlib.Order.Interval.Set.Disjoint

/-!
# Runs that deliver the origin's bytes

A call gets to its final lock section in two ways.  It has found its range
available, and then the range is in the buffer; or it has found `Finished`
true, and then the counters add up to the total size.

The counters are the number of bytes in the buffer as long as no byte has been
counted twice, so the second way is safe in such a state, too.

* `progress_eq_of_apart`: the counters of segments whose downloads do not
  overlap count the bytes in the buffer.
* `ExitsReady` is the invariant: the range of a call on its way out is in the
  buffer.
* `readAt_faithful`: a run delivers origin bytes only, if no call finds the
  total size reached while two segments have downloaded the same byte.
-/

namespace DirectPackageInstaller.SegmentedStream

open Memory Transition

/-! ## Counters without an overlap -/

/-- The positions that a segment has downloaded. -/
def Segment.downloads (seg : Segment) : Set Int :=
  Set.Ico seg.offset (seg.offset + seg.downloaded)

/-- No position has been downloaded by two segments. -/
def DownloadsApart (segments : List Segment) : Prop :=
  segments.Pairwise fun a b => ∀ p ∈ a.downloads, p ∉ b.downloads

theorem downloads_apart_iff {a b : Segment} :
    (a.downloaded ≤ 0 ∨ b.downloaded ≤ 0 ∨ a.offset + a.downloaded ≤ b.offset ∨
        b.offset + b.downloaded ≤ a.offset) ↔ ∀ p ∈ a.downloads, p ∉ b.downloads := by
  constructor
  · intro h p hp hp'
    obtain ⟨hlo, hhi⟩ := hp
    obtain ⟨hlo', hhi'⟩ := hp'
    omega
  · intro h
    -- where both have a byte, the larger one of the offsets is in both
    by_contra hno
    by_cases hle : a.offset ≤ b.offset
    · exact h b.offset ⟨hle, by omega⟩ ⟨Int.le_refl _, by omega⟩
    · exact h a.offset ⟨Int.le_refl _, by omega⟩ ⟨by omega, by omega⟩

instance (segments : List Segment) : Decidable (DownloadsApart segments) :=
  haveI : DecidableRel fun a b : Segment => ∀ p ∈ a.downloads, p ∉ b.downloads :=
    fun _ _ => decidable_of_iff _ downloads_apart_iff
  inferInstanceAs (Decidable (List.Pairwise _ _))

theorem ncard_downloadedAt {segments : List Segment}
    (hdown : ∀ seg ∈ segments, 0 ≤ seg.downloaded) (h : DownloadsApart segments) :
    {p | DownloadedAt segments p}.Finite ∧
      totalProgress segments = ({p | DownloadedAt segments p}.ncard : Int) := by
  induction segments with
  | nil =>
    have hnone : {p | DownloadedAt [] p} = ∅ := by
      ext p
      simp [DownloadedAt]
    rw [hnone]
    exact ⟨Set.finite_empty, by simp [totalProgress]⟩
  | cons seg rest ih =>
    obtain ⟨hfirst, hrest⟩ := List.pairwise_cons.1 h
    obtain ⟨hfinite, hsum⟩ := ih (fun x hx => hdown x (List.mem_cons_of_mem _ hx)) hrest
    have hsplit : {p | DownloadedAt (seg :: rest) p} =
        seg.downloads ∪ {p | DownloadedAt rest p} := by
      ext p
      simp [DownloadedAt, Segment.downloads]
    have hdisjoint : Disjoint seg.downloads {p | DownloadedAt rest p} := by
      rw [Set.disjoint_left]
      rintro p hp ⟨other, hother, hlo, hhi⟩
      exact hfirst other hother p hp ⟨hlo, hhi⟩
    have hsize := ncard_Ico_chunk seg.offset (hdown seg (List.mem_cons_self ..))
    have hfin : seg.downloads.Finite := Set.finite_Ico _ _
    rw [hsplit]
    refine ⟨hfin.union hfinite, ?_⟩
    rw [Set.ncard_union_eq hdisjoint hfin hfinite]
    simp only [totalProgress, List.map_cons, List.sum_cons] at hsum ⊢
    rw [Segment.downloads]
    omega

/-- Without an overlap the counters count the bytes in the buffer. -/
theorem progress_eq_of_apart {cfg : Config} {s : State} (h : DataInv cfg s)
    (hapart : DownloadsApart s.segments) :
    totalProgress s.segments = (marked s.written).ncard := by
  have hmarked : marked s.written = {p | DownloadedAt s.segments p} :=
    Set.ext fun p => h.written_iff p
  rw [hmarked]
  exact (ncard_downloadedAt (fun seg hmem => (h.segment seg hmem).downloaded_nonneg) hapart).2

/-! ## Calls on their way out -/

/-- The range of a call on its way out is in the buffer. -/
def ExitsReady (s : State) : Prop :=
  ∀ r c, s.readers r = some c → c.pc.exits = true →
    ∀ p, c.position ≤ p → p < c.position + c.count → s.written p = true

/-- The call is at the test of `TotalProgress`. -/
def ReaderPc.testsProgress : ReaderPc → Bool
  | .progressTest _ => true
  | _ => false

/-- The condition on a test of `TotalProgress`: when the call finds the total size
reached, no position has been downloaded by two segments. -/
def CountedOnce (cfg : Config) (s : State) : Label → Prop
  | .wait r _ => ∀ c ∈ s.readers r, c.pc.testsProgress = true →
      cfg.totalSize ≤ totalProgress s.segments → DownloadsApart s.segments
  | _ => True

instance (cfg : Config) (s : State) : (l : Label) → Decidable (CountedOnce cfg s l)
  | .wait r _ => inferInstanceAs (Decidable (∀ c ∈ s.readers r, c.pc.testsProgress = true →
      cfg.totalSize ≤ totalProgress s.segments → DownloadsApart s.segments))
  | .task _ | .chunk _ _ | .fail _ | .monitor | .monitorFail | .cancel | .readAt _ _ _
  | .deliver _ _ => .isTrue trivial

/-- What is in the buffer stays there. -/
theorem written_of_step {cfg : Config} {s s' : State} {l : Label}
    (hs : step cfg s l = some s') {p : Int} (hp : s.written p = true) :
    s'.written p = true := by
  by_cases hl : ∃ i read, l = .chunk i read
  · obtain ⟨i, read, rfl⟩ := hl
    obtain ⟨seg, v, toRead, -, -, -, -, -, -, hwr, -⟩ := chunkStep_eq_some hs
    rw [hwr]
    by_cases hchunk : seg.offset + seg.downloaded ≤ p ∧
        p < seg.offset + seg.downloaded + read
    · rw [overlay_inside hchunk.1 hchunk.2]
    · rw [overlay_outside hchunk]
      exact hp
  · rw [(step_frame hs).written fun i read he => hl ⟨i, read, he⟩]
    exact hp

theorem ExitsReady.step {cfg : Config} {s s' : State} {l : Label} (h : ExitsReady s)
    (hprogress : ProgressInv cfg s) (hreaders : ReadersOk cfg s) (hl : CountedOnce cfg s l)
    (hs : step cfg s l = some s') : ExitsReady s' := by
  intro q d hd hexits p hlo hhi
  have hsame : s.readers q = some d → s'.written p = true :=
    fun hq => written_of_step hs (h q d hq hexits p hlo hhi)
  cases step_readers hs with
  | idle hl hread hret => exact hsame (hread ▸ hd)
  | early hl position count hread hret => exact hsame (hread ▸ hd)
  | deliver r c read hl hr hpc hpos hmax hread hret =>
    rw [hread] at hd
    dsimp only at hd
    split at hd
    · cases hd
    · exact hsame hd
  | move hno r c hc hread hret =>
    rw [hread] at hd
    dsimp only at hd
    split at hd
    · cases hd
      refine written_of_step hs ?_
      rcases hc with ⟨-, hpc⟩ | ⟨old, hold, hposition, hcount, hleaves⟩
      · rw [hpc] at hexits
        cases hexits
      · rw [hposition] at hlo hhi
        rw [hcount] at hhi
        rcases hleaves hexits with havail | ⟨a, slow, rfl, hpc, hsum⟩ | hout
        · -- the range was available
          have hend : p < old.position + getContiguousAvailableBytesUnsafe cfg s.segments
              old.position old.count := lt_of_lt_of_le hhi (Int.add_le_add_left havail _)
          exact (hprogress.data.written_iff p).2 (available_sound hlo hend)
        · -- the counters had reached the total size
          have hapart := hl old hold (by rw [hpc]; rfl) hsum
          have heq := progress_eq_of_apart hprogress.data hapart
          have hok := hreaders r old hold
          have hwhole := hprogress.wholeWritten_of_le heq hsum
          exact hwhole p (hok.position_nonneg.trans hlo) (lt_of_lt_of_le hhi hok.inside)
        · exact h r old hold hout p hlo hhi
    · exact hsame hd

/-! ## The results -/

/-- A step keeps the log faithful. -/
theorem faithful_step {cfg : Config} {s s' : State} {l : Label} (hready : ExitsReady s)
    (hprogress : ProgressInv cfg s) (hreaders : ReadersOk cfg s)
    (hlog : ∀ r ∈ s.returned, r.Faithful cfg) (hs : step cfg s l = some s') :
    ∀ r ∈ s'.returned, r.Faithful cfg := by
  cases step_readers hs with
  | idle hl hread hret => rwa [hret]
  | move hl r c hc hread hret => rwa [hret]
  | early hl position count hread hret =>
    rw [hret]
    intro r hr
    rcases List.mem_append.1 hr with hold | hnew
    · exact hlog r hold
    · rw [List.mem_singleton.1 hnew]
      exact early_faithful cfg position count
  | deliver r c read hl hr hpc hpos hmax hread hret =>
    rw [hret]
    intro result hresult
    rcases List.mem_append.1 hresult with hold | hnew
    · exact hlog result hold
    · rw [List.mem_singleton.1 hnew]
      have hcount := hmax.trans (finalCount_le cfg s c)
      refine taken_faithful hprogress.data (hreaders r c hr) hpos hmax fun p hlo hhi => ?_
      exact (hprogress.data.written_iff p).1 (hready r c hr (by rw [hpc]; rfl) p hlo (by omega))

/-- In every run in which no call finds the total size reached while two segments have
downloaded the same position, every `ReadAt` delivers the origin's bytes, and only
bytes that have been downloaded. -/
theorem readAt_faithful (cfg : Config) (ls : List Label) (s : State)
    (hrun : (system cfg).run (init cfg) ls = some s)
    (hmeet : (system cfg).StepsMeet (CountedOnce cfg) (init cfg) ls) :
    ∀ r ∈ s.returned, r.Faithful cfg := by
  have hreach : (system cfg).ReachableWhere (CountedOnce cfg) s :=
    System.reachableWhere_of_run (.init rfl) hrun hmeet
  refine (hreach.invariant (fun s => (ProgressInv cfg s ∧ ReadersOk cfg s ∧ ExitsReady s) ∧
    ∀ r ∈ s.returned, r.Faithful cfg) ?_ ?_).2
  · rintro s rfl
    refine ⟨⟨progressInv_init cfg, ?_, ?_⟩, ?_⟩
    · intro r c hr
      cases hr
    · intro r c hr
      cases hr
    · intro r hr
      cases hr
  · rintro s l s' ⟨⟨hprogress, hreaders, hready⟩, hlog⟩ hl hs
    exact ⟨⟨hprogress.step hs, hreaders.step (step_readers hs),
      hready.step hprogress hreaders hl hs⟩, faithful_step hready hprogress hreaders hlog hs⟩

/-- A resource of 2 MiB that the monitor cuts in two.  A call across the border finds
nothing available, then both halves arrive, and it finds the total size reached. -/
def twoHalvesRun : List Label :=
  List.flatten [List.replicate 7 .monitor, startReading 0, startReading 1,
    [.readAt 0 (1024 * 1024 - 1) 2, .wait 0 false, .chunk 0 (1024 * 1024),
      .chunk 1 (1024 * 1024), .wait 0 false, .wait 0 false, .wait 0 false, .wait 0 false,
      .deliver 0 2]]

def twoHalvesEnd : State :=
  ((system (sevens (2 * 1024 * 1024))).run (init (sevens (2 * 1024 * 1024)))
    twoHalvesRun).get (by decide +kernel)

theorem readAt_faithful_twoHalvesRun :
    twoHalvesEnd.returned.map ReadResult.bytes = [[7, 7]] ∧
      ∀ r ∈ twoHalvesEnd.returned, r.Faithful (sevens (2 * 1024 * 1024)) :=
  ⟨by decide +kernel, readAt_faithful _ twoHalvesRun twoHalvesEnd (Option.some_get _).symm
    (by decide +kernel)⟩

end DirectPackageInstaller.SegmentedStream
