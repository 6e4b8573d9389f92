import DirectPackageInstaller.Streams.SegmentedStream.Progress
import DirectPackageInstaller.Streams.SegmentedStream.Cover

/-!
# What counts as available

`GetContiguousAvailableBytesUnsafe` walks from a position through the segment
that contains it to the next one.  In a table that tiles the resource no
position belongs to two segments, so the walk is determined by one predicate
on positions: `AvailableAt` says that the segment of the position has
downloaded it.  A chunk that overshoots its segment makes nothing available
behind the border.

* `le_available_iff`: the walk reports exactly the available positions.
* `available_neverDecreases_iff`: what has been reported stays reported,
  precisely in the runs in which no split of the monitor lands inside bytes
  that are downloaded by then.
* `available_taken_back`: a run with such a split.
-/

namespace DirectPackageInstaller.SegmentedStream

open Memory Transition Tiling

/-- The segment contains the position and has downloaded it. -/
def Segment.HasAt (seg : Segment) (p : Int) : Prop :=
  seg.offset ≤ p ∧ p < seg.offset + seg.length ∧
    p < seg.offset + seg.downloaded

/-- The position is downloaded, by the segment that contains it. -/
def AvailableAt (segments : List Segment) (p : Int) : Prop :=
  ∃ seg ∈ segments, seg.HasAt p

/-! ## The walk -/

theorem segmentAt_eq_some {segments : List Segment} {p : Int} {seg : Segment}
    (h : segmentAt segments p = some seg) :
    seg ∈ segments ∧ seg.offset ≤ p ∧ p < seg.offset + seg.length := by
  have hin := List.find?_some h
  simp only [Bool.and_eq_true, decide_eq_true_eq] at hin
  exact ⟨List.mem_of_find?_eq_some h, hin.1, by omega⟩

/-- In a tiling no other row has a position of row `i`. -/
theorem not_hasAt_of_eraseIdx {segments : List Segment} {a b p : Int} {i : Nat}
    {seg other : Segment} (htiles : Tiles (segments.map Segment.interval) a b)
    (hi : segments[i]? = some seg) (hlo : seg.offset ≤ p)
    (hhi : p < seg.offset + seg.length) (hother : other ∈ segments.eraseIdx i) :
    ¬other.HasAt p := by
  have hrow : (segments.map Segment.interval)[i]? =
      some (seg.offset, seg.offset + seg.length) := by
    rw [List.getElem?_map, hi]
    rfl
  have hiv : other.interval ∈ (segments.map Segment.interval).eraseIdx i := by
    rw [List.eraseIdx_map]
    exact List.mem_map_of_mem hother
  exact fun hat =>
    htiles.not_mem_of_eraseIdx hrow ⟨hlo, hhi⟩ hiv ⟨hat.1, hat.2.1⟩

/-- A position of row `i` is available when row `i` has downloaded it. -/
theorem availableAt_row_iff {segments : List Segment} {a b p : Int} {i : Nat}
    {seg : Segment} (htiles : Tiles (segments.map Segment.interval) a b)
    (hi : segments[i]? = some seg) (hlo : seg.offset ≤ p)
    (hhi : p < seg.offset + seg.length) :
    AvailableAt segments p ↔ seg.HasAt p := by
  refine (Table.exists_mem_iff hi _).trans (or_iff_left ?_)
  rintro ⟨other, hother, hat⟩
  exact not_hasAt_of_eraseIdx htiles hi hlo hhi hother hat

/-- In a tiling only the segment that the walk finds can have a position. -/
theorem hasAt_of_segmentAt {segments : List Segment} {a b p : Int}
    {seg : Segment} (htiles : Tiles (segments.map Segment.interval) a b)
    (h : segmentAt segments p = some seg) :
    AvailableAt segments p ↔ seg.HasAt p := by
  obtain ⟨hmem, hlo, hhi⟩ := segmentAt_eq_some h
  obtain ⟨i, hi⟩ := List.mem_iff_getElem?.1 hmem
  exact availableAt_row_iff htiles hi hlo hhi

/-- A position of no segment is not available. -/
theorem not_availableAt_of_segmentAt {segments : List Segment} {p : Int}
    (h : segmentAt segments p = none) : ¬AvailableAt segments p := by
  rintro ⟨seg, hmem, hlo, hhi, -⟩
  have hnone := List.find?_eq_none.1 h seg hmem
  simp only [Bool.and_eq_true, decide_eq_true_eq] at hnone
  exact hnone ⟨hlo, by omega⟩

/-- The walk never goes back. -/
theorem le_availableLoop (segments : List Segment) (targetEnd : Int) :
    ∀ (fuel : Nat) (a : Int), a ≤ availableLoop segments targetEnd fuel a := by
  intro fuel
  induction fuel with
  | zero => exact fun a => Int.le_refl a
  | succ fuel ih =>
    intro a
    rw [availableLoop]
    split
    · split
      · exact Int.le_refl a
      · dsimp only
        split
        · exact Int.le_refl a
        · exact Int.le_trans (by omega) (ih _)
    · exact Int.le_refl a

/-- The walk stops at the target. -/
theorem availableLoop_le (segments : List Segment) (targetEnd : Int) :
    ∀ (fuel : Nat) (a : Int), a ≤ targetEnd →
      availableLoop segments targetEnd fuel a ≤ targetEnd := by
  intro fuel
  induction fuel with
  | zero => exact fun a ha => ha
  | succ fuel ih =>
    intro a ha
    rw [availableLoop]
    split
    · split
      · exact ha
      · dsimp only
        split
        · exact ha
        · exact ih _ (min_le_right _ _)
    · exact ha

/-- The walk gets to `e` exactly when every position before `e` is
available.  Each turn that does not end the walk moves it by a position, so
the fuel never decides. -/
theorem le_availableLoop_iff {segments : List Segment} {lo hi : Int}
    (htiles : Tiles (segments.map Segment.interval) lo hi) (targetEnd : Int) :
    ∀ (fuel : Nat) (a e : Int), targetEnd - a ≤ fuel → a ≤ e → e ≤ targetEnd →
      (e ≤ availableLoop segments targetEnd fuel a ↔
        ∀ q, a ≤ q → q < e → AvailableAt segments q) := by
  intro fuel
  induction fuel with
  | zero =>
    intro a e hfuel hae het
    rw [availableLoop]
    refine ⟨fun _ q hlo hhi => ?_, fun _ => by omega⟩
    omega
  | succ fuel ih =>
    intro a e hfuel hae het
    -- a position that is not available ends the walk where it stands
    have hstop : ¬AvailableAt segments a →
        (e ≤ a ↔ ∀ q, a ≤ q → q < e → AvailableAt segments q) := by
      intro hnot
      refine ⟨fun hle q hlo hhi => by omega, fun hall => ?_⟩
      by_contra hlt
      exact hnot (hall a (Int.le_refl a) (by omega))
    rw [availableLoop]
    by_cases hend : a < targetEnd
    · rw [if_pos hend]
      cases hseg : segmentAt segments a with
      | none => exact hstop (not_availableAt_of_segmentAt hseg)
      | some seg =>
        obtain ⟨hmem, hlo, hhi⟩ := segmentAt_eq_some hseg
        dsimp only
        by_cases hdone : min (seg.offset + seg.downloaded)
            (seg.offset + seg.length) ≤ a
        · rw [if_pos hdone]
          apply hstop
          rw [hasAt_of_segmentAt htiles hseg]
          rintro ⟨-, -, hdown⟩
          omega
        · rw [if_neg hdone]
          have hhas : ∀ q, a ≤ q → q < min (min (seg.offset + seg.downloaded)
              (seg.offset + seg.length)) targetEnd → AvailableAt segments q :=
            fun q h1 h2 => ⟨seg, hmem, by omega, by omega, by omega⟩
          by_cases hnear : e ≤ min (min (seg.offset + seg.downloaded)
              (seg.offset + seg.length)) targetEnd
          · have hle := le_availableLoop segments targetEnd fuel
              (min (min (seg.offset + seg.downloaded)
                (seg.offset + seg.length)) targetEnd)
            exact ⟨fun _ q h1 h2 => hhas q h1 (by omega), fun _ => by omega⟩
          · rw [ih _ e (by omega) (by omega) het]
            constructor
            · intro hall q h1 h2
              by_cases hq : q < min (min (seg.offset + seg.downloaded)
                  (seg.offset + seg.length)) targetEnd
              · exact hhas q h1 hq
              · exact hall q (by omega) h2
            · intro hall q h1 h2
              exact hall q (by omega) h2
    · rw [if_neg hend]
      exact ⟨fun hle q h1 h2 => by omega, fun _ => by omega⟩

/-- `GetContiguousAvailableBytesUnsafe` reports `n` bytes exactly when the
first `n` positions are available and asked for. -/
theorem le_available_iff {cfg : Config} {segments : List Segment}
    (htiles : Tiles (segments.map Segment.interval) 0 cfg.totalSize)
    (position n : Int) {requestedBytes : Int} (hreq : 0 < requestedBytes)
    (hpos : position < cfg.totalSize) (hn : 0 ≤ n) :
    n ≤ getContiguousAvailableBytesUnsafe cfg segments position requestedBytes ↔
      n ≤ requestedBytes ∧ position + n ≤ cfg.totalSize ∧
        ∀ q, position ≤ q → q < position + n → AvailableAt segments q := by
  unfold getContiguousAvailableBytesUnsafe
  rw [if_neg (by omega)]
  dsimp only
  have hmax := availableLoop_le segments
    (min cfg.totalSize (position + requestedBytes))
    (min cfg.totalSize (position + requestedBytes) - position).toNat position
    (by omega)
  by_cases hn' : position + n ≤ min cfg.totalSize (position + requestedBytes)
  · have hiff := le_availableLoop_iff htiles
      (min cfg.totalSize (position + requestedBytes))
      (min cfg.totalSize (position + requestedBytes) - position).toNat position
      (position + n) (by omega) (by omega) hn'
    constructor
    · intro hle
      exact ⟨by omega, by omega, hiff.1 (by omega)⟩
    · rintro ⟨-, -, hall⟩
      have := hiff.2 hall
      omega
  · exact ⟨fun hle => by omega, fun ⟨h1, h2, _⟩ => by omega⟩

/-- Nothing that was reported is taken back exactly when no position ceases to
be available. -/
theorem available_le_iff {cfg : Config} {segments segments' : List Segment}
    (htiles : Tiles (segments.map Segment.interval) 0 cfg.totalSize)
    (htiles' : Tiles (segments'.map Segment.interval) 0 cfg.totalSize) :
    (∀ position requestedBytes,
      getContiguousAvailableBytesUnsafe cfg segments position requestedBytes ≤
        getContiguousAvailableBytesUnsafe cfg segments' position
          requestedBytes) ↔
      ∀ q, AvailableAt segments q → AvailableAt segments' q := by
  constructor
  · rintro hle q ⟨seg, hmem, hat⟩
    have hq : q < cfg.totalSize := by
      have hcover := (htiles.cover q).1
        ⟨seg.interval, List.mem_map_of_mem hmem, hat.1, hat.2.1⟩
      exact hcover.2
    -- one byte at `q` was reported, so it still is
    have hone := (le_available_iff htiles q 1
      Int.zero_lt_one hq (by omega)).2 ⟨Int.le_refl 1, by omega, ?_⟩
    · have hone' := (le_available_iff htiles' q 1
        Int.zero_lt_one hq (by omega)).1 (hone.trans (hle q 1))
      exact hone'.2.2 q (Int.le_refl q) (by omega)
    · intro r h1 h2
      have hr : r = q := by omega
      exact hr ▸ ⟨seg, hmem, hat⟩
  · intro hall position requestedBytes
    by_cases hearly : requestedBytes ≤ 0 ∨ position ≥ cfg.totalSize
    · unfold getContiguousAvailableBytesUnsafe
      rw [if_pos hearly, if_pos hearly]
    · have hreq : 0 < requestedBytes := by omega
      have hpos : position < cfg.totalSize := by omega
      have hnonneg : 0 ≤ getContiguousAvailableBytesUnsafe cfg segments position
          requestedBytes :=
        (le_available_iff htiles _ _ hreq hpos (Int.le_refl 0)).2
          ⟨by omega, by omega, fun q h1 h2 => by omega⟩
      have hold := (le_available_iff htiles _ _ hreq hpos hnonneg).1 (Int.le_refl _)
      exact (le_available_iff htiles' _ _ hreq hpos hnonneg).2
        ⟨hold.1, hold.2.1, fun q h1 h2 => hall q (hold.2.2 q h1 h2)⟩

/-! ## What a step does to the available positions -/

/-- A row at the same place with a counter that has not gone back. -/
theorem availableAt_set {segments : List Segment} {i : Nat}
    {seg new : Segment} (hi : segments[i]? = some seg)
    (hoff : new.offset = seg.offset) (hlen : new.length = seg.length)
    (hdown : seg.downloaded ≤ new.downloaded) {q : Int}
    (h : AvailableAt segments q) : AvailableAt (segments.set i new) q := by
  refine (Table.exists_mem_set_iff hi new _).2 ?_
  rcases (Table.exists_mem_iff hi _).1 h with hat | hother
  · obtain ⟨h1, h2, h3⟩ := hat
    exact Or.inl ⟨by omega, by omega, by omega⟩
  · exact Or.inr hother

/-- The positions that are available after a cut. -/
theorem availableAt_cutTable {segments : List Segment} {i : Nat}
    {seg : Segment} (hi : segments[i]? = some seg) (newLength q : Int) :
    AvailableAt (cutTable segments i seg newLength) q ↔
      ({ seg with length := newLength } : Segment).HasAt q ∨
        ∃ x ∈ segments.eraseIdx i, x.HasAt q := by
  refine Iff.trans ?_ (Table.exists_mem_set_iff hi
    { seg with length := newLength } fun x => x.HasAt q)
  rw [cutTable]
  constructor
  · rintro ⟨x, hx, hat⟩
    rcases List.mem_append.1 hx with hx | hx
    · exact ⟨x, hx, hat⟩
    · -- the new segment has downloaded nothing
      rw [List.mem_singleton] at hx
      subst hx
      obtain ⟨h1, h2, h3⟩ := hat
      simp only [Segment.fresh] at h1 h3
      omega
  · rintro ⟨x, hx, hat⟩
    exact ⟨x, List.mem_append_left _ hx, hat⟩

/-- A cut makes nothing available. -/
theorem availableAt_of_cutTable {segments : List Segment} {i : Nat}
    {seg : Segment} (hi : segments[i]? = some seg) {newLength q : Int}
    (hle : newLength ≤ seg.length)
    (h : AvailableAt (cutTable segments i seg newLength) q) :
    AvailableAt segments q := by
  rw [availableAt_cutTable hi] at h
  refine (Table.exists_mem_iff hi _).2 (h.imp_left ?_)
  rintro ⟨h1, h2, h3⟩
  dsimp only at h1 h2 h3
  exact ⟨h1, by omega, h3⟩

/-- A cut keeps what is available exactly when it cuts nothing off or cuts
behind the counter. -/
theorem cut_keeps_available_iff {segments : List Segment} {a b : Int} {i : Nat}
    {seg : Segment} {newLength : Int}
    (htiles : Tiles (segments.map Segment.interval) a b)
    (hi : segments[i]? = some seg) (hlo : 0 ≤ newLength)
    (hhi : newLength ≤ seg.length) :
    (∀ q, AvailableAt segments q →
        AvailableAt (cutTable segments i seg newLength) q) ↔
      newLength = seg.length ∨ seg.downloaded ≤ newLength := by
  constructor
  · intro hkeep
    by_contra hcut
    -- the first position behind the new border was available
    have hat : seg.HasAt (seg.offset + newLength) :=
      ⟨by omega, by omega, by omega⟩
    have hafter := hkeep _ ⟨seg, Table.mem_of_getElem? hi, hat⟩
    rw [availableAt_cutTable hi] at hafter
    rcases hafter with ⟨-, hend, -⟩ | ⟨other, hother, hother'⟩
    · exact absurd hend (by dsimp only; omega)
    · exact not_hasAt_of_eraseIdx htiles hi hat.1 hat.2.1 hother hother'
  · intro hcut q hq
    rw [availableAt_cutTable hi]
    rcases (Table.exists_mem_iff hi _).1 hq with ⟨h1, h2, h3⟩ | hother
    · exact Or.inl ⟨h1, by dsimp only; omega, h3⟩
    · exact Or.inr hother

/-- The condition on a split of the monitor: it cuts nothing off, or it cuts
behind what the segment has downloaded by now. -/
def SplitBehindCounter (s : State) (l : Label) : Prop :=
  ∀ i splitSize seg, Splits s l i splitSize → s.segments[i]? = some seg →
    splitSize = 0 ∨ seg.downloaded ≤ seg.length - splitSize

/-- One step keeps what is available exactly when it meets the condition. -/
theorem step_keeps_available_iff {cfg : Config} {s s' : State} {l : Label}
    (h : CoverInv cfg s) (hdata : DataInv cfg s)
    (hs : step cfg s l = some s') :
    (∀ q, AvailableAt s.segments q → AvailableAt s'.segments q) ↔
      SplitBehindCounter s l := by
  by_cases hl : ∃ i k, Splits s l i k
  · obtain ⟨i, k, hsplit⟩ := hl
    obtain ⟨seg, hi, hseg⟩ := step_splits hs hsplit
    obtain ⟨hlo, hhi⟩ := h.monitor.splitSize hsplit.2 hi
    have honly : SplitBehindCounter s l ↔ k = 0 ∨ seg.downloaded ≤ seg.length - k :=
      hsplit.forall_iff hi
    rw [hseg, honly, cut_keeps_available_iff h.tiles hi (by omega) (by omega)]
    omega
  · have hcond : SplitBehindCounter s l :=
      fun i k seg hsplit => absurd ⟨i, k, hsplit⟩ hl
    refine iff_of_true (fun q hq => ?_) hcond
    cases step_change hs with
    | idle hseg | pick i hbest hseg | stale i seg hold hi hseg =>
      rw [hseg]
      exact hq
    | control i seg task registered hi hmove hseg =>
      rw [hseg]
      exact availableAt_set hi (by rfl) (by rfl) (by rfl) hq
    | commit i seg v toRead read hi htask hpos hmax hseg =>
      rw [hseg]
      exact availableAt_set hi (by rfl) (by rfl) (by dsimp only; omega) hq
    | create i seg offset hi hinc hlo hhi hseg =>
      -- the priority path cuts behind the counter
      have hdown :=
        (hdata.segment seg (Table.mem_of_getElem? hi)).downloaded_nonneg
      rw [hseg]
      exact (cut_keeps_available_iff h.tiles hi (by omega) (by omega)).2
        (Or.inr (by omega)) q hq
    | split i seg k hold hi hseg =>
      exact absurd hseg (step_not_splits hs (fun i k hsplit => hl ⟨i, k, hsplit⟩)
        hold seg _)

/-- What has been reported as available stays reported, precisely in the runs
in which every split of the monitor meets the condition. -/
theorem available_neverDecreases_iff (cfg : Config)
    (hbuf : cfg.bufferSize ≤ 2 * 1024 * 1024) (ls : List Label) (s : State)
    (hrun : (system cfg).run (init cfg) ls = some s) :
    (system cfg).NeverDecreases
        (fun s => getContiguousAvailableBytesUnsafe cfg s.segments) (init cfg)
        ls ↔
      (system cfg).StepsMeet SplitBehindCounter (init cfg) ls := by
  refine System.neverDecreases_of_step
    (fun s => CoverInv cfg s ∧ DataInv cfg s) SplitBehindCounter
    (fun s => getContiguousAvailableBytesUnsafe cfg s.segments) ?_ ?_
    ⟨coverInv_init cfg, dataInv_init cfg⟩ hrun
  · intro s l s' hinv hs
    have hc := step_change hs
    exact ⟨hinv.1.change hbuf hinv.2 hc, hinv.2.change hc⟩
  · intro s l s' hinv hs
    have htiles' := (hinv.1.change hbuf hinv.2 (step_change hs)).tiles
    exact (available_le_iff hinv.1.tiles htiles').trans
      (step_keeps_available_iff hinv.1 hinv.2 hs)

/-- The steps of the monitor from its loop test to the lock section of a
split. -/
def beginSplit : List Label := List.replicate 4 .monitor

/-- A resource of 2 MiB.  The monitor picks the segment and reads `remaining`.
Before it takes the lock again, the task downloads the whole segment.  The
split then cuts off the second half, which was available. -/
def staleSplitRun : List Label :=
  List.flatten [startReading 0, beginSplit,
    [.chunk 0 (1024 * 1024), .task 0, .task 0, .chunk 0 (1024 * 1024)]]

/-- The state before the split. -/
def staleSplitEnd : State :=
  ((system (sevens (2 * 1024 * 1024))).run (init (sevens (2 * 1024 * 1024)))
    staleSplitRun).get (by decide +kernel)

theorem available_neverDecreases_staleSplitRun :
    (sevens (2 * 1024 * 1024)).bufferSize ≤ 2 * 1024 * 1024 ∧
      getContiguousAvailableBytesUnsafe (sevens (2 * 1024 * 1024))
        staleSplitEnd.segments (1024 * 1024) 1 = 1 ∧
      ((system (sevens (2 * 1024 * 1024))).NeverDecreases
          (fun s => getContiguousAvailableBytesUnsafe
            (sevens (2 * 1024 * 1024)) s.segments)
          (init (sevens (2 * 1024 * 1024))) staleSplitRun ↔
        (system (sevens (2 * 1024 * 1024))).StepsMeet SplitBehindCounter
          (init (sevens (2 * 1024 * 1024))) staleSplitRun) :=
  ⟨by decide, by decide +kernel, available_neverDecreases_iff _ (by decide)
    staleSplitRun staleSplitEnd (Option.some_get _).symm⟩

/-- One more step, and a byte that was available is not. -/
theorem available_taken_back :
    ¬∀ (cfg : Config) (ls : List Label) (s : State),
      (system cfg).run (init cfg) ls = some s →
      (system cfg).NeverDecreases
        (fun s => getContiguousAvailableBytesUnsafe cfg s.segments) (init cfg)
        ls := by
  intro h
  have hrun : ((system (sevens (2 * 1024 * 1024))).run staleSplitEnd
      [.monitor]).map (fun s => getContiguousAvailableBytesUnsafe
        (sevens (2 * 1024 * 1024)) s.segments (1024 * 1024) 1) = some 0 := by
    decide +kernel
  have hbefore : getContiguousAvailableBytesUnsafe (sevens (2 * 1024 * 1024))
      staleSplitEnd.segments (1024 * 1024) 1 = 1 := by
    decide +kernel
  obtain ⟨s, hs, hafter⟩ := Option.map_eq_some_iff.1 hrun
  have hstart : (system (sevens (2 * 1024 * 1024))).run
      (init (sevens (2 * 1024 * 1024))) staleSplitRun = some staleSplitEnd :=
    (Option.some_get _).symm
  have hall := h _ (staleSplitRun ++ [.monitor]) s
    (System.run_append_eq_some.2 ⟨staleSplitEnd, hstart, hs⟩)
  have hle := hall staleSplitRun [.monitor] [] staleSplitEnd s rfl hstart hs
    (1024 * 1024) 1
  dsimp only at hle
  omega

end DirectPackageInstaller.SegmentedStream
