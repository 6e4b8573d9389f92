import DirectPackageInstaller.Streams.SegmentedStream.Available

/-!
# The ready prefix

`ScanProgress` walks the segments in the order of their offsets and stops
behind the first one that is not completed.  `SafeReadyLength`, the preload
loop of `PushPackage` and the seek test of the cache server take it for the
length of the prefix that can be read.

* `scanProgress_sound`: every byte of the prefix is downloaded, in any table
  at all.
* `lt_scanProgress_iff`: in a reachable table the prefix is the union of the
  downloaded ranges of the segments that the walk reaches.
* `readyPrefix_iff`: the prefix never shrinks, precisely in the runs in which
  no split of the monitor hides such a range behind a new segment.
* `readyPrefix_shrinks`: a run in which it shrinks.
-/

namespace DirectPackageInstaller.SegmentedStream

open Memory Transition Tiling

/-- The loop of `ScanProgress`. -/
def scanLoop : List Segment → Int → Int
  | [], progress => progress
  | seg :: rest, progress =>
    if seg.offset > progress then progress
    else
      let progress := max progress (seg.offset + seg.downloaded)
      if !seg.isCompleted then progress else scanLoop rest progress

/-- `_segments.OrderBy(s => s.Offset)`, which is stable. -/
def orderByOffset (segments : List Segment) : List Segment :=
  segments.insertionSort fun a b => a.offset ≤ b.offset

/-- `ScanProgress`. -/
def scanProgress (segments : List Segment) : Int :=
  scanLoop (orderByOffset segments) 0

theorem perm_orderByOffset (segments : List Segment) :
    (orderByOffset segments).Perm segments :=
  List.perm_insertionSort _ _

theorem pairwise_orderByOffset (segments : List Segment) :
    (orderByOffset segments).Pairwise fun a b => a.offset ≤ b.offset := by
  have : Std.Total fun a b : Segment => a.offset ≤ b.offset :=
    ⟨fun a b => Int.le_total a.offset b.offset⟩
  have : IsTrans Segment fun a b => a.offset ≤ b.offset :=
    ⟨fun a b c => Int.le_trans⟩
  exact List.pairwise_insertionSort _ _

/-! ## Soundness -/

theorem scanLoop_sound {segments : List Segment} :
    ∀ (rest : List Segment) (progress : Int),
      (∀ seg ∈ rest, seg ∈ segments) →
      (∀ p, 0 ≤ p → p < progress → DownloadedAt segments p) →
      ∀ p, 0 ≤ p → p < scanLoop rest progress → DownloadedAt segments p := by
  intro rest
  induction rest with
  | nil => exact fun progress _ hdone => hdone
  | cons seg rest ih =>
    intro progress hmem hdone
    have hseg := hmem seg (List.mem_cons_self ..)
    have hnext : ∀ p, 0 ≤ p → p < max progress (seg.offset + seg.downloaded) →
        seg.offset ≤ progress → DownloadedAt segments p := by
      intro p hlo hhi hoff
      by_cases hp : p < progress
      · exact hdone p hlo hp
      · exact ⟨seg, hseg, by omega, by omega⟩
    rw [scanLoop]
    split
    · exact hdone
    · dsimp only
      split
      · exact fun p hlo hhi => hnext p hlo hhi (by omega)
      · exact ih _ (fun x hx => hmem x (List.mem_cons_of_mem _ hx))
          (fun p hlo hhi => hnext p hlo hhi (by omega))

/-- Every byte below `ScanProgress` has been downloaded. -/
theorem scanProgress_sound {segments : List Segment} {p : Int} (hlo : 0 ≤ p)
    (hhi : p < scanProgress segments) : DownloadedAt segments p := by
  refine scanLoop_sound (orderByOffset segments) 0 ?_ ?_ p hlo hhi
  · exact fun seg hseg => (perm_orderByOffset segments).mem_iff.1 hseg
  · intro q h1 h2
    omega

/-- What the users of `ScanProgress` rely on: below it the backing buffer
holds written bytes of the origin. -/
def PrefixReady (cfg : Config) (s : State) : Prop :=
  ∀ p, 0 ≤ p → p < scanProgress s.segments →
    s.written p = true ∧ s.buffer p = cfg.origin p

theorem DataInv.prefixReady {cfg : Config} {s : State} (h : DataInv cfg s) :
    PrefixReady cfg s := by
  intro p hlo hhi
  have hwritten := (h.written_iff p).2 (scanProgress_sound hlo hhi)
  exact ⟨hwritten, h.content p hwritten⟩

/-! ## The segments that the walk reaches -/

/-- All segments before `offset` are completed. -/
def Reached (segments : List Segment) (offset : Int) : Prop :=
  ∀ other ∈ segments, other.offset < offset → other.isCompleted = true

/-- The position is below the end of the downloaded range of a segment that
the walk reaches. -/
def InPrefix (segments : List Segment) (p : Int) : Prop :=
  ∃ seg ∈ segments, 0 < seg.length ∧ Reached segments seg.offset ∧
    p < seg.offset + seg.downloaded

/-- What the walk needs to know of a table. -/
structure TableOk (totalSize : Int) (segments : List Segment) : Prop where
  tiles : Tiles (segments.map Segment.interval) 0 totalSize
  offset_nonneg : ∀ seg ∈ segments, 0 ≤ seg.offset
  downloaded_nonneg : ∀ seg ∈ segments, 0 ≤ seg.downloaded
  end_le : ∀ seg ∈ segments, seg.offset + seg.length ≤ totalSize
  /-- A segment without a range has downloaded nothing. -/
  empty : ∀ seg ∈ segments, seg.length ≤ 0 → seg.downloaded = 0

theorem TableOk.length_nonneg {totalSize : Int} {segments : List Segment}
    (h : TableOk totalSize segments) {seg : Segment} (hmem : seg ∈ segments) :
    0 ≤ seg.length := by
  have hle := h.tiles.le _ (List.mem_map_of_mem (f := Segment.interval) hmem)
  simp only [Segment.interval] at hle
  omega

/-- Where the walk stands after the segments `done`: below `progress` are the
positions that they have downloaded. -/
structure Walked (segments done rest : List Segment) (progress : Int) :
    Prop where
  perm : (done ++ rest).Perm segments
  sorted : (done ++ rest).Pairwise fun a b => a.offset ≤ b.offset
  completed : ∀ seg ∈ done, seg.isCompleted = true
  progress_nonneg : 0 ≤ progress
  progress_iff : ∀ p, 0 ≤ p → (p < progress ↔
    ∃ seg ∈ done, 0 < seg.length ∧ p < seg.offset + seg.downloaded)

section Walk

variable {totalSize : Int} {segments done rest : List Segment}
  {seg : Segment} {progress : Int}

/-- What is not before a segment in the walk does not start before it. -/
theorem Walked.offset_le (h : Walked segments done (seg :: rest) progress)
    {other : Segment} (hmem : other ∈ segments) (hnot : other ∉ done) :
    seg.offset ≤ other.offset := by
  have hall := (h.perm.mem_iff (a := other)).2 hmem
  have hsorted := (List.pairwise_append.1 h.sorted).2.1
  rcases List.mem_cons.1 ((List.mem_append.1 hall).resolve_left hnot) with
    rfl | hrest
  · exact Int.le_refl _
  · exact (List.pairwise_cons.1 hsorted).1 other hrest

/-- The walk never finds a gap: the segments before the next one are completed
and reach up to it. -/
theorem Walked.offset_le_progress (h : Walked segments done (seg :: rest) progress)
    (hok : TableOk totalSize segments) : seg.offset ≤ progress := by
  by_contra hgap
  have hseg : seg ∈ segments :=
    h.perm.mem_iff.1 (List.mem_append_right _ (List.mem_cons_self ..))
  have hend := hok.end_le seg hseg
  have hlen := hok.length_nonneg hseg
  have hnonneg := h.progress_nonneg
  obtain ⟨iv, hiv, hin⟩ := (hok.tiles.cover progress).2 ⟨hnonneg, by omega⟩
  obtain ⟨other, hother, rfl⟩ := List.mem_map.1 hiv
  have hin' : other.offset ≤ progress ∧
      progress < other.offset + other.length := hin
  by_cases hdone : other ∈ done
  · have hcomp := h.completed other hdone
    simp only [Segment.isCompleted, ge_iff_le, decide_eq_true_eq] at hcomp
    have hlt := (h.progress_iff progress hnonneg).2
      ⟨other, hdone, by omega, by omega⟩
    exact absurd hlt (lt_irrefl _)
  · have hle := h.offset_le hother hdone
    omega

/-- The walk goes on over a completed segment. -/
theorem Walked.next (h : Walked segments done (seg :: rest) progress)
    (hok : TableOk totalSize segments) (hcomp : seg.isCompleted = true) :
    Walked segments (done ++ [seg]) rest
      (max progress (seg.offset + seg.downloaded)) := by
  have hoff := h.offset_le_progress hok
  have hseg : seg ∈ segments :=
    h.perm.mem_iff.1 (List.mem_append_right _ (List.mem_cons_self ..))
  have hlist : done ++ [seg] ++ rest = done ++ seg :: rest := by simp
  have hnonneg := h.progress_nonneg
  refine ⟨hlist ▸ h.perm, hlist ▸ h.sorted, ?_, by omega, fun p hp => ?_⟩
  · intro x hx
    rcases List.mem_append.1 hx with hx | hx
    · exact h.completed x hx
    · rw [List.mem_singleton] at hx
      exact hx ▸ hcomp
  · have hold := h.progress_iff p hp
    simp only [List.mem_append, List.mem_singleton, or_and_right, exists_or,
      exists_eq_left, ← hold]
    by_cases hlen : 0 < seg.length
    · constructor
      · intro hlt
        by_cases hlt' : p < progress
        · exact Or.inl hlt'
        · exact Or.inr ⟨hlen, by omega⟩
      · rintro (hlt | ⟨-, hlt⟩) <;> omega
    · have hzero := hok.empty seg hseg (by omega)
      constructor
      · intro hlt
        exact Or.inl (by omega)
      · rintro (hlt | ⟨hpos, -⟩) <;> omega

/-- The segments that the walk has passed are reached. -/
theorem Walked.reached_done (h : Walked segments done rest progress)
    {x : Segment} (hx : x ∈ done) : Reached segments x.offset := by
  intro other hother hlt
  have hall := (h.perm.mem_iff (a := other)).2 hother
  rcases List.mem_append.1 hall with hdone | hrest
  · exact h.completed other hdone
  · have hle := (List.pairwise_append.1 h.sorted).2.2 x hx other hrest
    omega

/-- The next segment of the walk is reached. -/
theorem Walked.reached_next (h : Walked segments done (seg :: rest) progress) :
    Reached segments seg.offset := by
  intro other hother hlt
  by_cases hdone : other ∈ done
  · exact h.completed other hdone
  · have hle := h.offset_le hother hdone
    omega

/-- Two segments with a range do not start at the same offset. -/
theorem Walked.offset_lt (h : Walked segments done (seg :: rest) progress)
    (hok : TableOk totalSize segments) {other : Segment} (hother : other ∈ rest)
    (hseg : 0 < seg.length) (hlen : 0 < other.length) :
    seg.offset < other.offset := by
  have hdis := (hok.tiles.perm (h.perm.symm.map Segment.interval)).disjoint
  rw [List.map_append, List.map_cons] at hdis
  have hrow := (List.pairwise_cons.1 (List.pairwise_append.1 hdis).2.1).1
    other.interval (List.mem_map_of_mem hother)
  have hle := (List.pairwise_cons.1
    (List.pairwise_append.1 h.sorted).2.1).1 other hother
  by_contra hnot
  exact Set.disjoint_left.1 hrow
    (show seg.offset ∈ Set.Ico seg.offset (seg.offset + seg.length) from
      ⟨Int.le_refl _, by omega⟩)
    (show seg.offset ∈ Set.Ico other.offset (other.offset + other.length) from
      ⟨by omega, by omega⟩)

end Walk

/-- The walk computes the prefix, by induction on what is left of it. -/
theorem lt_scanLoop_iff {totalSize : Int} {segments : List Segment}
    (hok : TableOk totalSize segments) :
    ∀ (rest done : List Segment) (progress : Int),
      Walked segments done rest progress → ∀ p, 0 ≤ p →
        (p < scanLoop rest progress ↔ InPrefix segments p) := by
  intro rest
  induction rest with
  | nil =>
    intro done progress h p hp
    rw [scanLoop, h.progress_iff p hp]
    have hmem : ∀ x, x ∈ done ↔ x ∈ segments := by
      intro x
      simpa using h.perm.mem_iff (a := x)
    constructor
    · rintro ⟨x, hx, hlen, hlt⟩
      exact ⟨x, (hmem x).1 hx, hlen, h.reached_done hx, hlt⟩
    · rintro ⟨x, hx, hlen, -, hlt⟩
      exact ⟨x, (hmem x).2 hx, hlen, hlt⟩
  | cons seg rest ih =>
    intro done progress h p hp
    have hoff := h.offset_le_progress hok
    have hseg : seg ∈ segments :=
      h.perm.mem_iff.1 (List.mem_append_right _ (List.mem_cons_self ..))
    have hdown := hok.downloaded_nonneg seg hseg
    rw [scanLoop, if_neg (by omega)]
    dsimp only
    by_cases hcomp : seg.isCompleted = true
    · simp only [hcomp, Bool.not_true, Bool.false_eq_true, if_false]
      exact ih (done ++ [seg]) _ (h.next hok hcomp) p hp
    · -- the walk stops behind `seg`, and nothing behind it is reached
      have hlen : seg.downloaded < seg.length := by
        simpa [Segment.isCompleted] using hcomp
      simp only [hcomp, Bool.not_false, if_true]
      have hold := h.progress_iff p hp
      constructor
      · intro hlt
        by_cases hlt' : p < progress
        · obtain ⟨x, hx, hpos, hin⟩ := hold.1 hlt'
          have hmem := h.perm.mem_iff.1 (List.mem_append_left _ hx)
          exact ⟨x, hmem, hpos, h.reached_done hx, hin⟩
        · exact ⟨seg, hseg, by omega, h.reached_next, by omega⟩
      · rintro ⟨x, hx, hpos, hreach, hin⟩
        rcases List.mem_append.1 (h.perm.mem_iff.2 hx) with hdone | hrest
        · have := hold.2 ⟨x, hdone, hpos, hin⟩
          omega
        · rcases List.mem_cons.1 hrest with rfl | hrest
          · omega
          · have hlt := h.offset_lt hok hrest (by omega) hpos
            exact absurd (hreach seg hseg hlt) hcomp

/-- `ScanProgress` in a table that tiles the resource. -/
theorem lt_scanProgress_iff {totalSize : Int} {segments : List Segment}
    (hok : TableOk totalSize segments) {p : Int} (hp : 0 ≤ p) :
    p < scanProgress segments ↔ InPrefix segments p := by
  refine lt_scanLoop_iff hok (orderByOffset segments) [] 0 ?_ p hp
  refine ⟨perm_orderByOffset segments, pairwise_orderByOffset segments,
    (fun seg hseg => by cases hseg), Int.le_refl 0, fun q hq => ?_⟩
  constructor
  · intro hlt
    omega
  · rintro ⟨x, hx, -⟩
    cases hx

theorem le_scanLoop : ∀ (rest : List Segment) (progress : Int),
    progress ≤ scanLoop rest progress := by
  intro rest
  induction rest with
  | nil => exact fun progress => Int.le_refl _
  | cons seg rest ih =>
    intro progress
    rw [scanLoop]
    split
    · exact Int.le_refl _
    · dsimp only
      split
      · exact le_max_left _ _
      · exact (le_max_left _ _).trans (ih _)

/-- The prefix does not shrink exactly when it loses no position. -/
theorem scanProgress_le_iff {totalSize : Int} {segments segments' : List Segment}
    (hok : TableOk totalSize segments) (hok' : TableOk totalSize segments') :
    scanProgress segments ≤ scanProgress segments' ↔
      ∀ p, 0 ≤ p → InPrefix segments p → InPrefix segments' p := by
  constructor
  · intro hle p hp hin
    rw [← lt_scanProgress_iff hok' hp]
    have hlt := (lt_scanProgress_iff hok hp).2 hin
    omega
  · intro hall
    by_contra hlt
    -- the first position behind the new prefix was in the old one
    have hp : 0 ≤ scanProgress segments' := le_scanLoop _ 0
    have hin := (lt_scanProgress_iff hok hp).1 (by omega)
    have hback := (lt_scanProgress_iff hok' hp).2 (hall _ hp hin)
    exact absurd hback (lt_irrefl _)

/-! ## What a step does to the prefix -/

/-- A row at the same place with a counter that has not gone back. -/
theorem inPrefix_set {segments : List Segment} {i : Nat} {seg new : Segment}
    (hi : segments[i]? = some seg) (hoff : new.offset = seg.offset)
    (hlen : new.length = seg.length) (hdown : seg.downloaded ≤ new.downloaded)
    {p : Int} (h : InPrefix segments p) : InPrefix (segments.set i new) p := by
  have hreached : ∀ o, Reached segments o → Reached (segments.set i new) o := by
    intro o hr
    refine Table.forall_mem_set hr fun hlt => ?_
    have hcomp := hr seg (Table.mem_of_getElem? hi) (by omega)
    simp only [Segment.isCompleted, ge_iff_le, decide_eq_true_eq] at hcomp ⊢
    omega
  refine (Table.exists_mem_set_iff hi new _).2 ?_
  rcases (Table.exists_mem_iff hi _).1 h with ⟨hpos, hr, hlt⟩ |
    ⟨x, hx, hpos, hr, hlt⟩
  · exact Or.inl ⟨by omega, hoff ▸ hreached _ hr, by omega⟩
  · exact Or.inr ⟨x, hx, hpos, hreached _ hr, hlt⟩

section Cut

variable {totalSize : Int} {segments : List Segment} {i : Nat} {seg : Segment}
  {newLength : Int}

/-- The rows after a cut. -/
theorem mem_cutTable_iff (hi : segments[i]? = some seg) {x : Segment} :
    x ∈ cutTable segments i seg newLength ↔
      x = { seg with length := newLength } ∨ x ∈ segments.eraseIdx i ∨
        x = .fresh (seg.offset + newLength) (seg.length - newLength) := by
  rw [cutTable, List.mem_append, (Table.set_perm hi _).mem_iff, List.mem_cons,
    List.mem_singleton, or_assoc]

/-- Before the new border, and everywhere if nothing is cut off, the segments
before an offset stay completed. -/
theorem reached_cutTable (hi : segments[i]? = some seg)
    (hcut : newLength ≤ seg.length) {o : Int}
    (ho : o ≤ seg.offset + newLength ∨ newLength = seg.length)
    (h : Reached segments o) :
    Reached (cutTable segments i seg newLength) o := by
  intro x hx hlt
  rcases (mem_cutTable_iff hi).1 hx with rfl | hx | rfl
  · have hcomp := h seg (Table.mem_of_getElem? hi) hlt
    simp only [Segment.isCompleted, ge_iff_le, decide_eq_true_eq] at hcomp ⊢
    omega
  · exact h x (List.mem_of_mem_eraseIdx hx) hlt
  · simp only [Segment.fresh, Segment.isCompleted, ge_iff_le,
      decide_eq_true_eq] at hlt ⊢
    omega

/-- Up to the segment that is cut, the segments that were completed before
have not become so by the cut. -/
theorem reached_of_cutTable (hi : segments[i]? = some seg) {o o' : Int}
    (hle : o ≤ o') (ho : o ≤ seg.offset)
    (h : Reached (cutTable segments i seg newLength) o') :
    Reached segments o := by
  intro x hx hlt
  rw [(Table.perm_of_getElem? hi).mem_iff, List.mem_cons] at hx
  rcases hx with rfl | hx
  · omega
  · exact h x ((mem_cutTable_iff hi).2 (Or.inr (Or.inl hx))) (by omega)

/-- A range that stays reached stays in the prefix. -/
theorem inPrefix_cutTable (hi : segments[i]? = some seg) (hpos : 0 < newLength)
    (hcut : newLength ≤ seg.length) {p : Int} {x : Segment} (hx : x ∈ segments)
    (hlen : 0 < x.length) (hr : Reached segments x.offset)
    (hlt : p < x.offset + x.downloaded)
    (ho : x.offset ≤ seg.offset + newLength ∨ newLength = seg.length) :
    InPrefix (cutTable segments i seg newLength) p := by
  have hr' := reached_cutTable hi hcut ho hr
  rw [(Table.perm_of_getElem? hi).mem_iff, List.mem_cons] at hx
  rcases hx with rfl | hx
  · exact ⟨_, (mem_cutTable_iff hi).2 (Or.inl rfl), hpos, hr', hlt⟩
  · exact ⟨x, (mem_cutTable_iff hi).2 (Or.inr (Or.inl hx)), hlen, hr', hlt⟩

/-- Another segment with a range that starts behind `seg` starts behind the
whole of it. -/
theorem TableOk.end_le_offset (hok : TableOk totalSize segments)
    (hi : segments[i]? = some seg) {x : Segment}
    (hx : x ∈ segments.eraseIdx i) (hlen : 0 < x.length)
    (hlt : seg.offset < x.offset) : seg.offset + seg.length ≤ x.offset := by
  by_contra hin
  have hrow : (segments.map Segment.interval)[i]? =
      some (seg.offset, seg.offset + seg.length) := by
    rw [List.getElem?_map, hi]
    rfl
  have hiv : x.interval ∈ (segments.map Segment.interval).eraseIdx i := by
    rw [List.eraseIdx_map]
    exact List.mem_map_of_mem hx
  have hp : x.offset ∈ Set.Ico seg.offset (seg.offset + seg.length) :=
    ⟨by omega, by omega⟩
  exact hok.tiles.not_mem_of_eraseIdx hrow hp hiv
    (show x.offset ∈ Set.Ico x.offset (x.offset + x.length) from
      ⟨Int.le_refl _, by omega⟩)

/-- Cutting a segment that is not completed takes nothing from the prefix:
the walk stops there before and after. -/
theorem cut_keeps_prefix_of_incomplete (hi : segments[i]? = some seg)
    (hpos : 0 < newLength) (hcut : newLength ≤ seg.length)
    (hinc : seg.isCompleted = false) {p : Int} (h : InPrefix segments p) :
    InPrefix (cutTable segments i seg newLength) p := by
  obtain ⟨x, hx, hlen, hr, hlt⟩ := h
  refine inPrefix_cutTable hi hpos hcut hx hlen hr hlt (Or.inl ?_)
  by_contra hbehind
  have hcomp := hr seg (Table.mem_of_getElem? hi) (by omega)
  rw [hinc] at hcomp
  cases hcomp

/-- The prefix after a cut through a completed segment: what was reached up to
this segment. -/
theorem inPrefix_cut_completed_iff (hok : TableOk totalSize segments)
    (hi : segments[i]? = some seg) (hpos : 0 < newLength)
    (hcut : newLength < seg.length) (hcomp : seg.isCompleted = true) (p : Int) :
    InPrefix (cutTable segments i seg newLength) p ↔
      ∃ x ∈ segments, 0 < x.length ∧ Reached segments x.offset ∧
        x.offset ≤ seg.offset ∧ p < x.offset + x.downloaded := by
  have hmem := Table.mem_of_getElem? hi
  constructor
  · rintro ⟨x, hx, hlen, hr, hlt⟩
    simp only [Segment.isCompleted, ge_iff_le, decide_eq_true_eq] at hcomp
    rcases (mem_cutTable_iff hi).1 hx with rfl | hx | rfl
    · exact ⟨seg, hmem, by omega,
        reached_of_cutTable hi (Int.le_refl _) (Int.le_refl _) hr,
        Int.le_refl _, hlt⟩
    · refine ⟨x, List.mem_of_mem_eraseIdx hx, hlen, ?_⟩
      have hle : x.offset ≤ seg.offset := by
        -- behind the cut the new segment, with nothing downloaded, is first
        by_contra hbehind
        have hend := hok.end_le_offset hi hx hlen (by omega)
        have hfresh := hr _ ((mem_cutTable_iff hi).2 (Or.inr (Or.inr rfl)))
          (by simp only [Segment.fresh]; omega)
        simp only [Segment.fresh, Segment.isCompleted, ge_iff_le,
          decide_eq_true_eq] at hfresh
        omega
      exact ⟨reached_of_cutTable hi (Int.le_refl _) hle hr, hle, hlt⟩
    · simp only [Segment.fresh] at hr hlt
      exact ⟨seg, hmem, by omega,
        reached_of_cutTable hi (by omega) (Int.le_refl _) hr,
        Int.le_refl _, by omega⟩
  · rintro ⟨x, hx, hlen, hr, hle, hlt⟩
    exact inPrefix_cutTable hi hpos (by omega) hx hlen hr hlt (Or.inl (by omega))

end Cut

/-! ## The invariant of the table -/

/-- What the walk relies on in every reachable state. -/
structure ScanInv (cfg : Config) (s : State) : Prop where
  cover : CoverInv cfg s
  data : DataInv cfg s
  placed : SplitPlaced s
  end_le : ∀ seg ∈ s.segments, seg.offset + seg.length ≤ cfg.totalSize
  /-- Only a segment with a range downloads. -/
  used : ∀ seg ∈ s.segments,
    (0 < seg.downloaded ∨ ∃ v n, seg.task = .reading v n) → 0 < seg.length

theorem ScanInv.tableOk {cfg : Config} {s : State} (h : ScanInv cfg s) :
    TableOk cfg.totalSize s.segments where
  tiles := h.cover.tiles
  offset_nonneg := h.cover.offset_nonneg
  downloaded_nonneg := fun seg hseg => (h.data.segment seg hseg).downloaded_nonneg
  end_le := h.end_le
  empty := by
    intro seg hseg hlen
    have hdown := (h.data.segment seg hseg).downloaded_nonneg
    by_contra hne
    have := h.used seg hseg (Or.inl (by omega))
    omega

theorem scanInv_init (cfg : Config) : ScanInv cfg (init cfg) where
  cover := coverInv_init cfg
  data := dataInv_init cfg
  placed := trivial
  end_le := by
    intro seg hseg
    rw [init, List.mem_singleton] at hseg
    subst hseg
    dsimp only
    omega
  used := by
    intro seg hseg
    rw [init, List.mem_singleton] at hseg
    subst hseg
    rintro (hdown | ⟨v, n, htask⟩)
    · exact absurd hdown (lt_irrefl _)
    · cases htask

/-- Both parts of a cut inside the segment end inside the resource. -/
theorem end_le_cutTable {segments : List Segment} {i : Nat} {seg : Segment}
    {newLength totalSize : Int} (hi : segments[i]? = some seg)
    (h : ∀ x ∈ segments, x.offset + x.length ≤ totalSize)
    (hcut : newLength ≤ seg.length) :
    ∀ x ∈ cutTable segments i seg newLength, x.offset + x.length ≤ totalSize := by
  have hend := h seg (Table.mem_of_getElem? hi)
  refine forall_mem_cutTable h ?_ ?_
  · dsimp only
    omega
  · simp only [Segment.fresh]
    omega

/-- The part of a cut that keeps the task keeps a range, and the other part has
no task yet. -/
theorem used_cutTable {segments : List Segment} {i : Nat} {seg : Segment}
    {newLength : Int}
    (h : ∀ x ∈ segments,
      (0 < x.downloaded ∨ ∃ v n, x.task = .reading v n) → 0 < x.length)
    (hpos : 0 < newLength) :
    ∀ x ∈ cutTable segments i seg newLength,
      (0 < x.downloaded ∨ ∃ v n, x.task = .reading v n) → 0 < x.length := by
  refine forall_mem_cutTable h (fun _ => hpos) ?_
  rintro (hdown | ⟨v, n, htask⟩)
  · exact absurd hdown (lt_irrefl _)
  · cases htask

theorem ScanInv.change {cfg : Config} {s s' : State}
    (hbuf : cfg.bufferSize ≤ 2 * 1024 * 1024) (h : ScanInv cfg s)
    (hc : Change cfg s s') : ScanInv cfg s' := by
  have hcover := h.cover.change hbuf h.data hc
  have hdata := h.data.change hc
  have hplaced := h.placed.change h.data hc
  have htable : (∀ seg ∈ s'.segments, seg.offset + seg.length ≤ cfg.totalSize) ∧
      ∀ seg ∈ s'.segments,
        (0 < seg.downloaded ∨ ∃ v n, seg.task = .reading v n) →
          0 < seg.length := by
    cases hc with
    | idle hseg | pick i hbest hseg | stale i seg hold hi hseg =>
      rw [hseg]
      exact ⟨h.end_le, h.used⟩
    | control i seg task registered hi hmove hseg =>
      have hmem := Table.mem_of_getElem? hi
      have hdown := (h.data.segment seg hmem).downloaded_nonneg
      rw [hseg]
      refine ⟨Table.forall_mem_set h.end_le (h.end_le seg hmem),
        Table.forall_mem_set h.used ?_⟩
      dsimp only
      rintro (hpos | ⟨v, n, rfl⟩)
      · exact h.used seg hmem (Or.inl hpos)
      · rcases hmove.reading with hold | ⟨-, hlt⟩
        · exact h.used seg hmem (Or.inr ⟨v, n, hold⟩)
        · omega
    | commit i seg v toRead read hi htask hpos hmax hseg =>
      have hmem := Table.mem_of_getElem? hi
      rw [hseg]
      exact ⟨Table.forall_mem_set h.end_le (h.end_le seg hmem),
        Table.forall_mem_set h.used
          fun _ => h.used seg hmem (Or.inr ⟨v, toRead, htask⟩)⟩
    | create i seg offset hi hinc hlo hhi hseg =>
      have hdown :=
        (h.data.segment seg (Table.mem_of_getElem? hi)).downloaded_nonneg
      rw [hseg]
      exact ⟨end_le_cutTable hi h.end_le (by omega),
        used_cutTable h.used (by omega)⟩
    | split i seg splitSize hold hi hseg =>
      have hsize := h.placed.splitLock hold hi
      have hnonneg := (h.cover.monitor.splitSize hold hi).1
      rw [hseg]
      exact ⟨end_le_cutTable hi h.end_le (by omega),
        used_cutTable h.used (by omega)⟩
  exact ⟨hcover, hdata, hplaced, htable.1, htable.2⟩

/-! ## When the prefix never shrinks -/

/-- The condition on a split of the monitor.  If the segment has been
completed in the meantime, no segment that the walk reaches has downloaded
bytes past everything that the segments up to the split one have. -/
def SplitKeepsPrefix (s : State) (l : Label) : Prop :=
  ∀ i splitSize seg, Splits s l i splitSize → s.segments[i]? = some seg →
    0 < splitSize → seg.isCompleted = true →
    ∀ x ∈ s.segments, 0 < x.length → Reached s.segments x.offset →
      ∃ y ∈ s.segments, y.offset ≤ seg.offset ∧
        x.offset + x.downloaded ≤ y.offset + y.downloaded

/-- What the split of a completed segment does to the prefix. -/
theorem split_keeps_prefix_iff {totalSize : Int} {segments : List Segment}
    {i : Nat} {seg : Segment} {newLength : Int}
    (hok : TableOk totalSize segments) (hi : segments[i]? = some seg)
    (hpos : 0 < newLength) (hcut : newLength < seg.length)
    (hcomp : seg.isCompleted = true) :
    (∀ p, 0 ≤ p → InPrefix segments p →
        InPrefix (cutTable segments i seg newLength) p) ↔
      ∀ x ∈ segments, 0 < x.length → Reached segments x.offset →
        ∃ y ∈ segments, y.offset ≤ seg.offset ∧
          x.offset + x.downloaded ≤ y.offset + y.downloaded := by
  have hmem := Table.mem_of_getElem? hi
  have hoff := hok.offset_nonneg seg hmem
  simp only [inPrefix_cut_completed_iff hok hi hpos hcut hcomp]
  constructor
  · intro hkeep x hx hlen hr
    by_cases hle : x.offset ≤ seg.offset
    · exact ⟨x, hx, hle, Int.le_refl _⟩
    · -- the last position that `x` has downloaded stays in the prefix
      have hdown := hok.downloaded_nonneg x hx
      obtain ⟨y, hy, -, -, hyle, hylt⟩ := hkeep
        (x.offset + x.downloaded - 1) (by omega) ⟨x, hx, hlen, hr, by omega⟩
      exact ⟨y, hy, hyle, by omega⟩
  · rintro hcond p hp ⟨x, hx, hlen, hr, hlt⟩
    by_cases hle : x.offset ≤ seg.offset
    · exact ⟨x, hx, hlen, hr, hle, hlt⟩
    · obtain ⟨y, hy, hyle, hyend⟩ := hcond x hx hlen hr
      have hylen : 0 < y.length := by
        -- an empty segment has downloaded nothing past its own offset
        by_contra hempty
        have hzero := hok.empty y hy (by omega)
        have hdown := hok.downloaded_nonneg x hx
        omega
      have hyr : Reached segments y.offset :=
        fun z hz hzlt => hr z hz (by omega)
      exact ⟨y, hy, hylen, hyr, hyle, by omega⟩

/-- One step keeps the prefix exactly when it meets the condition. -/
theorem step_keeps_prefix_iff {cfg : Config} {s s' : State} {l : Label}
    (h : ScanInv cfg s) (hs : step cfg s l = some s') :
    (∀ p, 0 ≤ p → InPrefix s.segments p → InPrefix s'.segments p) ↔
      SplitKeepsPrefix s l := by
  by_cases hl : ∃ i k, Splits s l i k
  · obtain ⟨i, k, hsplit⟩ := hl
    obtain ⟨seg, hi, hseg⟩ := step_splits hs hsplit
    have hsize := h.placed.splitLock hsplit.2 hi
    have hnonneg := (h.cover.monitor.splitSize hsplit.2 hi).1
    have honly : SplitKeepsPrefix s l ↔ (0 < k → seg.isCompleted = true →
        ∀ x ∈ s.segments, 0 < x.length → Reached s.segments x.offset →
          ∃ y ∈ s.segments, y.offset ≤ seg.offset ∧
            x.offset + x.downloaded ≤ y.offset + y.downloaded) :=
      hsplit.forall_iff hi
    rw [hseg, honly]
    by_cases hk : 0 < k
    · by_cases hcomp : seg.isCompleted = true
      · rw [split_keeps_prefix_iff h.tableOk hi (by omega) (by omega) hcomp]
        exact ⟨fun hx _ _ => hx, fun hx => hx hk hcomp⟩
      · refine iff_of_true (fun p _ hin => ?_) (fun _ hc => absurd hc hcomp)
        exact cut_keeps_prefix_of_incomplete hi (by omega) (by omega)
          (by simpa using hcomp) hin
    · -- nothing is cut off
      refine iff_of_true (fun p _ hin => ?_) (fun hpos => absurd hpos hk)
      obtain ⟨x, hx, hlen, hr, hlt⟩ := hin
      exact inPrefix_cutTable hi (by omega) (by omega) hx hlen hr hlt
        (Or.inr (by omega))
  · have hnot : ∀ i k, ¬Splits s l i k := fun i k hsplit => hl ⟨i, k, hsplit⟩
    refine iff_of_true (fun p _ hin => ?_)
      (fun i k seg hsplit => absurd hsplit (hnot i k))
    cases step_change hs with
    | idle hseg | pick i hbest hseg | stale i seg hold hi hseg =>
      rw [hseg]
      exact hin
    | control i seg task registered hi hmove hseg =>
      rw [hseg]
      exact inPrefix_set hi (by rfl) (by rfl) (by rfl) hin
    | commit i seg v toRead read hi htask hpos hmax hseg =>
      rw [hseg]
      exact inPrefix_set hi (by rfl) (by rfl) (by dsimp only; omega) hin
    | create i seg offset hi hinc hlo hhi hseg =>
      have hdown :=
        (h.data.segment seg (Table.mem_of_getElem? hi)).downloaded_nonneg
      rw [hseg]
      exact cut_keeps_prefix_of_incomplete hi (by omega) (by omega) hinc hin
    | split i seg k hold hi hseg =>
      exact absurd hseg (step_not_splits hs hnot hold seg _)

/-- The ready prefix is what its users take it for, in every state, and never
shrinks, precisely in the runs in which every split of the monitor meets the
condition. -/
theorem readyPrefix_iff (cfg : Config)
    (hbuf : cfg.bufferSize ≤ 2 * 1024 * 1024) (ls : List Label) (s : State)
    (hrun : (system cfg).run (init cfg) ls = some s) :
    (PrefixReady cfg s ∧ (system cfg).NeverDecreases
        (fun s => scanProgress s.segments) (init cfg) ls) ↔
      (system cfg).StepsMeet SplitKeepsPrefix (init cfg) ls := by
  have hready : PrefixReady cfg s :=
    (dataInv_of_reachable (System.reachable_of_run (.init rfl) hrun)).prefixReady
  rw [and_iff_right hready]
  refine System.neverDecreases_of_step (ScanInv cfg) SplitKeepsPrefix
    (fun s => scanProgress s.segments) ?_ ?_ (scanInv_init cfg) hrun
  · intro s l s' h hs
    exact h.change hbuf (step_change hs)
  · intro s l s' h hs
    have h' := h.change hbuf (step_change hs)
    exact (scanProgress_le_iff h.tableOk h'.tableOk).trans
      (step_keeps_prefix_iff h hs)

/-- A resource of 4 MiB.  The monitor splits it in two halves, and the second
half downloads 1 MiB.  The monitor picks the first half and reads
`remaining`.  Before it takes the lock again, the task downloads the whole
first half. -/
def hiddenSplitRun : List Label :=
  List.flatten [startReading 0, beginSplit, List.replicate 5 .monitor,
    startReading 1, [.chunk 1 (1024 * 1024)], List.replicate 3 .monitor,
    [.chunk 0 (1024 * 1024), .task 0, .task 0, .chunk 0 (1024 * 1024)]]

/-- The state before the second split. -/
def hiddenSplitEnd : State :=
  ((system (sevens (4 * 1024 * 1024))).run (init (sevens (4 * 1024 * 1024)))
    hiddenSplitRun).get (by decide +kernel)

theorem readyPrefix_hiddenSplitRun :
    scanProgress hiddenSplitEnd.segments = 3 * 1024 * 1024 ∧
      ((PrefixReady (sevens (4 * 1024 * 1024)) hiddenSplitEnd ∧
          (system (sevens (4 * 1024 * 1024))).NeverDecreases
            (fun s => scanProgress s.segments)
            (init (sevens (4 * 1024 * 1024))) hiddenSplitRun) ↔
        (system (sevens (4 * 1024 * 1024))).StepsMeet SplitKeepsPrefix
          (init (sevens (4 * 1024 * 1024))) hiddenSplitRun) :=
  ⟨by decide +kernel, readyPrefix_iff _ (by decide) hiddenSplitRun
    hiddenSplitEnd (Option.some_get _).symm⟩

/-- One more step, and the prefix shrinks from 3 MiB to 2 MiB. -/
theorem readyPrefix_shrinks :
    ¬∀ (cfg : Config) (ls : List Label) (s : State),
      (system cfg).run (init cfg) ls = some s →
      PrefixReady cfg s ∧ (system cfg).NeverDecreases
        (fun s => scanProgress s.segments) (init cfg) ls := by
  intro h
  have hrun : ((system (sevens (4 * 1024 * 1024))).run hiddenSplitEnd
      [.monitor]).map (fun s => scanProgress s.segments) =
        some (2 * 1024 * 1024) := by
    decide +kernel
  have hbefore : scanProgress hiddenSplitEnd.segments = 3 * 1024 * 1024 := by
    decide +kernel
  obtain ⟨s, hs, hafter⟩ := Option.map_eq_some_iff.1 hrun
  have hstart : (system (sevens (4 * 1024 * 1024))).run
      (init (sevens (4 * 1024 * 1024))) hiddenSplitRun = some hiddenSplitEnd :=
    (Option.some_get _).symm
  have hall := (h _ (hiddenSplitRun ++ [.monitor]) s
    (System.run_append_eq_some.2 ⟨hiddenSplitEnd, hstart, hs⟩)).2
  have hle := hall hiddenSplitRun [.monitor] [] hiddenSplitEnd s rfl hstart hs
  dsimp only at hle
  omega

end DirectPackageInstaller.SegmentedStream
