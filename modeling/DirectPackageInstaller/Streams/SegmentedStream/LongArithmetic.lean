import DirectPackageInstaller.Streams.SegmentedStream.Available
import Mathlib.Data.List.Find
import Mathlib.Order.Bounds.Basic

/-!
# Availability in 64-bit arithmetic

`GetContiguousAvailableBytesUnsafe` computes with `long` values, whose sums
wrap around.  `position + requestedBytes` does so for a count near the largest
`long`: then the target is negative, and nothing is reported.  `ReadAt` cuts
its count to the rest of the resource before it asks.

* `availableLoop_eq`: where no sum overflows, the loop is the one over the
  integers, and it ends.
* `contiguous_isGreatest`: the result is the largest count of bytes that are
  there.
* `contiguous_overflow`: a count that overflows.
-/

namespace DirectPackageInstaller.SegmentedStream.LongArithmetic

open Tiling

/-- The numbers of a `Segment`. -/
structure LongSegment where
  offset : Int64
  length : Int64
  downloaded : Int64
deriving DecidableEq, Repr

/-- The first segment that contains `availableEnd`. -/
def segmentAt (segments : List LongSegment) (availableEnd : Int64) : Option LongSegment :=
  segments.find? fun s =>
    decide (s.offset ≤ availableEnd) && decide (s.offset + s.length > availableEnd)

/-- The loop of `GetContiguousAvailableBytesUnsafe`.  `none` says that the fuel
has run out. -/
def availableLoop (segments : List LongSegment) (targetEnd : Int64) :
    Nat → Int64 → Option Int64
  | 0, _ => none
  | fuel + 1, availableEnd =>
    if availableEnd < targetEnd then
      match segmentAt segments availableEnd with
      | none => some availableEnd
      | some segment =>
        let segmentAvailableEnd := min (segment.offset + segment.downloaded)
          (segment.offset + segment.length)
        if segmentAvailableEnd ≤ availableEnd then some availableEnd
        else availableLoop segments targetEnd fuel (min segmentAvailableEnd targetEnd)
    else some availableEnd

/-- `GetContiguousAvailableBytesUnsafe(position, requestedBytes)`. -/
def getContiguousAvailableBytesUnsafe (totalSize : Int64) (segments : List LongSegment)
    (position requestedBytes : Int64) (fuel : Nat) : Option Int64 :=
  if requestedBytes ≤ 0 ∨ position ≥ totalSize then some 0
  else
    let targetEnd := min totalSize (position + requestedBytes)
    (availableLoop segments targetEnd fuel position).map fun availableEnd =>
      availableEnd - position

/-! ## What should be reported -/

/-- The interval of a segment. -/
def LongSegment.interval (seg : LongSegment) : Int × Int :=
  (seg.offset.toInt, seg.offset.toInt + seg.length.toInt)

/-- The position lies in the segment, inside its first `min(Downloaded, Length)`
bytes. -/
def LongSegment.HasAt (seg : LongSegment) (p : Int) : Prop :=
  seg.offset.toInt ≤ p ∧ p < seg.offset.toInt + seg.length.toInt ∧
    p < seg.offset.toInt + min seg.downloaded.toInt seg.length.toInt

/-- `k` bytes from the position on are asked for and there. -/
structure Contiguous (totalSize : Int64) (segments : List LongSegment)
    (position requestedBytes : Int64) (k : Int) : Prop where
  nonneg : 0 ≤ k
  le_requested : k ≤ max 0 (min requestedBytes.toInt (totalSize.toInt - position.toInt))
  available : ∀ q, position.toInt ≤ q → q < position.toInt + k →
    ∃ seg ∈ segments, seg.HasAt q

/-! ## Sums that do not overflow -/

theorem toInt_add_of_lt {a b : Int64} (hlo : -2 ^ 63 ≤ a.toInt + b.toInt)
    (hhi : a.toInt + b.toInt < 2 ^ 63) : (a + b).toInt = a.toInt + b.toInt := by
  rw [Int64.toInt_add]
  exact Int.bmod_eq_of_le (by omega) (by omega)

theorem toInt_min (a b : Int64) : (min a b).toInt = min a.toInt b.toInt := by
  show (if a ≤ b then a else b).toInt = _
  split
  · rename_i h
    exact (min_eq_left (Int64.le_iff_toInt_le.1 h)).symm
  · rename_i h
    rw [Int64.le_iff_toInt_le] at h
    exact (min_eq_right (by omega)).symm

/-- In a tiling the end of a segment is a `long`. -/
theorem toInt_segmentEnd {totalSize : Int64} {segments : List LongSegment}
    (htiles : Tiles (segments.map LongSegment.interval) 0 totalSize.toInt)
    {seg : LongSegment} (hseg : seg ∈ segments) :
    (seg.offset + seg.length).toInt = seg.offset.toInt + seg.length.toInt := by
  have hiv := List.mem_map_of_mem (f := LongSegment.interval) hseg
  have hle : seg.offset.toInt ≤ seg.offset.toInt + seg.length.toInt := htiles.le _ hiv
  have hlo := seg.offset.le_toInt
  have hhi := seg.offset.toInt_lt
  have htotal := totalSize.toInt_lt
  apply toInt_add_of_lt (by omega)
  by_cases hempty : seg.length.toInt = 0
  · omega
  · -- the last byte of the segment lies in the resource
    have hlast := (htiles.cover (seg.offset.toInt + seg.length.toInt - 1)).1
      ⟨seg.interval, hiv, by constructor <;> simp only [LongSegment.interval] <;> omega⟩
    have := hlast.2
    omega

/-- The segment with integers for its numbers. -/
def LongSegment.toSegment (seg : LongSegment) : Segment :=
  { offset := seg.offset.toInt, length := seg.length.toInt,
    downloaded := seg.downloaded.toInt, task := .created, registered := false }

theorem map_interval_toSegment (segments : List LongSegment) :
    (segments.map LongSegment.toSegment).map Segment.interval =
      segments.map LongSegment.interval := by
  rw [List.map_map]
  rfl

theorem availableAt_iff {segments : List LongSegment} {q : Int} :
    AvailableAt (segments.map LongSegment.toSegment) q ↔ ∃ seg ∈ segments, seg.HasAt q := by
  simp only [AvailableAt, List.mem_map, exists_exists_and_eq_and, Segment.HasAt,
    LongSegment.HasAt, LongSegment.toSegment]
  refine exists_congr fun seg => and_congr_right fun _ => ?_
  omega

/-- No sum that the loop makes overflows. -/
structure NoOverflow (segments : List LongSegment) : Prop where
  segmentEnd : ∀ seg ∈ segments,
    (seg.offset + seg.length).toInt = seg.offset.toInt + seg.length.toInt
  downloadedEnd : ∀ seg ∈ segments,
    (seg.offset + seg.downloaded).toInt = seg.offset.toInt + seg.downloaded.toInt

theorem NoOverflow.segmentAt_eq {segments : List LongSegment} (h : NoOverflow segments)
    (a : Int64) :
    (segmentAt segments a).map LongSegment.toSegment =
      SegmentedStream.segmentAt (segments.map LongSegment.toSegment) a.toInt := by
  rw [SegmentedStream.segmentAt, List.find?_map, segmentAt]
  refine congrArg _ (List.find?_congr fun seg hseg => ?_)
  have hend := h.segmentEnd seg hseg
  rw [Bool.eq_iff_iff]
  simp only [Function.comp_apply, Bool.and_eq_true, decide_eq_true_eq, gt_iff_lt,
    Int64.le_iff_toInt_le, Int64.lt_iff_toInt_lt, hend]
  rfl

/-- The loop ends, where the one over the integers does. -/
theorem availableLoop_eq {segments : List LongSegment} (h : NoOverflow segments)
    (targetEnd : Int64) :
    ∀ (fuel fuel' : Nat) (a : Int64), (targetEnd.toInt - a.toInt).toNat < fuel →
      targetEnd.toInt - a.toInt ≤ fuel' →
      ∃ e : Int64, availableLoop segments targetEnd fuel a = some e ∧
        e.toInt = SegmentedStream.availableLoop (segments.map LongSegment.toSegment)
          targetEnd.toInt fuel' a.toInt := by
  intro fuel
  induction fuel with
  | zero =>
    intro fuel' a hfuel
    omega
  | succ fuel ih =>
    intro fuel' a hfuel hfuel'
    rw [availableLoop]
    by_cases hlt : a < targetEnd
    · have hlt' := Int64.lt_iff_toInt_lt.1 hlt
      obtain ⟨fuel', rfl⟩ : ∃ m, fuel' = m + 1 := ⟨fuel' - 1, by omega⟩
      rw [if_pos hlt, SegmentedStream.availableLoop, if_pos hlt', ← h.segmentAt_eq a]
      cases hseg : segmentAt segments a with
      | none => exact ⟨a, rfl, rfl⟩
      | some seg =>
        have hmem := List.mem_of_find?_eq_some hseg
        have hend : (min (seg.offset + seg.downloaded) (seg.offset + seg.length)).toInt =
            min (seg.offset.toInt + seg.downloaded.toInt)
              (seg.offset.toInt + seg.length.toInt) := by
          rw [toInt_min, h.downloadedEnd seg hmem, h.segmentEnd seg hmem]
        dsimp only [Option.map_some, LongSegment.toSegment]
        by_cases hdone : min (seg.offset + seg.downloaded) (seg.offset + seg.length) ≤ a
        · have hdone' := Int64.le_iff_toInt_le.1 hdone
          rw [hend] at hdone'
          rw [if_pos hdone, if_pos hdone']
          exact ⟨a, rfl, rfl⟩
        · have hdone' := mt Int64.le_iff_toInt_le.2 hdone
          rw [hend] at hdone'
          rw [if_neg hdone, if_neg hdone']
          have hnext : (min (min (seg.offset + seg.downloaded)
              (seg.offset + seg.length)) targetEnd).toInt =
              min (min (seg.offset.toInt + seg.downloaded.toInt)
                (seg.offset.toInt + seg.length.toInt)) targetEnd.toInt := by
            rw [toInt_min, hend]
          have hloop := ih fuel' (min (min (seg.offset + seg.downloaded)
            (seg.offset + seg.length)) targetEnd) (by omega) (by omega)
          rw [hnext] at hloop
          exact hloop
    · have hlt' := mt Int64.lt_iff_toInt_lt.2 hlt
      rw [if_neg hlt]
      refine ⟨a, rfl, ?_⟩
      cases fuel' with
      | zero => rfl
      | succ fuel' => rw [SegmentedStream.availableLoop, if_neg hlt']

/-! ## The result -/

/-- Without bytes to report the result is zero. -/
theorem isGreatest_zero {totalSize position requestedBytes : Int64}
    (segments : List LongSegment)
    (hnone : requestedBytes.toInt ≤ 0 ∨ totalSize.toInt ≤ position.toInt) :
    IsGreatest {k | Contiguous totalSize segments position requestedBytes k} 0 := by
  refine ⟨⟨Int.le_refl 0, by omega, fun q hlo hhi => by omega⟩, fun k hk => ?_⟩
  have hle := hk.le_requested
  omega

/-- The end that the loop finds, when it is the first position that is missing. -/
theorem isGreatest_sub {totalSize position requestedBytes : Int64}
    {segments : List LongSegment} {e : Int} (hmin : position.toInt ≤ e)
    (hmax : e ≤ min totalSize.toInt (position.toInt + requestedBytes.toInt))
    (hiff : ∀ e', position.toInt ≤ e' →
      e' ≤ min totalSize.toInt (position.toInt + requestedBytes.toInt) →
      (e' ≤ e ↔ ∀ q, position.toInt ≤ q → q < e' →
        AvailableAt (segments.map LongSegment.toSegment) q)) :
    IsGreatest {k | Contiguous totalSize segments position requestedBytes k}
      (e - position.toInt) := by
  constructor
  · refine ⟨by omega, by omega, fun q hlo hhi => ?_⟩
    rw [← availableAt_iff]
    exact (hiff e hmin hmax).1 (Int.le_refl e) q hlo (by omega)
  · intro k hk
    have hnonneg := hk.nonneg
    have hle := hk.le_requested
    have hreach := (hiff (position.toInt + k) (by omega) (by omega)).2 fun q hlo hhi =>
      availableAt_iff.2 (hk.available q hlo hhi)
    omega

/-- In a tiling of the resource and without an overflow, the code ends and
reports the largest count of bytes from the position on that are asked for and
there, whatever the order of the segments. -/
theorem contiguous_isGreatest {totalSize : Int64} {segments : List LongSegment}
    (htiles : Tiles (segments.map LongSegment.interval) 0 totalSize.toInt)
    {position requestedBytes : Int64} (hposition : 0 ≤ position)
    (hsum : position.toInt + requestedBytes.toInt < 2 ^ 63)
    (hdownloaded : ∀ seg ∈ segments,
      -2 ^ 63 ≤ seg.offset.toInt + seg.downloaded.toInt ∧
        seg.offset.toInt + seg.downloaded.toInt < 2 ^ 63) :
    ∃ k : Int64,
      (∀ fuel : Nat, totalSize.toInt < fuel →
        getContiguousAvailableBytesUnsafe totalSize segments position requestedBytes fuel =
          some k) ∧
      IsGreatest {k | Contiguous totalSize segments position requestedBytes k} k.toInt := by
  have hpos := Int64.le_iff_toInt_le.1 hposition
  rw [Int64.toInt_zero] at hpos
  by_cases hearly : requestedBytes ≤ 0 ∨ position ≥ totalSize
  · have hnone : requestedBytes.toInt ≤ 0 ∨ totalSize.toInt ≤ position.toInt := by
      rw [Int64.le_iff_toInt_le, ge_iff_le, Int64.le_iff_toInt_le, Int64.toInt_zero] at hearly
      exact hearly
    refine ⟨0, fun fuel _ => if_pos hearly, ?_⟩
    rw [Int64.toInt_zero]
    exact isGreatest_zero segments hnone
  · have hsome : 0 < requestedBytes.toInt ∧ position.toInt < totalSize.toInt := by
      rw [not_or, Int64.le_iff_toInt_le, ge_iff_le, Int64.le_iff_toInt_le,
        Int64.toInt_zero] at hearly
      omega
    have hno : NoOverflow segments :=
      ⟨fun seg hseg => toInt_segmentEnd htiles hseg,
        fun seg hseg => toInt_add_of_lt (hdownloaded seg hseg).1 (hdownloaded seg hseg).2⟩
    have htarget : (min totalSize (position + requestedBytes)).toInt =
        min totalSize.toInt (position.toInt + requestedBytes.toInt) := by
      rw [toInt_min, toInt_add_of_lt (by omega) hsum]
    rw [← map_interval_toSegment] at htiles
    -- the loop over the integers, with the fuel that it is known to need
    have hmax := availableLoop_le (segments.map LongSegment.toSegment)
      (min totalSize.toInt (position.toInt + requestedBytes.toInt)) totalSize.toInt.toNat
      position.toInt (by omega)
    have hmin := le_availableLoop (segments.map LongSegment.toSegment)
      (min totalSize.toInt (position.toInt + requestedBytes.toInt)) totalSize.toInt.toNat
      position.toInt
    have hiff := fun e => le_availableLoop_iff htiles
      (min totalSize.toInt (position.toInt + requestedBytes.toInt)) totalSize.toInt.toNat
      position.toInt e (by omega)
    have hloop := fun (fuel : Nat) (hfuel : totalSize.toInt < fuel) =>
      availableLoop_eq hno (min totalSize (position + requestedBytes)) fuel
        totalSize.toInt.toNat position (by omega) (by omega)
    simp only [htarget] at hloop
    generalize SegmentedStream.availableLoop (segments.map LongSegment.toSegment)
      (min totalSize.toInt (position.toInt + requestedBytes.toInt)) totalSize.toInt.toNat
      position.toInt = e at hmax hmin hiff hloop
    obtain ⟨e', -, he⟩ := hloop (totalSize.toInt.toNat + 1) (by omega)
    have hsub : (e' - position).toInt = e - position.toInt := by
      rw [Int64.toInt_sub_of_le e' position hposition (Int64.le_iff_toInt_le.2 (by omega)), he]
    refine ⟨e' - position, fun fuel hfuel => ?_, ?_⟩
    · obtain ⟨e'', hsome, he'⟩ := hloop fuel hfuel
      rw [getContiguousAvailableBytesUnsafe, if_neg hearly]
      dsimp only
      rw [hsome, Int64.toInt_inj.1 (he'.trans he.symm)]
      rfl
    · rw [hsub]
      exact isGreatest_sub hmin hmax hiff

/-- Ten bytes: an empty segment, the end with a counter that overshoots, and the
start. -/
def threeSegments : List LongSegment :=
  [⟨4, 0, 0⟩, ⟨4, 6, 9⟩, ⟨0, 4, 4⟩]

theorem threeSegments_tile :
    Tiles (threeSegments.map LongSegment.interval) 0 (10 : Int64).toInt :=
  ((((tiles_nil 10).cons (by decide) (by decide)).cons (by decide) (by decide)).cons
    (by decide) (by decide)).perm
      (show [((0 : Int), (4 : Int)), (4, 4), (4, 10)].Perm [(4, 4), (4, 10), (0, 4)] by decide)

theorem contiguous_isGreatest_threeSegments :
    ∃ k : Int64,
      (∀ fuel : Nat, (10 : Int64).toInt < fuel →
        getContiguousAvailableBytesUnsafe 10 threeSegments 1 20 fuel = some k) ∧
      IsGreatest {k | Contiguous 10 threeSegments 1 20 k} k.toInt :=
  contiguous_isGreatest threeSegments_tile (by decide) (by decide) (by decide)

/-- Ten bytes that are all there, and a count that overflows: nothing is
reported. -/
theorem contiguous_overflow :
    Tiles ([⟨0, 10, 10⟩].map LongSegment.interval) 0 (10 : Int64).toInt ∧
      getContiguousAvailableBytesUnsafe 10 [⟨0, 10, 10⟩] 1 Int64.maxValue 11 = some 0 ∧
      ¬ IsGreatest {k | Contiguous 10 [⟨0, 10, 10⟩] 1 Int64.maxValue k} (0 : Int64).toInt := by
  refine ⟨tiles_singleton (by decide), by decide, fun h => ?_⟩
  -- all nine bytes behind the first one are there
  have hnine : Contiguous 10 [⟨0, 10, 10⟩] 1 Int64.maxValue 9 := by
    refine ⟨by decide, by decide, fun q hlo hhi => ⟨_, List.mem_singleton_self _, ?_⟩⟩
    have hone : (1 : Int64).toInt = 1 := by decide
    have hzero : (0 : Int64).toInt = 0 := by decide
    have hten : (10 : Int64).toInt = 10 := by decide
    rw [hone] at hlo hhi
    simp only [LongSegment.HasAt, hzero, hten]
    omega
  exact absurd (h.2 hnine) (by decide)

end DirectPackageInstaller.SegmentedStream.LongArithmetic
