import Mathlib.Data.Set.Card
import Mathlib.Order.Interval.Finset.Basic
import Mathlib.Tactic.Common

/-!
# Memories as functions

A byte array, a file or a remote resource is a function from addresses to
cells.  `overlay` replaces the cells of one half-open range, and `slice`
reads a range as a list.  The address type is any linear order with an
addition, so the same lemmas serve natural and integer addresses.

A memory of marks records which addresses have been touched.  Marking a range
adds at most its size to the number of marked addresses, and exactly its size
when no address of it was marked (`ncard_marked_overlay_eq_iff`).
-/

namespace Memory

variable {ι α : Type*}

section Overlay

variable [LinearOrder ι]

/-- `m` with the cells of `[lo, hi)` taken from `src`. -/
def overlay (m src : ι → α) (lo hi : ι) : ι → α :=
  fun p => if lo ≤ p ∧ p < hi then src p else m p

theorem overlay_inside {m src : ι → α} {lo hi p : ι} (h1 : lo ≤ p) (h2 : p < hi) :
    overlay m src lo hi p = src p :=
  if_pos ⟨h1, h2⟩

theorem overlay_outside {m src : ι → α} {lo hi p : ι} (h : ¬(lo ≤ p ∧ p < hi)) :
    overlay m src lo hi p = m p :=
  if_neg h

/-- An empty range changes nothing. -/
theorem overlay_self (m src : ι → α) (lo : ι) : overlay m src lo lo = m := by
  funext p
  exact overlay_outside fun h => absurd (h.1.trans_lt h.2) (lt_irrefl _)

end Overlay

section Marks

/-- The marked addresses. -/
def marked (m : ι → Bool) : Set ι := {p | m p = true}

/-- No address is marked at first. -/
@[simp] theorem marked_false : marked (fun _ : ι => false) = ∅ := by
  ext p
  simp [marked]

variable [LinearOrder ι]

theorem marked_overlay (m : ι → Bool) (lo hi : ι) :
    marked (overlay m (fun _ => true) lo hi) = marked m ∪ Set.Ico lo hi := by
  ext p
  simp only [marked, overlay, Set.mem_ofPred_eq, Set.mem_union, Set.mem_Ico]
  split <;> simp [*]

/-- Marking a range adds at most its size. -/
theorem ncard_marked_overlay_le {m : ι → Bool} (lo hi : ι) :
    (marked (overlay m (fun _ => true) lo hi)).ncard ≤
      (marked m).ncard + (Set.Ico lo hi).ncard := by
  rw [marked_overlay]
  exact Set.ncard_union_le _ _

/-- Marking a range adds exactly its size when none of it was marked. -/
theorem ncard_marked_overlay_eq_iff [LocallyFiniteOrder ι] {m : ι → Bool}
    (hm : (marked m).Finite) (lo hi : ι) :
    (marked (overlay m (fun _ => true) lo hi)).ncard =
        (marked m).ncard + (Set.Ico lo hi).ncard ↔
      ∀ p, lo ≤ p → p < hi → m p = false := by
  have hIco : (Set.Ico lo hi).Finite := Set.finite_Ico lo hi
  have hsum := Set.ncard_union_add_ncard_inter (marked m) (Set.Ico lo hi) hm hIco
  have hinter : (marked m ∩ Set.Ico lo hi).Finite := hm.inter_of_left _
  rw [marked_overlay]
  constructor
  · intro heq p hlo hhi
    have hzero : (marked m ∩ Set.Ico lo hi).ncard = 0 := by omega
    rw [Set.ncard_eq_zero hinter] at hzero
    by_contra hp
    have hmem : p ∈ marked m ∩ Set.Ico lo hi :=
      ⟨by simpa [marked] using hp, hlo, hhi⟩
    rw [hzero] at hmem
    exact hmem
  · intro hnone
    have hempty : marked m ∩ Set.Ico lo hi = ∅ := by
      ext p
      simp only [marked, Set.mem_inter_iff, Set.mem_ofPred_eq, Set.mem_Ico,
        Set.mem_empty_iff_false, iff_false]
      rintro ⟨hp, hlo, hhi⟩
      rw [hnone p hlo hhi] at hp
      cases hp
    rw [hempty, Set.ncard_empty] at hsum
    omega

end Marks

section Slice

variable [Add ι] [NatCast ι]

/-- The `n` cells from address `pos` on. -/
def slice (m : ι → α) (pos : ι) (n : ℕ) : List α :=
  (List.range n).map fun i : ℕ => m (pos + (i : ι))

@[simp] theorem slice_length (m : ι → α) (pos : ι) (n : ℕ) :
    (slice m pos n).length = n := by
  simp [slice]

/-- Two slices at the same address agree exactly when their cells do. -/
theorem slice_eq_slice_iff {m m' : ι → α} {pos : ι} {n : ℕ} :
    slice m pos n = slice m' pos n ↔
      ∀ i : ℕ, i < n → m (pos + (i : ι)) = m' (pos + (i : ι)) := by
  simp [slice]

end Slice

/-- What was copied from `start` to `offset` is found there. -/
theorem slice_copied {m src : ℕ → α} {offset start n k : ℕ} (h : n ≤ k) :
    slice (overlay m (fun p => src (start + (p - offset))) offset (offset + k)) offset n =
      slice src start n := by
  unfold slice
  apply List.map_congr_left
  intro i hi
  rw [List.mem_range] at hi
  simp only [Nat.cast_id]
  rw [overlay_inside (by omega) (by omega), Nat.add_sub_cancel_left]

end Memory
