import DirectPackageInstaller.Lib.LittleEndian
import Mathlib.Data.List.TakeDrop
import Mathlib.Tactic.Common

/-!
# Copying through two pointers

`*target++ = *source++` for cells of `w` bytes, some number of times.  A cell
outside of its array is undefined in C, and `none` here.

* `moves_eq`: inside both arrays this is the plain copy of the range.
* `moves_eq_none`: what does not fit runs over the end.
* `copied_copied`: a copy may be split anywhere.
-/

namespace ByteCopy

/-- A list with the elements from `p` on replaced by `xs`. -/
def splice {α : Type*} (target : List α) (p : Nat) (xs : List α) : List α :=
  target.take p ++ xs ++ target.drop (p + xs.length)

section Splice

variable {α : Type*} {target xs ys : List α} {p : Nat}

theorem length_splice (h : p + xs.length ≤ target.length) :
    (splice target p xs).length = target.length := by
  simp only [splice, List.length_append, List.length_take, List.length_drop]
  omega

@[simp] theorem splice_nil (target : List α) (p : Nat) : splice target p [] = target := by
  simp [splice]

/-- Two splices one behind the other. -/
theorem splice_splice (h : p + xs.length ≤ target.length) :
    splice (splice target p xs) (p + xs.length) ys = splice target p (xs ++ ys) := by
  have hfront : (target.take p ++ xs).length = p + xs.length := by
    rw [List.length_append, List.length_take_of_le (by omega)]
  have hleft : (splice target p xs).take (p + xs.length) = target.take p ++ xs := by
    rw [splice, ← hfront]
    exact List.take_left
  have hright : (splice target p xs).drop (p + xs.length + ys.length) =
      target.drop (p + (xs ++ ys).length) := by
    have htake : (target.take p).length = p := List.length_take_of_le (by omega)
    rw [splice, ← hfront, List.drop_append, List.drop_of_length_le (Nat.le_add_right _ _),
      List.nil_append, Nat.add_sub_cancel_left, List.drop_drop, List.length_append,
      List.length_append, htake, Nat.add_assoc]
  rw [splice, hleft, hright, splice, List.append_assoc (target.take p)]

/-- What was spliced in is found there. -/
theorem take_drop_splice (h : p + xs.length ≤ target.length) :
    ((splice target p xs).drop p).take xs.length = xs := by
  have hfront : (target.take p).length = p := List.length_take_of_le (by omega)
  have hdrop : (splice target p xs).drop p = xs ++ target.drop (p + xs.length) := by
    rw [splice, List.append_assoc]
    exact List.drop_left' hfront
  rw [hdrop, List.take_left]

end Splice

/-- Two arrays with a pointer into each. -/
structure Pointers where
  source : List UInt8
  target : List UInt8
  sourceAt : Nat
  targetAt : Nat
deriving DecidableEq, Repr

/-- The `w` bytes at `p` as one cell. -/
def load (w : Nat) (bytes : List UInt8) (p : Nat) : Option Nat :=
  if p + w ≤ bytes.length then some (LittleEndian.value ((bytes.drop p).take w))
  else none

/-- The cell is stored in the `w` bytes at `p`. -/
def store (w : Nat) (bytes : List UInt8) (p cell : Nat) : Option (List UInt8) :=
  if p + w ≤ bytes.length then some (splice bytes p (LittleEndian.bytes w cell))
  else none

/-- `*target++ = *source++` for a cell of `w` bytes. -/
def move (w : Nat) (c : Pointers) : Option Pointers :=
  (load w c.source c.sourceAt).bind fun cell =>
    (store w c.target c.targetAt cell).map fun target =>
      { c with target, sourceAt := c.sourceAt + w, targetAt := c.targetAt + w }

/-- So many cells. -/
def moves (w : Nat) : Nat → Pointers → Option Pointers
  | 0, c => some c
  | k + 1, c => (move w c).bind (moves w k)

/-- `n` bytes are left in both arrays. -/
def Fits (n : Nat) (c : Pointers) : Prop :=
  c.sourceAt + n ≤ c.source.length ∧ c.targetAt + n ≤ c.target.length

/-- The plain copy of `n` bytes. -/
def copied (n : Nat) (c : Pointers) : Pointers where
  source := c.source
  target := splice c.target c.targetAt ((c.source.drop c.sourceAt).take n)
  sourceAt := c.sourceAt + n
  targetAt := c.targetAt + n

variable {w k n m : Nat} {c : Pointers}

theorem length_range (h : Fits n c) : ((c.source.drop c.sourceAt).take n).length = n := by
  have hsource := h.1
  rw [List.length_take, List.length_drop]
  omega

theorem length_target_copied (h : Fits n c) :
    (copied n c).target.length = c.target.length := by
  apply length_splice
  rw [length_range h]
  exact h.2

theorem fits_copied (h : Fits n c) : Fits m (copied n c) ↔ Fits (n + m) c := by
  unfold Fits
  rw [length_target_copied h]
  show c.sourceAt + n + m ≤ c.source.length ∧ c.targetAt + n + m ≤ c.target.length ↔ _
  omega

@[simp] theorem copied_zero (c : Pointers) : copied 0 c = c := by
  unfold copied
  rw [List.take_zero, splice_nil]
  rfl

/-- A copy may be split anywhere. -/
theorem copied_copied (h : Fits n c) : copied m (copied n c) = copied (n + m) c := by
  have hrange := length_range h
  have htarget : splice (copied n c).target (copied n c).targetAt
      (((copied n c).source.drop (copied n c).sourceAt).take m) =
        splice c.target c.targetAt ((c.source.drop c.sourceAt).take (n + m)) := by
    show splice (splice c.target c.targetAt _) (c.targetAt + n)
      ((c.source.drop (c.sourceAt + n)).take m) = _
    rw [List.take_add, List.drop_drop, ← splice_splice (by rw [hrange]; exact h.2), hrange]
  unfold copied at htarget ⊢
  rw [htarget, Nat.add_assoc, Nat.add_assoc]

/-- One cell is `w` bytes. -/
theorem move_eq (h : Fits w c) : move w c = some (copied w c) := by
  have hload : load w c.source c.sourceAt =
      some (LittleEndian.value ((c.source.drop c.sourceAt).take w)) := if_pos h.1
  have hbytes := LittleEndian.bytes_value ((c.source.drop c.sourceAt).take w)
  rw [length_range h] at hbytes
  unfold move
  rw [hload, Option.bind_some, store, if_pos h.2, hbytes]
  rfl

theorem move_eq_none (h : ¬ Fits w c) : move w c = none := by
  unfold move
  by_cases hsource : c.sourceAt + w ≤ c.source.length
  · have htarget : ¬ c.targetAt + w ≤ c.target.length := fun htarget => h ⟨hsource, htarget⟩
    rw [load, if_pos hsource, Option.bind_some, store, if_neg htarget, Option.map_none]
  · rw [load, if_neg hsource, Option.bind_none]

/-- Cells that fit are copied like bytes. -/
theorem moves_eq (h : Fits (w * k) c) : moves w k c = some (copied (w * k) c) := by
  induction k generalizing c with
  | zero => simp [moves]
  | succ k ih =>
    have hsplit : w * (k + 1) = w + w * k := by rw [Nat.mul_succ, Nat.add_comm]
    rw [hsplit] at h ⊢
    have hfirst : Fits w c := ⟨by have := h.1; omega, by have := h.2; omega⟩
    rw [moves, move_eq hfirst, Option.bind_some, ih ((fits_copied hfirst).2 h),
      copied_copied hfirst]

/-- Cells that do not fit are not copied. -/
theorem moves_eq_none (h : ¬ Fits (w * k) c) (hc : Fits 0 c) : moves w k c = none := by
  induction k generalizing c with
  | zero => exact absurd hc h
  | succ k ih =>
    have hsplit : w * (k + 1) = w + w * k := by rw [Nat.mul_succ, Nat.add_comm]
    rw [hsplit] at h
    by_cases hfirst : Fits w c
    · rw [moves, move_eq hfirst, Option.bind_some]
      apply ih
      · rwa [fits_copied hfirst]
      · rwa [fits_copied hfirst]
    · rw [moves, move_eq_none hfirst, Option.bind_none]

/-- Some bytes one by one, and then words. -/
theorem moves_bytes_words (h : Fits (k + w * m) c) :
    (moves 1 k c).bind (moves w m) = some (copied (k + w * m) c) := by
  have hbytes : Fits (1 * k) c := ⟨by have := h.1; omega, by have := h.2; omega⟩
  rw [Nat.one_mul] at hbytes
  have hfirst : moves 1 k c = some (copied (1 * k) c) := moves_eq (by rwa [Nat.one_mul])
  rw [hfirst, Nat.one_mul, Option.bind_some, moves_eq ((fits_copied hbytes).2 h),
    copied_copied hbytes]

theorem moves_bytes_words_eq_none (h : ¬ Fits (k + w * m) c) (hc : Fits 0 c) :
    (moves 1 k c).bind (moves w m) = none := by
  by_cases hbytes : Fits k c
  · have hfirst : moves 1 k c = some (copied (1 * k) c) := moves_eq (by rwa [Nat.one_mul])
    rw [hfirst, Nat.one_mul, Option.bind_some]
    apply moves_eq_none
    · rwa [fits_copied hbytes]
    · rwa [fits_copied hbytes]
  · rw [moves_eq_none (by rwa [Nat.one_mul]) hc, Option.bind_none]

end ByteCopy
