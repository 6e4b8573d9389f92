import Mathlib.Data.List.Basic
import Mathlib.Tactic.Common

/-!
# Writing into a buffer of fixed length

`overwrite source target index` replaces the elements of `target` from `index`
on by those of `source`.  It does not change the length.

* `getElem?_overwrite`: each element afterwards.
* `region_overwrite`: the source is read back where it was written.
* `overwrite_overwrite`: two writes, one behind the other, are one write.
-/

namespace Patch

variable {α : Type*}

/-- `target` with `source` written over it from `index` on. -/
def overwrite (source target : List α) (index : Nat) : List α :=
  target.take index ++ source ++ target.drop (index + source.length)

/-- The `count` elements from `index` on. -/
def region (target : List α) (index count : Nat) : List α :=
  (target.drop index).take count

variable {source target : List α} {index : Nat}

theorem length_overwrite (h : index + source.length ≤ target.length) :
    (overwrite source target index).length = target.length := by
  simp [overwrite]
  omega

theorem getElem?_overwrite (h : index + source.length ≤ target.length) (i : Nat) :
    (overwrite source target index)[i]? =
      if index ≤ i ∧ i < index + source.length then source[i - index]? else target[i]? := by
  have hfront : (target.take index).length = index := by
    rw [List.length_take]
    omega
  rw [overwrite, List.append_assoc]
  by_cases hlo : i < index
  · rw [List.getElem?_append_left (by omega), List.getElem?_take_of_lt hlo, if_neg (by omega)]
  rw [List.getElem?_append_right (by omega), hfront]
  by_cases hhi : i < index + source.length
  · rw [List.getElem?_append_left (by omega), if_pos ⟨by omega, hhi⟩]
  · rw [List.getElem?_append_right (by omega), List.getElem?_drop, if_neg (by omega)]
    congr 1
    omega

/-- What was written is read back. -/
theorem region_overwrite (h : index + source.length ≤ target.length) :
    region (overwrite source target index) index source.length = source := by
  have hfront : (target.take index).length = index := by
    rw [List.length_take]
    omega
  rw [region, overwrite, List.append_assoc, List.drop_append_of_le_length (by omega),
    List.drop_of_length_le (by omega), List.nil_append, List.take_left]

/-- A write behind another one. -/
theorem overwrite_overwrite {next : List α}
    (h : index + source.length + next.length ≤ target.length) :
    overwrite next (overwrite source target index) (index + source.length) =
      overwrite (source ++ next) target index := by
  apply List.ext_getElem?
  intro i
  have hsource : index + source.length ≤ target.length := by omega
  rw [getElem?_overwrite (by rw [length_overwrite hsource]; omega),
    getElem?_overwrite hsource,
    getElem?_overwrite (by rw [List.length_append]; omega), List.length_append]
  by_cases hlo : i < index
  · rw [if_neg (by omega), if_neg (by omega), if_neg (by omega)]
  by_cases hmid : i < index + source.length
  · rw [if_neg (by omega), if_pos ⟨by omega, hmid⟩, if_pos ⟨by omega, by omega⟩,
      List.getElem?_append_left (by omega)]
  by_cases hhi : i < index + source.length + next.length
  · rw [if_pos ⟨by omega, hhi⟩, if_pos ⟨by omega, by omega⟩,
      List.getElem?_append_right (by omega)]
    congr 1
    omega
  · rw [if_neg (by omega), if_neg (by omega), if_neg (by omega)]

end Patch
