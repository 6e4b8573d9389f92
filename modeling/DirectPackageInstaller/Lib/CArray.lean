import Mathlib.Data.List.Basic
import Mathlib.Tactic.Common

/-!
# Arrays of fixed size with checked accesses

A C array of `n` elements is a list of length `n`.  An access outside of it is
undefined in C, and a `Fault` here.  A position in an array is best given by
the elements in front of it: `get_at` and `put_at` access the element behind
them.
-/

namespace CArray

/-- What must not happen. -/
inductive Fault where
  /-- An index that is not in its array. -/
  | index
  /-- A count that is negative, or more than the room in the array. -/
  | count
deriving DecidableEq, Repr

variable {α : Type*}

/-- `a[i]`. -/
def get (a : List α) (i : Nat) : Except Fault α :=
  match a[i]? with
  | some c => .ok c
  | none => .error .index

/-- `a[i] = c`. -/
def put (a : List α) (i : Nat) (c : α) : Except Fault (List α) :=
  if i < a.length then .ok (a.set i c) else .error .index

theorem get_at (front : List α) (c : α) (back : List α) :
    get (front ++ c :: back) front.length = .ok c := by
  have hc : (front ++ c :: back)[front.length]? = some c := by simp
  rw [get, hc]

theorem put_at (front : List α) (c d : α) (back : List α) :
    put (front ++ c :: back) front.length d = .ok (front ++ d :: back) := by
  have hlt : front.length < (front ++ c :: back).length := by simp
  rw [put, if_pos hlt, List.set_append_right _ _ (Nat.le_refl _), Nat.sub_self]
  rfl

end CArray
