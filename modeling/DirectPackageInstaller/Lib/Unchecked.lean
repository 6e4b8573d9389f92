import Mathlib.Algebra.Order.Ring.Int
import Mathlib.Tactic.Common

/-!
# Unchecked arithmetic

What a sum or difference means as an `int` or a `long` when nothing checks for
overflow.  `toInt_eq` and `toLong_eq` are the results that fit, and
`toInt_overflow` and `toLong_overflow` the ones that a single sum can overflow to.
-/

namespace Unchecked

/-- The value of an `int` expression. -/
def toInt (n : Int) : Int := n.bmod (2 ^ 32)

/-- The value of a `long` expression. -/
def toLong (n : Int) : Int := n.bmod (2 ^ 64)

theorem toInt_eq {n : Int} (hlow : -2 ^ 31 ≤ n) (hhigh : n < 2 ^ 31) : toInt n = n := by
  unfold toInt Int.bmod
  dsimp only
  split <;> omega

/-- An overflow is negative. -/
theorem toInt_overflow {n : Int} (hlow : 2 ^ 31 ≤ n) (hhigh : n < 2 ^ 32) :
    toInt n = n - 2 ^ 32 := by
  unfold toInt Int.bmod
  dsimp only
  split <;> omega

theorem toLong_eq {n : Int} (hlow : -2 ^ 63 ≤ n) (hhigh : n < 2 ^ 63) : toLong n = n := by
  unfold toLong Int.bmod
  dsimp only
  split <;> omega

theorem toLong_overflow {n : Int} (hlow : 2 ^ 63 ≤ n) (hhigh : n < 2 ^ 64) :
    toLong n = n - 2 ^ 64 := by
  unfold toLong Int.bmod
  dsimp only
  split <;> omega

end Unchecked
