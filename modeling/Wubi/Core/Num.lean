import Mathlib.Algebra.Order.Ring.Rat
import Mathlib.Algebra.Order.Field.Basic

/-!
# Python 2 numbers

`Task.completed`, `Task.size` and `Task.weight` are Python numbers: `int` or
`float`. The difference matters in one place, `/`, which floors on two `int`s.
Floats are exact rationals.
-/
namespace Wubi

inductive Num where
  | int (i : Int)
  | float (q : Rat)
  deriving DecidableEq, Repr

namespace Num

def val : Num → Rat
  | .int i => i
  | .float q => q

/-- `bool(x)`. -/
def truthy : Num → Bool
  | .int i => i != 0
  | .float q => q != 0

/-- `x >= y`. -/
def ge : Num → Num → Bool
  | .int a, .int b => decide (b ≤ a)
  | a, b => decide (b.val ≤ a.val)

/-- `x * y`. -/
def mul : Num → Num → Num
  | .int a, .int b => .int (a * b)
  | a, b => .float (a.val * b.val)

/-- `x / y` for `y != 0`; on two `int`s the quotient is floored. -/
def div : Num → Num → Num
  | .int a, .int b => .int (a.fdiv b)
  | a, b => .float (a.val / b.val)

theorem truthy_iff (x : Num) : x.truthy = true ↔ x.val ≠ 0 := by
  cases x <;> simp [truthy, val]

theorem ge_iff (x y : Num) : x.ge y = true ↔ y.val ≤ x.val := by
  cases x with
  | int a =>
    cases y with
    | int b => simp [ge, val]
    | float q => exact decide_eq_true_iff
  | float p => cases y <;> exact decide_eq_true_iff

theorem val_mul (x y : Num) : (x.mul y).val = x.val * y.val := by
  cases x <;> cases y <;> simp [mul, val]

end Num

end Wubi
