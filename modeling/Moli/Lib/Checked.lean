import Mathlib.Algebra.Order.Ring.Int

/-!
# Checked arithmetic

Sums and differences of 64-bit words, `none` where they leave the range.
-/

namespace Lib

/-- The largest 64-bit word. -/
def u64Max : Nat := 2 ^ 64 - 1

def checkedAdd (a b : Nat) : Option Nat := if a + b < 2 ^ 64 then some (a + b) else none

def checkedSub (a b : Nat) : Option Nat := if b ≤ a then some (a - b) else none

variable {a b c : Nat}

theorem checkedAdd_of_lt (h : a + b < 2 ^ 64) : checkedAdd a b = some (a + b) := if_pos h

theorem checkedAdd_of_le (h : a + b ≤ u64Max) : checkedAdd a b = some (a + b) :=
  checkedAdd_of_lt (Nat.lt_of_le_sub_one (by decide) h)

theorem checkedAdd_eq_some_iff : checkedAdd a b = some c ↔ a + b ≤ u64Max ∧ a + b = c := by
  rw [checkedAdd, Option.ite_none_right_eq_some, Option.some.injEq, u64Max,
    Nat.le_sub_one_iff_lt (by decide)]

theorem checkedSub_of_le (h : b ≤ a) : checkedSub a b = some (a - b) := if_pos h

end Lib
