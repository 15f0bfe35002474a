/-
Totals of lists of numbers.
-/

namespace Isolation

/-- the sum of all numbers of a list -/
def total : List Nat → Nat
  | [] => 0
  | n :: rest => n + total rest

theorem total_append (xs ys : List Nat) : total (xs ++ ys) = total xs + total ys := by
  induction xs with
  | nil => simp [total]
  | cons n rest ih => simp [total, ih, Nat.add_assoc]

end Isolation
