/-
Observed examples of a value, by key. A merge keeps the first example of each key and only the
examples with the smallest keys, so that a node holds a bounded number of them.
-/
import ApiShape.Table

namespace ApiShape

/-- Example texts by key. -/
abbrev Examples := Table String

namespace Examples

/-- How many examples a merge keeps. -/
def capacity : Nat := 2

/-- Adds the examples whose keys are new, then keeps those with the smallest keys. -/
def merge (e other : Examples) : Examples :=
  (other.foldl (fun t row => Table.insertNew t row.1 row.2) e).take capacity

theorem length_merge_le (e other : Examples) : (merge e other).length ≤ capacity :=
  List.length_take_le _ _

end Examples

end ApiShape
