import BlockTensor.Check
import BlockTensor.Error
import BlockTensor.Labels.Index
import BlockTensor.Sorting

/-!
# Labels as ordered sets

`Rows.unique` is the sorted set of the rows. `Labels.union` and
`Labels.intersection` keep the order of their left operand and need equal names.
-/

namespace BlockTensor

/-- Signed lexicographic order of entries. -/
def Entry.le (left right : Entry) : Bool := decide (left ≤ right)

def dropRepeats : List Entry → List Entry
  | [] => []
  | [entry] => [entry]
  | entry :: next :: rest =>
    if entry = next then dropRepeats (next :: rest) else entry :: dropRepeats (next :: rest)

def Rows.unique (rows : Rows) : Labels :=
  ⟨rows.names, dropRepeats (sortBy Entry.le rows.entries)⟩

namespace Labels

def sorted (labels : Labels) : Labels := labels.unique

def checkSameNames (operation : String) (left right : Labels) : Except Error Unit :=
  ensure (left.names = right.names)
    (.invalidLabels (.differentNames operation left.names right.names))

/-- The entries of `left`, then the entries that only `right` has. -/
def union (left right : Labels) : Except Error Labels := do
  checkSameNames "union" left right
  pure ⟨left.names, left.entries ++ right.entries.filter fun entry => !left.contains entry⟩

def intersection (left right : Labels) : Except Error Labels := do
  checkSameNames "intersection" left right
  pure ⟨left.names, left.entries.filter fun entry => right.contains entry⟩

end Labels

end BlockTensor
