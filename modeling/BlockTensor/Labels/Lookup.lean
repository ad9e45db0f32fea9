import BlockTensor.Labels.Index
import BlockTensor.Labels.Names
import BlockTensor.Selection
import BlockTensor.Word

/-!
# Finding entries and columns

Rows are found by position, columns by name and entries by some of their
values. A projection keeps the row order and may repeat rows, so it gives
`Rows`, not `Labels`.
-/

namespace BlockTensor

namespace Rows

/-- The row that an index names. -/
def row? (rows : Rows) (index : UInt64) : Option Entry := rows.entries[index.toNat]?

/-- The row at an index is looked for among the flat values, between two words. A
large index stops the program when these are computed, before the values are
asked for. -/
def get (rows : Rows) (index : UInt64) : Except Panic (Option Entry) := do
  let size := UInt64.ofNat rows.size
  let first ← Word.product index size
  let next ← Word.sum index 1
  let last ← Word.product next size
  if first ≤ last ∧ last.toNat ≤ rows.flat.length then
    pure (some ((rows.flat.drop first.toNat).take (last.toNat - first.toNat)))
  else
    pure none

def columns (rows : Rows) (names : List String) : Except Error (List Nat) :=
  names.mapM fun name =>
    match rows.names.idxOf? name with
    | some position => .ok position
    | none => .error (.unknownColumn name rows.names)

def project (columns : List Nat) (entry : Entry) : Entry :=
  columns.map fun column => entry.getD column 0

def select (rows : Rows) (names : List String) : Except Error Rows := do
  let columns ← rows.columns names
  Labels.checkNames names
  pure ⟨names, rows.entries.map (project columns)⟩

def column (rows : Rows) (name : String) : Except Error (List LabelValue) := do
  let columns ← rows.columns [name]
  pure (rows.entries.flatMap (project columns))

end Rows

namespace Labels

def entryAt (labels : Labels) (index : UInt64) : Except Panic Entry := do
  match ← labels.get index with
  | some entry => pure entry
  | none => .error (.outOfBounds index labels.length)

/-- Positions of the entries that have every selected value. The empty selection
matches every entry. -/
def matching (labels : Labels) (selection : List (String × LabelValue)) :
    Except Error (List Nat) := do
  let columns ← labels.columns (selection.map fun item => item.1)
  let wanted := selection.map fun item => item.2
  pure (positionsWhere (fun entry => Rows.project columns entry == wanted) labels.entries)

end Labels

end BlockTensor
