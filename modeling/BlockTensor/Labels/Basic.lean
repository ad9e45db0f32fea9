/-!
# Label rows and labels

`Rows` are named columns of 32-bit integers in which a row may repeat. `Labels`
are rows that are meant to be distinct: an ordered set of entries. Both are
plain data; the checked constructors are in `BlockTensor.Labels.Construct`.
-/

namespace BlockTensor

abbrev LabelValue := Int32

/-- One value per column. -/
abbrev Entry := List LabelValue

structure Rows where
  names : List String
  entries : List Entry
  deriving DecidableEq

/-- Rows whose entries are distinct, once built by a checked constructor. The
order of the entries is part of the value. -/
structure Labels extends Rows
  deriving DecidableEq

namespace Rows

def size (rows : Rows) : Nat := rows.names.length

def length (rows : Rows) : Nat := rows.entries.length

def isEmpty (rows : Rows) : Bool := rows.entries.isEmpty

def flat (rows : Rows) : List LabelValue := rows.entries.flatten

end Rows

namespace Labels

/-- The labels of a tensor with one block: one column `_` and one entry. -/
def single : Labels := ⟨["_"], [[0]]⟩

def countDistinct (all : List Labels) : Nat := all.eraseDups.length

end Labels

end BlockTensor
