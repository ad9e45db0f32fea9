import BlockTensor.Check
import BlockTensor.Error
import BlockTensor.Ieee

/-!
# Atomic systems

Atom types, positions and unit cell. A cell of zeros stands for a system that
is not periodic.
-/

namespace BlockTensor

structure Point where
  x : Double
  y : Double
  z : Double
  deriving DecidableEq

structure Cell where
  a : Point
  b : Point
  c : Point
  deriving DecidableEq

def Point.origin : Point := ⟨.zero, .zero, .zero⟩

def Cell.zero : Cell := ⟨.origin, .origin, .origin⟩

def Point.coordinates (p : Point) : List Double := [p.x, p.y, p.z]

def Cell.coordinates (cell : Cell) : List Double :=
  cell.a.coordinates ++ cell.b.coordinates ++ cell.c.coordinates

structure Atoms where
  types : List Int32
  positions : List Point
  cell : Cell
  deriving DecidableEq

namespace Atoms

def make (types : List Int32) (positions : List Point) (cell : Cell) : Except Error Atoms := do
  ensure (types.length = positions.length)
    (.lengthMismatch .positions types.length positions.length)
  pure ⟨types, positions, cell⟩

def nonPeriodic (types : List Int32) (positions : List Point) : Except Error Atoms :=
  make types positions .zero

def length (atoms : Atoms) : Nat := atoms.types.length

def isEmpty (atoms : Atoms) : Bool := atoms.types.isEmpty

/-- Whether some cell coordinate is not a zero; a NaN is none. -/
def isPeriodic (atoms : Atoms) : Bool :=
  atoms.cell.coordinates.any fun x => !x.equal .zero

end Atoms

end BlockTensor
