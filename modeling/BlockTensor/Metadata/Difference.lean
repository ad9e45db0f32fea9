import BlockTensor.Sorting
import BlockTensor.Tensor.Basic

/-!
# Differences of metadata

`Block.difference?` and `Tensor.difference?` find the first difference between
two blocks or tensors, if any. Flags choose which axes are compared. Gradients
are matched by parameter, so their order does not count.
-/

namespace BlockTensor

structure Compared where
  samples : Bool
  components : Bool
  properties : Bool
  deriving DecidableEq, Repr

namespace Compared

def all : Compared := ⟨true, true, true⟩
def samplesOnly : Compared := ⟨true, false, false⟩
def propertiesOnly : Compared := ⟨false, false, true⟩

end Compared

def componentDifference? (left right : List Labels) : Option BlockDifference :=
  if left.length ≠ right.length then some (.componentCount left.length right.length)
  else
    ((left.zip right).findIdx? fun pair => pair.1 != pair.2).map fun position =>
      .component (position + 1)

def Gradients.sortedParameters (gradients : Gradients) : List String :=
  sortBy (fun left right => decide (left ≤ right)) gradients.parameters

/-- The first difference outside the gradients of two blocks, and in the set of
their parameters. -/
def Block.ownDifference? (compared : Compared) (left right : Block) : Option BlockDifference :=
  if compared.samples ∧ left.samples ≠ right.samples then some .samples
  else
    match if compared.components then componentDifference? left.components right.components
      else none with
    | some difference => some difference
    | none =>
      if compared.properties ∧ left.properties ≠ right.properties then some .properties
      else if left.gradients.sortedParameters ≠ right.gradients.sortedParameters then
        some (.parameters left.gradients.sortedParameters right.gradients.sortedParameters)
      else none

mutual
def Block.difference? (compared : Compared) : Block → Block → Option BlockDifference
  | ⟨values, samples, components, properties, gradients⟩, other =>
    match Block.ownDifference? compared ⟨values, samples, components, properties, gradients⟩
      other with
    | some difference => some difference
    | none => gradients.difference? compared other.gradients
/-- The first difference between each gradient and the gradient of the same
parameter in `others`. -/
def Gradients.difference? (compared : Compared) : Gradients → Gradients → Option BlockDifference
  | .nil, _ => none
  | .cons parameter gradient rest, others =>
    match others.find? parameter with
    | none => none
    | some other =>
      match gradient.difference? compared other with
      | some difference => some (.gradient parameter difference)
      | none => rest.difference? compared others
end

def Block.sameMetadata (compared : Compared) (left right : Block) : Bool :=
  (left.difference? compared right).isNone

def Tensor.difference? (compared : Compared) (left right : Tensor) : Option Difference :=
  if left.keys ≠ right.keys then some (.keys left.keys right.keys)
  else
    (left.items.zip right.blocks).findSome? fun ((key, block), other) =>
      (block.difference? compared other).map (.block key)

def Tensor.sameMetadata (compared : Compared) (left right : Tensor) : Bool :=
  (left.difference? compared right).isNone

end BlockTensor
