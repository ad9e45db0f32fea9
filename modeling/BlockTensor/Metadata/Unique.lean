import BlockTensor.Labels.Algebra
import BlockTensor.Labels.Construct
import BlockTensor.Tensor.Basic

/-!
# Unique metadata along an axis

The values of some columns along one axis, across all blocks or across one
gradient of every block: each distinct row once, in ascending order.
-/

namespace BlockTensor

namespace Axis

def ofName (text : String) : Except Error Axis :=
  match text with
  | "samples" => .ok samples
  | "properties" => .ok properties
  | other => .error (.invalidArgument (.unknownAxis other))

def labels (axis : Axis) (block : Block) : Labels :=
  match axis with
  | samples => block.samples
  | properties => block.properties

def checkHasNames (axis : Axis) (names : List String) (block : Block) : Except Error Unit :=
  match names.find? fun name => !(axis.labels block).names.contains name with
  | some missing =>
    .error (.invalidArgument (.missingName missing axis (axis.labels block).names))
  | none => .ok ()

def uniqueRows (axis : Axis) (names : List String) (blocks : List Block) :
    Except Error Labels := do
  blocks.forM (axis.checkHasNames names)
  let projections ← blocks.mapM fun block => (axis.labels block).select names
  let rows ← Rows.ofFlat names (projections.flatMap Rows.flat)
  pure rows.unique

end Axis

/-- The blocks themselves, or the gradient with respect to one parameter of
every block. -/
def targets (parameter : Option String) (blocks : List Block) : Except Error (List Block) :=
  match parameter with
  | none => .ok blocks
  | some parameter => blocks.mapM fun block => block.gradient parameter

def Tensor.uniqueMetadata (tensor : Tensor) (axis : Axis) (names : List String)
    (parameter : Option String) : Except Error Labels := do
  axis.uniqueRows names (← targets parameter tensor.blocks)

def Block.uniqueMetadata (block : Block) (axis : Axis) (names : List String)
    (parameter : Option String) : Except Error Labels := do
  axis.uniqueRows names (← targets parameter [block])

end BlockTensor
