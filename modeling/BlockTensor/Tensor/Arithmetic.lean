import BlockTensor.Block.Values
import BlockTensor.Metadata.Difference

/-!
# Arithmetic on tensors

Operands of a sum need equal metadata, gradients included. The gradient of a
sum is the sum of the gradients, a scaled tensor has scaled gradients, and a
constant leaves the gradients alone. Results are rebuilt through the checks.
-/

namespace BlockTensor

mutual
/-- The sum of two blocks, gradient by gradient; the order is that of the left
block. -/
def Block.add : Block → Block → Except Error Block
  | ⟨values, samples, components, properties, gradients⟩, other => do
    let made ← Block.make (← values.add other.values) samples components properties
    gradients.addOnto other made
def Gradients.addOnto : Gradients → (other parent : Block) → Except Error Block
  | .nil, _, parent => .ok parent
  | .cons parameter gradient rest, other, parent => do
    let sum ← gradient.add (← other.gradient parameter)
    rest.addOnto other (← parent.addGradient parameter sum)
end

namespace Tensor

def mapBlocks (f : Block → Except Error Block) (tensor : Tensor) : Except Error Tensor := do
  make tensor.keys (← tensor.blocks.mapM f)

def mapValues (f : Values → Values) : Tensor → Except Error Tensor :=
  mapBlocks fun block => block.mapValues fun values => .ok (f values)

def add (left right : Tensor) : Except Error Tensor :=
  match left.difference? .all right with
  | some difference => .error (.metadataMismatch difference)
  | none => do
    let blocks ← (left.blocks.zip right.blocks).mapM fun (block, other) => block.add other
    make left.keys blocks

def multiply (scalar : Double) : Tensor → Except Error Tensor := mapValues (Values.mulScalar scalar)

def subtract (left right : Tensor) : Except Error Tensor := do
  left.add (← right.multiply .minusOne)

/-- Adds a constant to the values. Gradients stay as they are. -/
def addScalar (scalar : Double) : Tensor → Except Error Tensor :=
  mapBlocks fun block => block.withValues (block.values.addScalar scalar)

def subtractScalar (scalar : Double) : Tensor → Except Error Tensor := addScalar scalar.neg

def zerosLike : Tensor → Except Error Tensor := mapValues Values.zeroed

/-- Numbers from 0 to 1 under the same metadata. Every array has a source of
its own, found by the position of its block and its path. -/
def uniformFrom (draw : Nat → List String → Nat → Float) (tensor : Tensor) :
    Except Error Tensor := do
  let blocks ← tensor.blocks.zipIdx.mapM fun (block, position) =>
    block.mapArrays (fun path values =>
      .ok (values.redrawn (draw position path) .zero .one)) []
  make tensor.keys blocks

/-- Numbers from one source, which every array reads from its start. -/
def uniformLike (draw : Nat → Float) : Tensor → Except Error Tensor := uniformFrom fun _ _ => draw

def equal (left right : Tensor) : Bool :=
  left.keys == right.keys && left.blocks.length == right.blocks.length &&
    (left.blocks.zip right.blocks).all fun (block, other) => block.equal other

end Tensor

end BlockTensor
