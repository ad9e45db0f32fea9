import BlockTensor.Block.Valid
import BlockTensor.Tensor.Basic

/-!
# Valid tensors

`Tensor.Valid` is what tensors promise: valid keys, one valid block per key,
and names and gradients on which every two blocks agree. `HasDType` fixes the
element type at every depth; a tensor may mix element types across its blocks.
-/

namespace BlockTensor

structure Gradients.Agree (left right : Gradients) : Prop where
  parameters : ∀ parameter, parameter ∈ left.parameters ↔ parameter ∈ right.parameters
  sampleNames : ∀ parameter a b, left.find? parameter = some a → right.find? parameter = some b →
    a.samples.names = b.samples.names

structure Block.Agree (left right : Block) : Prop where
  sampleNames : left.samples.names = right.samples.names
  componentNames : left.componentNames = right.componentNames
  propertyNames : left.properties.names = right.properties.names
  gradients : left.gradients.Agree right.gradients

structure Tensor.Valid (tensor : Tensor) : Prop where
  keys : tensor.keys.Valid
  count : tensor.keys.length = tensor.blocks.length
  blocks : ∀ block ∈ tensor.blocks, block.Valid
  agree : ∀ left ∈ tensor.blocks, ∀ right ∈ tensor.blocks, left.Agree right

mutual
def Block.HasDType (dtype : DType) : Block → Prop
  | ⟨values, _, _, _, gradients⟩ => values.dtype = dtype ∧ gradients.HaveDType dtype
def Gradients.HaveDType (dtype : DType) : Gradients → Prop
  | .nil => True
  | .cons _ gradient rest => gradient.HasDType dtype ∧ rest.HaveDType dtype
end

def Tensor.HasDType (dtype : DType) (tensor : Tensor) : Prop :=
  ∀ block ∈ tensor.blocks, block.HasDType dtype

end BlockTensor
