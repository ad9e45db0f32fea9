import BlockTensor.Block.Basic
import BlockTensor.Labels.Lookup

/-!
# Tensors

A tensor is a list of blocks under keys, one block per key entry, in the same
order. `Tensor.make` checks the number of blocks and that every block agrees
with the first one on names and gradients.
-/

namespace BlockTensor

structure Tensor where
  keys : Labels
  blocks : List Block

namespace Block

def componentNames (block : Block) : List (List String) :=
  block.components.map fun component => component.names

end Block

namespace Tensor

def checkGradientNames (first : Gradients) : List (String × Block) → Except Error Unit
  | [] => .ok ()
  | (parameter, gradient) :: rest =>
    match first.find? parameter with
    | none => .error (.inconsistentBlocks (.missingGradient parameter))
    | some expected => do
      ensure (expected.samples.names = gradient.samples.names)
        (.inconsistentBlocks
          (.gradientSampleNames parameter gradient.samples.names expected.samples.names))
      checkGradientNames first rest

def checkAgrees (first block : Block) : Except Error Unit := do
  ensure (block.samples.names = first.samples.names)
    (.inconsistentBlocks (.sampleNames block.samples.names first.samples.names))
  ensure (block.componentNames = first.componentNames) (.inconsistentBlocks .componentNames)
  ensure (block.properties.names = first.properties.names)
    (.inconsistentBlocks (.propertyNames block.properties.names first.properties.names))
  ensure (block.gradients.parameters.length = first.gradients.parameters.length)
    (.inconsistentBlocks .gradientCount)
  checkGradientNames first.gradients block.gradients.toList

def checkConsistent : List Block → Except Error Unit
  | [] => .ok ()
  | first :: rest => rest.forM (checkAgrees first)

def make (keys : Labels) (blocks : List Block) : Except Error Tensor := do
  ensure (keys.length = blocks.length) (.lengthMismatch .blocks keys.length blocks.length)
  checkConsistent blocks
  pure ⟨keys, blocks⟩

def length (tensor : Tensor) : Nat := tensor.blocks.length

def isEmpty (tensor : Tensor) : Bool := tensor.blocks.isEmpty

def items (tensor : Tensor) : List (Entry × Block) := tensor.keys.entries.zip tensor.blocks

def sampleNames (tensor : Tensor) : Option (List String) :=
  tensor.blocks.head?.map fun block => block.samples.names

def componentNames (tensor : Tensor) : Option (List (List String)) :=
  tensor.blocks.head?.map fun block => block.componentNames

def propertyNames (tensor : Tensor) : Option (List String) :=
  tensor.blocks.head?.map fun block => block.properties.names

end Tensor

end BlockTensor
