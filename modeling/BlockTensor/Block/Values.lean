import BlockTensor.Block.Basic

/-!
# New values in an old block

`withValues` replaces the values and keeps the gradients as they are.
`mapArrays` replaces the values of the block and of every gradient, at every
depth, and rebuilds the block through the checks; `mapValues` does so in the
same way everywhere. `equal` compares two blocks, numbers as numbers and all
else exactly.
-/

namespace BlockTensor

def Block.withValues (block : Block) (values : Values) : Except Error Block := do
  let made ← Block.make values block.samples block.components block.properties
  pure { made with gradients := block.gradients }

mutual
/-- Applies `f` to every value array, gradients included. The path of an array
are the parameters that lead to it, the innermost first. -/
def Block.mapArrays (f : List String → Values → Except Error Values) (path : List String) :
    Block → Except Error Block
  | ⟨values, samples, components, properties, gradients⟩ => do
    let made ← Block.make (← f path values) samples components properties
    gradients.mapOnto f path made
def Gradients.mapOnto (f : List String → Values → Except Error Values) (path : List String) :
    Gradients → Block → Except Error Block
  | .nil, parent => .ok parent
  | .cons parameter gradient rest, parent => do
    let mapped ← gradient.mapArrays f (parameter :: path)
    rest.mapOnto f path (← parent.addGradient parameter mapped)
end

def Block.mapValues (f : Values → Except Error Values) : Block → Except Error Block :=
  Block.mapArrays (fun _ => f) []

mutual
/-- Equal labels, gradients in the same order, and equal numbers. -/
def Block.equal : Block → Block → Bool
  | ⟨values, samples, components, properties, gradients⟩, other =>
    values.equal other.values && samples == other.samples && components == other.components &&
      properties == other.properties && gradients.equal other.gradients
def Gradients.equal : Gradients → Gradients → Bool
  | .nil, .nil => true
  | .cons parameter gradient rest, .cons parameter' gradient' rest' =>
    parameter == parameter' && gradient.equal gradient' && rest.equal rest'
  | _, _ => false
end

end BlockTensor
