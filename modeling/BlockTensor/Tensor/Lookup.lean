import BlockTensor.Tensor.Basic

/-!
# Blocks by key

A block is found by its position, by its full key entry, or by a selection of
key values. A selection that names every key column is a full key; any other
must match exactly one block.
-/

namespace BlockTensor.Tensor

def blockAt (tensor : Tensor) (index : Nat) : Except Error Block :=
  match tensor.blocks[index]? with
  | some block => .ok block
  | none => .error (.indexOutOfRange index tensor.blocks.length .blocks)

def blockOf (tensor : Tensor) (entry : Entry) : Except Error Block := do
  ensure (entry.length = tensor.keys.size)
    (.lengthMismatch .keyValues tensor.keys.size entry.length)
  match tensor.keys.position? entry with
  | some index => tensor.blockAt index
  | none => .error (.noMatchingBlock (tensor.keys.names.zip entry))

def blocksMatching (tensor : Tensor) (selection : List (String × LabelValue)) :
    Except Error (List Block) := do
  pure (pick (← tensor.keys.matching selection) tensor.blocks)

def isFullKey (names : List String) (selection : List (String × LabelValue)) : Bool :=
  names.all fun name => selection.any fun item => item.1 == name

def block (tensor : Tensor) (selection : List (String × LabelValue)) : Except Error Block := do
  match ← tensor.keys.matching selection with
  | [index] => tensor.blockAt index
  | [] =>
    if isFullKey tensor.keys.names selection then .error (.noMatchingBlock selection)
    else .error (.notOneMatch selection 0)
  | several => .error (.notOneMatch selection several.length)

end BlockTensor.Tensor
