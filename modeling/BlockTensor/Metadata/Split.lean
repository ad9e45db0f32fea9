import BlockTensor.Metadata.Unique

/-!
# Splitting along an axis

A group is a set of labels over some columns of an axis. It keeps the entries
of the axis whose projection onto its columns it contains, in their order. A
block is split into one block per group and a tensor into one tensor per group.
Direct gradients follow the values; they are rebuilt without gradients of their
own.
-/

namespace BlockTensor

def keptPositions (axis : Axis) (labels group : Labels) : Except Error (List Nat) := do
  match group.names.find? fun name => !labels.names.contains name with
  | some foreign => .error (.invalidArgument (.foreignGroupName foreign axis labels.names))
  | none =>
    let projected ← labels.select group.names
    pure (positionsWhere group.contains projected.entries)

def Labels.entriesAt (labels : Labels) (positions : List Nat) : Except Error Labels :=
  ofFlat labels.names (pick positions labels.entries).flatten

/-- The new position of each kept sample, as a label value. -/
def renumbering (kept : List Nat) : Except Error (List (Nat × LabelValue)) := do
  pure (kept.zip (← (List.range kept.length).mapM labelValue))

/-- A gradient entry with its sample renumbered; nothing if the sample is gone. -/
def renumber (numbering : List (Nat × LabelValue)) : Entry → Option Entry
  | [] => none
  | sample :: rest => (numbering.lookup sample.toInt.toNat).map fun new => new :: rest

def Block.keepGradientSamples (numbering : List (Nat × LabelValue)) (properties : Labels)
    (gradient : Block) : Except Error Block := do
  let rows := positionsWhere (fun entry => (renumber numbering entry).isSome)
    gradient.samples.entries
  let entries := gradient.samples.entries.filterMap (renumber numbering)
  let samples ← Labels.ofFlat gradient.samples.names entries.flatten
  let values ← gradient.values.select 0 rows
  make values samples gradient.components properties

def Block.keepSamples (block : Block) (kept : List Nat) : Except Error Block := do
  let samples ← block.samples.entriesAt kept
  let values ← block.values.select 0 kept
  let made ← make values samples block.components block.properties
  let numbering ← renumbering kept
  block.gradients.toList.foldlM (fun result (parameter, gradient) => do
    result.addGradient parameter (← gradient.keepGradientSamples numbering made.properties)) made

def Values.keepLast (values : Values) (kept : List Nat) : Except Error Values :=
  values.select (values.shape.length - 1) kept

def Block.keepGradientProperties (kept : List Nat) (properties : Labels) (gradient : Block) :
    Except Error Block := do
  make (← gradient.values.keepLast kept) gradient.samples gradient.components properties

def Block.keepProperties (block : Block) (kept : List Nat) : Except Error Block := do
  let properties ← block.properties.entriesAt kept
  let made ← make (← block.values.keepLast kept) block.samples block.components properties
  block.gradients.toList.foldlM (fun result (parameter, gradient) => do
    result.addGradient parameter (← gradient.keepGradientProperties kept properties)) made

def Block.part (block : Block) (axis : Axis) (group : Labels) : Except Error Block := do
  let kept ← keptPositions axis (axis.labels block) group
  match axis with
  | .samples => block.keepSamples kept
  | .properties => block.keepProperties kept

def Block.split (block : Block) (axis : Axis) (groups : List Labels) : Except Error (List Block) :=
  groups.mapM (block.part axis)

/-- One tensor per group, each with all keys. -/
def Tensor.split (tensor : Tensor) (axis : Axis) (groups : List Labels) :
    Except Error (List Tensor) := do
  let parts ← tensor.blocks.mapM fun block => block.split axis groups
  (List.range groups.length).mapM fun group =>
    make tensor.keys (parts.filterMap fun part => part[group]?)

end BlockTensor
