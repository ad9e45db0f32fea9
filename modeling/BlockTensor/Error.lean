import BlockTensor.DType
import BlockTensor.Labels.Printer

/-!
# Errors of labels, arrays, blocks and tensors

An error says what rule was broken and by what. The wording is in one function
per type, `message`; nothing else in the library looks at texts.
-/

namespace BlockTensor

open Text

inductive Axis where
  | samples
  | properties
  deriving DecidableEq, Repr

def Axis.name : Axis → String
  | samples => "samples"
  | properties => "properties"

-- ---------------------------------------------------------------------------
-- Causes
-- ---------------------------------------------------------------------------

inductive LabelsFault where
  | noNames
  | badName (name : String)
  | repeatedName (name : String)
  /-- The number of values is not a multiple of the number of names. -/
  | brokenRow (values names : Nat)
  /-- An entry does not have one value per name. -/
  | entryArity (position values names : Nat)
  | repeatedEntry (entry : Entry) (first second : Nat)
  | valueTooLarge (value : Nat)
  /-- A set operation on labels with different columns. -/
  | differentNames (operation : String) (left right : List String)
  | sharedComponentName (name : String)
  deriving DecidableEq

inductive ShapePlace where
  | rank
  | samples
  | component (names : List String) (axis : Nat)
  | properties (axis : Nat)
  | row (position : Nat)
  | addition (axis : Nat) (left right : List Nat)
  deriving DecidableEq

inductive GradientFault where
  | reserved
  | alreadyPresent
  | differentDType (gradient values : DType)
  | firstSampleName (names : List String)
  | noSuchSample (entry : Entry) (sample : LabelValue) (count : Nat)
  | differentProperties
  | tooFewComponents (gradient values : Nat)
  | differentComponents
  deriving DecidableEq

inductive BlocksFault where
  | sampleNames (block first : List String)
  | componentNames
  | propertyNames (block first : List String)
  | gradientCount
  | missingGradient (parameter : String)
  | gradientSampleNames (parameter : String) (block first : List String)
  deriving DecidableEq

inductive BlockDifference where
  | samples
  | componentCount (left right : Nat)
  | component (axis : Nat)
  | properties
  | parameters (left right : List String)
  | gradient (parameter : String) (inside : BlockDifference)
  deriving DecidableEq

inductive Difference where
  | keys (left right : Labels)
  | block (key : Entry) (inside : BlockDifference)
  deriving DecidableEq

inductive Indexed where
  | axes
  | selectedAxis
  | blocks
  deriving DecidableEq

inductive Counted where
  | elements
  | blocks
  | keyValues
  | modules
  | outputProperties
  | positions
  deriving DecidableEq

inductive ArgumentFault where
  /-- The number of elements does not fit in 64 bits. -/
  | shapeTooLarge (shape : List Nat)
  /-- The product of the lengths other than zero does not fit in 63 bits. -/
  | shapeOverflow
  | unknownAxis (text : String)
  | missingName (name : String) (axis : Axis) (available : List String)
  | foreignGroupName (name : String) (axis : Axis) (available : List String)
  | mixedAddition (left right : DType)
  deriving DecidableEq

-- ---------------------------------------------------------------------------
-- Errors
-- ---------------------------------------------------------------------------

inductive Error where
  | invalidLabels (fault : LabelsFault)
  | unknownColumn (name : String) (available : List String)
  | shapeMismatch (place : ShapePlace) (expected actual : Nat)
  | noSuchGradient (parameter : String)
  | gradient (parameter : String) (fault : GradientFault)
  | noMatchingBlock (selection : List (String × LabelValue))
  | notOneMatch (selection : List (String × LabelValue)) (count : Nat)
  | indexOutOfRange (index length : Nat) (what : Indexed)
  | lengthMismatch (what : Counted) (expected actual : Nat)
  | inconsistentBlocks (fault : BlocksFault)
  | metadataMismatch (difference : Difference)
  | invalidArgument (fault : ArgumentFault)
  deriving DecidableEq

-- ---------------------------------------------------------------------------
-- Wording
-- ---------------------------------------------------------------------------

def LabelsFault.message : LabelsFault → String
  | noNames => "labels must have at least one name"
  | badName name => s!"'{name}' is not a valid label name"
  | repeatedName name => s!"the name '{name}' is used more than once"
  | brokenRow values names =>
    s!"got {values} values, which is not a multiple of the number of names ({names})"
  | entryArity position values names =>
    s!"entry {position} has {values} values, but there are {names} names"
  | repeatedEntry entry first second =>
    "entry " ++ Entry.text entry ++ s!" appears more than once (at positions {first} and {second})"
  | valueTooLarge value => s!"{value} does not fit in a label value (maximum is 2147483647)"
  | differentNames operation left right =>
    s!"can not take the {operation} of labels with different names: " ++
      bracketed left ++ " and " ++ bracketed right
  | sharedComponentName name =>
    s!"component name '{name}' is used by more than one component axis"

def ShapePlace.text : ShapePlace → String
  | rank => "array rank"
  | samples => "samples (axis 0)"
  | component names axis => "component '" ++ commaJoined names ++ s!"' (axis {axis})"
  | properties axis => s!"properties (axis {axis})"
  | row position => s!"row {position}"
  | addition axis left right =>
    s!"array axis {axis} (shapes " ++ numbers left ++ " and " ++ numbers right ++ ")"

def GradientFault.message : GradientFault → String
  | reserved => "'values' is reserved and can not be used as a gradient parameter"
  | alreadyPresent => "a gradient with respect to this parameter already exists"
  | differentDType gradient values =>
    "the gradient dtype (" ++ gradient.name ++ ") differs from the values dtype (" ++
      values.name ++ ")"
  | firstSampleName names =>
    "the first name in the gradient samples must be 'sample', got " ++ bracketed names
  | noSuchSample entry sample count =>
    "gradient sample " ++ Entry.text entry ++
      s!" refers to sample {sample}, but the block only has {count} samples"
  | differentProperties => "the gradient properties must be the same as the values properties"
  | tooFewComponents gradient values =>
    s!"the gradient has {gradient} components, but the values have {values}"
  | differentComponents =>
    "the last gradient components must be the same as the values components"

def BlocksFault.message : BlocksFault → String
  | sampleNames block first =>
    "all blocks must have the same samples names, got " ++ bracketed block ++ " and " ++
      bracketed first
  | componentNames => "all blocks must have the same components names"
  | propertyNames block first =>
    "all blocks must have the same properties names, got " ++ bracketed block ++ " and " ++
      bracketed first
  | gradientCount => "all blocks must contain the same set of gradients"
  | missingGradient parameter =>
    s!"missing gradient with respect to '{parameter}' in one of the blocks"
  | gradientSampleNames parameter block first =>
    "all blocks must have the same gradient samples names for gradients with respect to " ++
      s!"'{parameter}', got " ++ bracketed block ++ " and " ++ bracketed first

def BlockDifference.message : BlockDifference → String
  | samples => "samples are different"
  | componentCount left right => s!"the number of components is different ({left} and {right})"
  | component axis => s!"components along axis {axis} are different"
  | properties => "properties are different"
  | parameters left right =>
    "gradient parameters are different (" ++ bracketed left ++ " and " ++ bracketed right ++ ")"
  | gradient parameter inside => s!"gradient with respect to '{parameter}': " ++ inside.message

def Difference.message : Difference → String
  | keys left right =>
    "the tensor maps have different keys:\n" ++ left.table ++ "\nand\n" ++ right.table
  | block key inside => "block for key " ++ Entry.text key ++ ": " ++ inside.message

def Indexed.text : Indexed → String
  | axes => "array axes"
  | selectedAxis => "entries along the selected axis"
  | blocks => "blocks"

def Counted.text : Counted → String
  | elements => "array elements"
  | blocks => "blocks"
  | keyValues => "key values"
  | modules => "modules"
  | outputProperties => "output properties"
  | positions => "atom positions"

def ArgumentFault.message : ArgumentFault → String
  | shapeTooLarge shape => "array shape " ++ numbers shape ++ " is too large"
  | shapeOverflow => "invalid array shape: ShapeError/Overflow: arithmetic overflow"
  | unknownAxis text => s!"axis must be either 'samples' or 'properties', got '{text}'"
  | missingName name axis available =>
    s!"the blocks must have '{name}' in their " ++ axis.name ++ " names, got " ++
      bracketed available
  | foreignGroupName name axis available =>
    s!"the grouped labels name '{name}' is not part of the " ++ axis.name ++ " names " ++
      bracketed available
  | mixedAddition left right =>
    "can not add " ++ left.name ++ " and " ++ right.name ++ " arrays"

/-- `l = 1, center = 6`. -/
def selectionText (selection : List (String × LabelValue)) : String :=
  commaJoined (selection.map fun (name, value) => s!"{name} = {value}")

def Error.message : Error → String
  | invalidLabels fault => "invalid labels: " ++ fault.message
  | unknownColumn name available =>
    s!"unknown column '{name}', available columns are " ++ bracketed available
  | shapeMismatch place expected actual =>
    "shape mismatch along " ++ place.text ++
      s!": the array has {actual} entries but {expected} were expected"
  | noSuchGradient parameter => s!"no gradient with respect to '{parameter}' in this block"
  | gradient parameter fault =>
    s!"invalid gradient with respect to '{parameter}': " ++ fault.message
  | noMatchingBlock selection => "no block matches the key (" ++ selectionText selection ++ ")"
  | notOneMatch selection count =>
    s!"{count} blocks matched the selection (" ++ selectionText selection ++
      "), expected exactly one"
  | indexOutOfRange index length what =>
    s!"index {index} is out of range for {length} " ++ what.text
  | lengthMismatch what expected actual =>
    s!"length mismatch: {expected} " ++ what.text ++ s!" expected, got {actual}"
  | inconsistentBlocks fault => "inconsistent blocks: " ++ fault.message
  | metadataMismatch difference => "metadata mismatch: " ++ difference.message
  | invalidArgument fault => "validation error: " ++ fault.message

end BlockTensor
