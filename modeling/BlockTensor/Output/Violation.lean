import BlockTensor.Error

/-!
# Violations of the output contract
-/

namespace BlockTensor.Output

open Text

inductive SamplesFault where
  | names (expected found : List String)
  | entries (expected : Labels)
  | gradientNames (parameter : String) (expected found : List String)
  deriving DecidableEq

inductive ComponentsFault where
  | notEmpty
  | gradientCount (parameter : String) (expected : Nat)
  /-- The component at `position` does not count `name` from 0 to 2. -/
  | gradientComponent (parameter : String) (position : Nat) (name : String)
  deriving DecidableEq

inductive Violation where
  | unrequested (name : String)
  | missing (name : String)
  | wrongDType (name : String) (expected actual : DType)
  | keys (name : String)
  | samples (name : String) (fault : SamplesFault)
  | components (name : String) (fault : ComponentsFault)
  | properties (name : String) (expected : String)
  | gradient (name parameter : String)
  | metadata (error : Error)
  deriving DecidableEq

def SamplesFault.message : SamplesFault → String
  | names expected found =>
    "expected the names to be " ++ quotedNames expected ++ ", got " ++ quotedNames found
  | entries expected =>
    "the entries do not match the `systems` and `selected_atoms`. Expected samples:\n" ++
      expected.table
  | gradientNames parameter expected found =>
    s!"'{parameter}' gradients: expected the names to be " ++ quotedNames expected ++ ", got " ++
      quotedNames found

def componentCount (n : Nat) : String :=
  if n = 1 then "one component" else if n = 2 then "two components" else s!"{n} components"

def ordinal (position : Nat) : String :=
  if position = 0 then "first" else if position = 1 then "second" else s!"{position}th"

def ComponentsFault.message : ComponentsFault → String
  | notEmpty => "components should be empty"
  | gradientCount parameter expected =>
    s!"'{parameter}' gradients: expected " ++ componentCount expected
  | gradientComponent parameter position name =>
    s!"'{parameter}' gradients: expected Labels('{name}', [[0], [1], [2]]) for the " ++
      ordinal position ++ " component"

def Violation.message : Violation → String
  | unrequested name =>
    s!"the model produced an output named '{name}', which was not requested"
  | missing name => s!"the model did not produce the '{name}' output, which was requested"
  | wrongDType name expected actual =>
    s!"wrong dtype for the {name} output: the model promised " ++ expected.name ++ ", we got " ++
      actual.name
  | keys name => s!"invalid keys for '{name}' output: expected `Labels('_', [[0]])`"
  | samples name fault => s!"invalid samples for '{name}' output: " ++ fault.message
  | components name fault => s!"invalid components for '{name}' output: " ++ fault.message
  | properties name expected => s!"invalid properties for '{name}' output: expected " ++ expected
  | gradient name parameter => s!"invalid gradient for '{name}' output: " ++ parameter
  | metadata error => "metadata error while checking outputs: " ++ error.message

end BlockTensor.Output
