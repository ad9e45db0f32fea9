import BlockTensor.Array.Values

/-!
# Blocks

A block is a value array with labels for each axis: samples, any number of
components, properties. It carries named gradients, which are blocks again, in
the order in which they were attached. `Block.make` checks the shape against
the labels and `Block.addGradient` checks a gradient against its parent; the
types themselves hold any data.
-/

namespace BlockTensor

mutual
structure Block where
  values : Values
  samples : Labels
  components : List Labels
  properties : Labels
  gradients : Gradients
inductive Gradients where
  | nil
  | cons (parameter : String) (gradient : Block) (rest : Gradients)
end

/-- Gradients as a list: what holds of the rest holds with one more in front. -/
@[induction_eliminator] theorem Gradients.induction {P : Gradients → Prop} (nil : P .nil)
    (cons : ∀ parameter gradient rest, P rest → P (.cons parameter gradient rest))
    (gradients : Gradients) : P gradients := by
  refine Gradients.rec (motive_1 := fun _ => True) (motive_2 := P) ?_ nil ?_ gradients
  · exact fun _ _ _ _ _ _ => trivial
  · exact fun parameter gradient rest _ ih => cons parameter gradient rest ih

namespace Gradients

def toList : Gradients → List (String × Block)
  | nil => []
  | cons parameter gradient rest => (parameter, gradient) :: rest.toList

def parameters : Gradients → List String
  | nil => []
  | cons parameter _ rest => parameter :: rest.parameters

def find? (key : String) : Gradients → Option Block
  | nil => none
  | cons parameter gradient rest => if parameter = key then some gradient else rest.find? key

def push (key : String) (added : Block) : Gradients → Gradients
  | nil => cons key added nil
  | cons parameter gradient rest => cons parameter gradient (rest.push key added)

theorem parameters_eq_map_toList (gradients : Gradients) :
    gradients.parameters = gradients.toList.map Prod.fst := by
  induction gradients with
  | nil => rfl
  | cons _ _ _ ih => simp [parameters, toList, ih]

theorem toList_push (key : String) (added : Block) (gradients : Gradients) :
    (gradients.push key added).toList = gradients.toList ++ [(key, added)] := by
  induction gradients with
  | nil => rfl
  | cons _ _ _ ih => simp [push, toList, ih]

end Gradients

namespace Block

/-- Checks that no name of `rest` occurs in `seen` or again in `rest`. -/
def checkComponentNames (seen : List String) : List String → Except Error Unit
  | [] => .ok ()
  | name :: rest => do
    ensure (name ∉ seen) (.invalidLabels (.sharedComponentName name))
    checkComponentNames (name :: seen) rest

def checkComponentAxes (axis : Nat) : List Labels → List Nat → Except Error Unit
  | component :: rest, length :: lengths => do
    ensure (length = component.length)
      (.shapeMismatch (.component component.names axis) component.length length)
    checkComponentAxes (axis + 1) rest lengths
  | _, _ => .ok ()

def checkShape (shape : List Nat) (samples : Labels) (components : List Labels)
    (properties : Labels) : Except Error Unit := do
  ensure (shape.length = components.length + 2)
    (.shapeMismatch .rank (components.length + 2) shape.length)
  let sampleCount := shape.headD 0
  ensure (sampleCount = samples.length) (.shapeMismatch .samples samples.length sampleCount)
  checkComponentAxes 1 components (shape.drop 1)
  let last := shape.length - 1
  let propertyCount := shape.getLastD 0
  ensure (propertyCount = properties.length)
    (.shapeMismatch (.properties last) properties.length propertyCount)

def make (values : Values) (samples : Labels) (components : List Labels) (properties : Labels) :
    Except Error Block := do
  checkComponentNames [] (components.flatMap fun component => component.names)
  checkShape values.shape samples components properties
  pure ⟨values, samples, components, properties, .nil⟩

def gradient (block : Block) (parameter : String) : Except Error Block :=
  match block.gradients.find? parameter with
  | some gradient => .ok gradient
  | none => .error (.noSuchGradient parameter)

def hasGradient (block : Block) (parameter : String) : Bool :=
  block.gradients.parameters.contains parameter

def isSampleIndex (count : Nat) (value : LabelValue) : Bool :=
  0 ≤ value.toInt && value.toInt < count

def checkSampleIndices (parameter : String) (count : Nat) : List Entry → Except Error Unit
  | [] => .ok ()
  | entry :: rest => do
    let sample := entry.headD 0
    ensure (isSampleIndex count sample) (.gradient parameter (.noSuchSample entry sample count))
    checkSampleIndices parameter count rest

/-- What makes `gradient` a gradient of `block` with respect to `parameter`:
the same element type, samples that refer to the samples of `block`, its
properties, and its components as the last components. -/
def checkGradient (block : Block) (parameter : String) (gradient : Block) : Except Error Unit := do
  ensure (parameter ≠ "values") (.gradient parameter .reserved)
  ensure (parameter ∉ block.gradients.parameters) (.gradient parameter .alreadyPresent)
  ensure (gradient.values.dtype = block.values.dtype)
    (.gradient parameter (.differentDType gradient.values.dtype block.values.dtype))
  ensure (gradient.samples.names.head? = some "sample")
    (.gradient parameter (.firstSampleName gradient.samples.names))
  checkSampleIndices parameter block.samples.length gradient.samples.entries
  ensure (gradient.properties = block.properties) (.gradient parameter .differentProperties)
  ensure (block.components.length ≤ gradient.components.length)
    (.gradient parameter
      (.tooFewComponents gradient.components.length block.components.length))
  let added := gradient.components.length - block.components.length
  ensure (gradient.components.drop added = block.components)
    (.gradient parameter .differentComponents)

def addGradient (block : Block) (parameter : String) (gradient : Block) : Except Error Block := do
  checkGradient block parameter gradient
  pure { block with gradients := block.gradients.push parameter gradient }

/-- `addGradient` for a block that is changed in place: the checks, then one write. -/
def attachInPlace (parameter : String) (gradient : Block) : StateM Block (Except Error Unit) := do
  let block ← get
  match checkGradient block parameter gradient with
  | .error error => return .error error
  | .ok _ =>
    set { block with gradients := block.gradients.push parameter gradient }
    return .ok ()

end Block

end BlockTensor
