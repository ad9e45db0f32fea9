import BlockTensor.Labels.Construct
import BlockTensor.Tensor.Basic

/-!
# Archive records

A record holds the parts of a tensor without their rules: names and flat values
of labels, shape and elements of arrays. `TensorRecord.ofTensor` takes a tensor
apart. `TensorRecord.tensor` puts one together through the checked
constructors, so that whatever a record holds, the result obeys the rules.
-/

namespace BlockTensor.Archive

structure LabelsRecord where
  names : List String
  values : List LabelValue
  deriving DecidableEq

mutual
structure BlockRecord where
  /-- Shape and elements, which need not fit each other. -/
  values : Values
  samples : LabelsRecord
  components : List LabelsRecord
  properties : LabelsRecord
  gradients : GradientRecords
inductive GradientRecords where
  | nil
  | cons (parameter : String) (gradient : BlockRecord) (rest : GradientRecords)
end

structure TensorRecord where
  keys : LabelsRecord
  blocks : List BlockRecord

namespace GradientRecords

def toList : GradientRecords → List (String × BlockRecord)
  | nil => []
  | cons parameter gradient rest => (parameter, gradient) :: rest.toList

def ofList : List (String × BlockRecord) → GradientRecords
  | [] => nil
  | (parameter, gradient) :: rest => cons parameter gradient (ofList rest)

def length : GradientRecords → Nat
  | nil => 0
  | cons _ _ rest => rest.length + 1

theorem toList_ofList (items : List (String × BlockRecord)) : (ofList items).toList = items := by
  induction items with
  | nil => rfl
  | cons item rest ih => simp [ofList, toList, ih]

end GradientRecords

def LabelsRecord.ofLabels (labels : Labels) : LabelsRecord := ⟨labels.names, labels.flat⟩

mutual
def BlockRecord.ofBlock : Block → BlockRecord
  | ⟨values, samples, components, properties, gradients⟩ =>
    { values := values
      samples := .ofLabels samples
      components := components.map LabelsRecord.ofLabels
      properties := .ofLabels properties
      gradients := .ofGradients gradients }
def GradientRecords.ofGradients : Gradients → GradientRecords
  | .nil => .nil
  | .cons parameter gradient rest => .cons parameter (.ofBlock gradient) (.ofGradients rest)
end

def TensorRecord.ofTensor (tensor : Tensor) : TensorRecord :=
  ⟨.ofLabels tensor.keys, tensor.blocks.map BlockRecord.ofBlock⟩

def LabelsRecord.labels (record : LabelsRecord) : Except Error Labels :=
  Labels.ofFlat record.names record.values

mutual
def BlockRecord.block : BlockRecord → Except Error Block
  | ⟨values, samples, components, properties, gradients⟩ => do
    let values ← values.checked
    let components ← components.mapM LabelsRecord.labels
    let samples ← samples.labels
    let properties ← properties.labels
    gradients.attachTo (← Block.make values samples components properties)
def GradientRecords.attachTo : GradientRecords → Block → Except Error Block
  | .nil, parent => .ok parent
  | .cons parameter gradient rest, parent => do
    let made ← gradient.block
    rest.attachTo (← parent.addGradient parameter made)
end

def TensorRecord.tensor (record : TensorRecord) : Except Error Tensor := do
  let blocks ← record.blocks.mapM BlockRecord.block
  Tensor.make (← record.keys.labels) blocks

end BlockTensor.Archive
