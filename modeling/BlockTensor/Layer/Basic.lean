import BlockTensor.Array.Values

/-!
# Layers

A layer transforms arrays along their last axis; all other axes are batch axes.
An affine layer multiplies each row by its weights and adds its bias, the
logistic layer works on single elements, and a chain applies its layers in
order. Other layers can be brought in; all that is known of one is that it
gives valid arrays.
-/

namespace BlockTensor

open Text

inductive LayerFault where
  | biasLength (bias outputs : Nat)
  | zeroRank
  | width (expected : Nat) (shape : List Nat)
  | notDouble
  /-- The columns of the keys are not those of the layers. -/
  | keyNames (found expected : List String)
  | noLayer (key : Entry)
  | tensor (error : Error)
  deriving DecidableEq

def LayerFault.message : LayerFault → String
  | biasLength bias outputs =>
    s!"the bias has {bias} entries, but the weights have {outputs} output features"
  | zeroRank => "can not apply a linear layer to a 0-dimensional array"
  | width expected shape =>
    s!"linear layer expects {expected} input features, got an array with shape " ++ numbers shape
  | notDouble => "linear layer expects a float64 array"
  | keyNames found expected =>
    "tensor keys names " ++ bracketed found ++ " do not match the module map keys names " ++
      bracketed expected
  | noLayer key => "no module for key " ++ Entry.text key
  | tensor error => error.message

def ofTensor {α : Type} (result : Except Error α) : Except LayerFault α :=
  result.mapError .tensor

/-- `y = x W + b`, with one row of weights per input and one bias per output. -/
structure Affine where
  inputs : Nat
  outputs : Nat
  /-- The weights in row-major order. -/
  weights : List Double
  bias : List Double
  deriving DecidableEq

namespace Affine

def make (inputs outputs : Nat) (weights bias : List Double) : Except LayerFault Affine := do
  ensure (outputs = bias.length) (.biasLength bias.length outputs)
  pure ⟨inputs, outputs, weights, bias⟩

/-- The bound of the weights of a random layer, `1 / sqrt inputs`. -/
def bound (inputs : Nat) : Float := 1 / (Float.ofNat (max inputs 1)).sqrt

/-- Weights and bias between minus `bound` and `bound`, from a source of numbers
from 0 to 1. -/
def random (draw : Nat → Float) (inputs outputs : Nat) : Affine :=
  let sample (k : Nat) : Double := .ofFloat ((2 * draw k - 1) * bound inputs)
  { inputs := inputs
    outputs := outputs
    weights := (List.range (inputs * outputs)).map sample
    bias := (List.range outputs).map fun k => sample (inputs * outputs + k) }

def row (layer : Affine) (x : List Double) : List Double :=
  let weights := pieces layer.inputs layer.outputs layer.weights
  let product := (x.zip weights).foldl
    (fun sums (x, weights) => sums.zipWith Double.add (weights.map x.mul))
    (List.replicate layer.outputs .zero)
  product.zipWith Double.add layer.bias

def forward (layer : Affine) (a : Dense Double) : Except LayerFault (Dense Double) :=
  match a.shape.getLast? with
  | none => .error .zeroRank
  | some last => do
    ensure (last = layer.inputs) (.width layer.inputs a.shape)
    let batch := a.shape.dropLast
    let rows := pieces (volume batch) last a.data
    ofTensor (Dense.ofShape (batch ++ [layer.outputs]) (rows.flatMap layer.row))

end Affine

inductive Layer where
  | affine (layer : Affine)
  | logistic
  | chain (layers : List Layer)
  /-- A layer from elsewhere. -/
  | custom (apply : Values → Except LayerFault Values)
    (valid : ∀ a b, apply a = .ok b → b.Valid)

mutual
def Layer.forward : Layer → Values → Except LayerFault Values
  | .affine _, .float32 _ => .error .notDouble
  | .affine layer, .float64 a => .float64 <$> layer.forward a
  | .logistic, a => .ok a.logistic
  | .chain layers, a => Layer.forwardAll layers a
  | .custom apply _, a => apply a
def Layer.forwardAll : List Layer → Values → Except LayerFault Values
  | [], a => .ok a
  | layer :: rest, a => do Layer.forwardAll rest (← layer.forward a)
end

end BlockTensor
