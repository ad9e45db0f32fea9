import BlockTensor.Labels.Construct
import BlockTensor.Layer.Basic
import BlockTensor.Tensor.Basic

/-!
# One layer per key

Keyed layers apply to a tensor the layer of each block's key, to the values and
to the direct gradients. Samples and components stay; the properties are given
or count the outputs. Gradients are rebuilt without gradients of their own.
-/

namespace BlockTensor

structure KeyedLayers where
  keys : Labels
  layers : List Layer
  /-- The properties of the results, one for each key. -/
  properties : Option (List Labels)

namespace KeyedLayers

def make (keys : Labels) (layers : List Layer) (properties : Option (List Labels)) :
    Except Error KeyedLayers := do
  ensure (layers.length = keys.length) (.lengthMismatch .modules keys.length layers.length)
  match properties with
  | none => pure ()
  | some given =>
    ensure (given.length = keys.length)
      (.lengthMismatch .outputProperties keys.length given.length)
  pure ⟨keys, layers, properties⟩

def length (map : KeyedLayers) : Nat := map.layers.length

def isEmpty (map : KeyedLayers) : Bool := map.layers.isEmpty

structure Assignment where
  layer : Layer
  properties : Option Labels

def find? (map : KeyedLayers) (key : Entry) : Option Assignment := do
  let position ← map.keys.position? key
  let layer ← map.layers[position]?
  match map.properties with
  | none => some ⟨layer, none⟩
  | some given => some ⟨layer, ← given[position]?⟩

namespace Assignment

/-- The given properties, or one that counts the entries along the last axis. -/
def propertiesOf (assigned : Assignment) (values : Values) : Except Error Labels :=
  match assigned.properties with
  | some given => .ok given
  | none => Labels.range "_" (values.shape.getLastD 0)

def forwardGradient (assigned : Assignment) (properties : Labels) (gradient : Block) :
    Except LayerFault Block := do
  let values ← assigned.layer.forward gradient.values
  ofTensor (Block.make values gradient.samples gradient.components properties)

def forward (assigned : Assignment) (block : Block) : Except LayerFault Block := do
  let values ← assigned.layer.forward block.values
  let properties ← ofTensor (assigned.propertiesOf values)
  let made ← ofTensor (Block.make values block.samples block.components properties)
  block.gradients.toList.foldlM (fun result (parameter, gradient) => do
    let mapped ← assigned.forwardGradient properties gradient
    ofTensor (result.addGradient parameter mapped)) made

end Assignment

def forwardItem (map : KeyedLayers) : Entry × Block → Except LayerFault Block
  | (key, block) =>
    match map.find? key with
    | none => .error (.noLayer key)
    | some assigned => assigned.forward block

/-- Applies the layers to every block. Every key of the tensor needs a layer. -/
def forward (map : KeyedLayers) (tensor : Tensor) : Except LayerFault Tensor := do
  ensure (tensor.keys.names = map.keys.names)
    (.keyNames tensor.keys.names map.keys.names)
  let blocks ← tensor.items.mapM map.forwardItem
  ofTensor (Tensor.make tensor.keys blocks)

end KeyedLayers

end BlockTensor
