import BlockTensor.Array.Dense
import BlockTensor.Ieee

/-!
# Value arrays

A value array is a dense array of `Single` or of `Double` elements. Operations
never change the element type; scalars come as `Double` and are rounded to it
first.
-/

namespace BlockTensor

inductive Values where
  | float32 (array : Dense Single)
  | float64 (array : Dense Double)
  deriving DecidableEq

namespace Values

def dtype : Values → DType
  | float32 _ => .float32
  | float64 _ => .float64

def shape : Values → List Nat
  | float32 a => a.shape
  | float64 a => a.shape

def length : Values → Nat
  | float32 a => a.data.length
  | float64 a => a.data.length

def Valid : Values → Prop
  | float32 a => a.Valid
  | float64 a => a.Valid

def checked : Values → Except Error Values
  | float32 a => float32 <$> Dense.ofShape a.shape a.data
  | float64 a => float64 <$> Dense.ofShape a.shape a.data

def full (dtype : DType) (shape : List Nat) (value : Double) : Values :=
  match dtype with
  | .float32 => float32 (Dense.full shape value.narrow)
  | .float64 => float64 (Dense.full shape value)

def zeros (dtype : DType) (shape : List Nat) : Values := full dtype shape .zero

def zeroed (a : Values) : Values := zeros a.dtype a.shape

/-- `low + draw k * (high - low)` at place `k`, where `draw` is a source of
numbers from 0 to 1. -/
def uniform (draw : Nat → Float) (dtype : DType) (shape : List Nat) (low high : Double) : Values :=
  let element (k : Nat) : Double :=
    .ofFloat (low.toFloat + draw k * (high.toFloat - low.toFloat))
  match dtype with
  | .float32 => float32 (Dense.tabulate shape fun k => (element k).narrow)
  | .float64 => float64 (Dense.tabulate shape element)

def redrawn (a : Values) (draw : Nat → Float) (low high : Double) : Values :=
  uniform draw a.dtype a.shape low high

def select (a : Values) (axis : Nat) (indices : List Nat) : Except Error Values :=
  match a with
  | float32 a => float32 <$> a.select axis indices
  | float64 a => float64 <$> a.select axis indices

def reverseAxes : Values → Values
  | float32 a => float32 a.reverseAxes
  | float64 a => float64 a.reverseAxes

def add : Values → Values → Except Error Values
  | float32 a, float32 b => float32 <$> a.combine Single.add b
  | float64 a, float64 b => float64 <$> a.combine Double.add b
  | a, b => .error (.invalidArgument (.mixedAddition a.dtype b.dtype))

def addScalar (scalar : Double) : Values → Values
  | float32 a => float32 (a.map fun x => x.add scalar.narrow)
  | float64 a => float64 (a.map fun x => x.add scalar)

def mulScalar (scalar : Double) : Values → Values
  | float32 a => float32 (a.map fun x => x.mul scalar.narrow)
  | float64 a => float64 (a.map fun x => x.mul scalar)

def logistic : Values → Values
  | float32 a => float32 (a.map Single.logistic)
  | float64 a => float64 (a.map Double.logistic)

def equal : Values → Values → Bool
  | float32 a, float32 b => a.agree Single.equal b
  | float64 a, float64 b => a.agree Double.equal b
  | _, _ => false

/-- Equal element types and shapes, and numbers that are close in binary64. -/
def allClose (rtol atol : Double) : Values → Values → Bool
  | float32 a, float32 b =>
    a.agree (fun x y => Double.isClose rtol.toFloat atol.toFloat x.widen y.widen) b
  | float64 a, float64 b => a.agree (Double.isClose rtol.toFloat atol.toFloat) b
  | _, _ => false

end Values

end BlockTensor
