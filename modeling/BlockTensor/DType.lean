/-!
# Element types of value arrays
-/

namespace BlockTensor

inductive DType where
  | float32
  | float64
  deriving DecidableEq, Repr

namespace DType

def name : DType → String
  | float32 => "float32"
  | float64 => "float64"

end DType

end BlockTensor
