/-!
# IEEE elements by their bits

`Single` and `Double` are binary32 and binary64 numbers held as bit patterns, so
copying keeps every bit, the payload of a NaN included. Arithmetic decodes the
operands. A NaN operand comes back quiet, the left one first; an invalid
operation gives the negative quiet NaN without payload.
-/

namespace BlockTensor

structure Single where
  bits : UInt32
  deriving DecidableEq, Repr

structure Double where
  bits : UInt64
  deriving DecidableEq, Repr

-- ---------------------------------------------------------------------------
-- binary32
-- ---------------------------------------------------------------------------

namespace Single

def zero : Single := ⟨0⟩
def one : Single := ⟨0x3f800000⟩
def invalid : Single := ⟨0xffc00000⟩

def isNaN (x : Single) : Bool := (x.bits &&& 0x7fffffff) > 0x7f800000

def quiet (x : Single) : Single := ⟨x.bits ||| 0x00400000⟩

def toFloat (x : Single) : Float32 := Float32.ofBits x.bits

def ofFloat (x : Float32) : Single := if x.isNaN then invalid else ⟨x.toBits⟩

def unary (op : Float32 → Float32) (x : Single) : Single :=
  if x.isNaN then x.quiet else ofFloat (op x.toFloat)

def binary (op : Float32 → Float32 → Float32) (x y : Single) : Single :=
  if x.isNaN then x.quiet
  else if y.isNaN then y.quiet
  else ofFloat (op x.toFloat y.toFloat)

def add : Single → Single → Single := binary (· + ·)
def mul : Single → Single → Single := binary (· * ·)
def div : Single → Single → Single := binary (· / ·)
def exp : Single → Single := unary Float32.exp
def neg (x : Single) : Single := ⟨x.bits ^^^ 0x80000000⟩

/-- Equality of numbers: zeros are equal, a NaN equals nothing. -/
def equal (x y : Single) : Bool := x.toFloat == y.toFloat

end Single

-- ---------------------------------------------------------------------------
-- binary64
-- ---------------------------------------------------------------------------

namespace Double

def zero : Double := ⟨0⟩
def one : Double := ⟨0x3ff0000000000000⟩
def minusOne : Double := ⟨0xbff0000000000000⟩
def invalid : Double := ⟨0xfff8000000000000⟩

def isNaN (x : Double) : Bool := (x.bits &&& 0x7fffffffffffffff) > 0x7ff0000000000000

def quiet (x : Double) : Double := ⟨x.bits ||| 0x0008000000000000⟩

def toFloat (x : Double) : Float := Float.ofBits x.bits

def ofFloat (x : Float) : Double := if x.isNaN then invalid else ⟨x.toBits⟩

def unary (op : Float → Float) (x : Double) : Double :=
  if x.isNaN then x.quiet else ofFloat (op x.toFloat)

def binary (op : Float → Float → Float) (x y : Double) : Double :=
  if x.isNaN then x.quiet
  else if y.isNaN then y.quiet
  else ofFloat (op x.toFloat y.toFloat)

def add : Double → Double → Double := binary (· + ·)
def mul : Double → Double → Double := binary (· * ·)
def div : Double → Double → Double := binary (· / ·)
def exp : Double → Double := unary Float.exp
def neg (x : Double) : Double := ⟨x.bits ^^^ 0x8000000000000000⟩

def equal (x y : Double) : Bool := x.toFloat == y.toFloat

/-- Within `atol + rtol * |y|` of `y`. -/
def isClose (rtol atol : Float) (x y : Double) : Bool :=
  decide ((x.toFloat - y.toFloat).abs ≤ atol + rtol * y.toFloat.abs)

end Double

-- ---------------------------------------------------------------------------
-- Conversions
-- ---------------------------------------------------------------------------

/-- The same number in binary64. The payload of a NaN keeps its leading bits. -/
def Single.widen (x : Single) : Double :=
  if x.isNaN then
    let sign : UInt64 := (x.bits &&& 0x80000000).toUInt64 <<< (32 : UInt64)
    let payload : UInt64 := (x.bits &&& 0x003fffff).toUInt64 <<< (29 : UInt64)
    ⟨sign ||| (0x7ff8000000000000 : UInt64) ||| payload⟩
  else
    Double.ofFloat x.toFloat.toFloat

/-- The nearest binary32 number. The payload of a NaN keeps its leading bits. -/
def Double.narrow (x : Double) : Single :=
  if x.isNaN then
    let sign : UInt32 := (x.bits >>> (32 : UInt64)).toUInt32 &&& 0x80000000
    let payload : UInt32 := (x.bits >>> (29 : UInt64)).toUInt32 &&& 0x003fffff
    ⟨sign ||| (0x7fc00000 : UInt32) ||| payload⟩
  else
    Single.ofFloat x.toFloat.toFloat32

def Single.logistic (x : Single) : Single := one.div (one.add x.neg.exp)

def Double.logistic (x : Double) : Double := one.div (one.add x.neg.exp)

end BlockTensor
