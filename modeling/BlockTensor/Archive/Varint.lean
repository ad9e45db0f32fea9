/-!
# Integers in archives

An unsigned integer below 251 is one byte. A larger one is a marker byte, 251,
252 or 253, then 2, 4 or 8 bytes, lowest first. `write` takes the shortest
form; `read?` takes longer forms too, as far as the width of the integer
admits. Signed integers are zigzag-coded first.
-/

namespace BlockTensor

abbrev Bytes := List UInt8

namespace Varint

def littleEndian : (width n : Nat) → Bytes
  | 0, _ => []
  | width + 1, n => UInt8.ofNat (n % 256) :: littleEndian width (n / 256)

def ofLittleEndian : Bytes → Nat
  | [] => 0
  | byte :: rest => byte.toNat + 256 * ofLittleEndian rest

def readFixed? (width : Nat) (bytes : Bytes) : Option (Nat × Bytes) :=
  let first := bytes.take width
  if first.length = width then some (ofLittleEndian first, bytes.drop width) else none

/-- Which marker bytes an integer may have. -/
inductive Width where
  | word32
  | word64
  deriving DecidableEq, Repr

def write (n : Nat) : Bytes :=
  if n < 251 then [UInt8.ofNat n]
  else if n < 0x10000 then 251 :: littleEndian 2 n
  else if n < 0x100000000 then 252 :: littleEndian 4 n
  else 253 :: littleEndian 8 n

def read? (width : Width) : Bytes → Option (Nat × Bytes)
  | [] => none
  | marker :: rest =>
    if marker < 251 then some (marker.toNat, rest)
    else if marker = 251 then readFixed? 2 rest
    else if marker = 252 then readFixed? 4 rest
    else if marker = 253 ∧ width = .word64 then readFixed? 8 rest
    else none

/-- Zero, minus one, one, minus two, … are numbered 0, 1, 2, 3, …. -/
def zigzag (value : Int) : Nat :=
  if 0 ≤ value then 2 * value.toNat else 2 * (-value).toNat - 1

def unzigzag (n : Nat) : Int := if n % 2 = 0 then (n / 2 : Nat) else -((n / 2 : Nat) + 1 : Int)

end Varint

end BlockTensor
