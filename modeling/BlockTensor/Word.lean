/-!
# 64-bit words

Indices and lengths are 64-bit words. Sums and products are checked: one that is
not a word stops the program. So does an index without an entry, and a `Panic`
is all that is left of the program then.
-/

namespace BlockTensor

/-- Numbers of elements are 64-bit words. -/
def wordLimit : Nat := 0x10000000000000000

inductive Panic
  | sumOverflow
  | productOverflow
  | outOfBounds (index : UInt64) (length : Nat)
  deriving DecidableEq

def Panic.message : Panic → String
  | sumOverflow => "attempt to add with overflow"
  | productOverflow => "attempt to multiply with overflow"
  | outOfBounds index length =>
    s!"index {index} is out of bounds for labels with {length} entries"

namespace Word

def sum (a b : UInt64) : Except Panic UInt64 :=
  if a.toNat + b.toNat < wordLimit then .ok (a + b) else .error .sumOverflow

def product (a b : UInt64) : Except Panic UInt64 :=
  if a.toNat * b.toNat < wordLimit then .ok (a * b) else .error .productOverflow

variable {a b : UInt64}

theorem sum_of_lt (h : a.toNat + b.toNat < wordLimit) : sum a b = .ok (a + b) := if_pos h

theorem sum_of_le (h : wordLimit ≤ a.toNat + b.toNat) : sum a b = .error .sumOverflow :=
  if_neg (Nat.not_lt.mpr h)

theorem toNat_sum (h : a.toNat + b.toNat < wordLimit) : (a + b).toNat = a.toNat + b.toNat := by
  rw [UInt64.toNat_add]
  exact Nat.mod_eq_of_lt h

theorem product_of_lt (h : a.toNat * b.toNat < wordLimit) : product a b = .ok (a * b) := if_pos h

theorem product_of_le (h : wordLimit ≤ a.toNat * b.toNat) :
    product a b = .error .productOverflow :=
  if_neg (Nat.not_lt.mpr h)

theorem toNat_product (h : a.toNat * b.toNat < wordLimit) :
    (a * b).toNat = a.toNat * b.toNat := by
  rw [UInt64.toNat_mul]
  exact Nat.mod_eq_of_lt h

end Word

end BlockTensor
