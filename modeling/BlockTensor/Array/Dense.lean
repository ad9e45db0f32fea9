import BlockTensor.Check
import BlockTensor.Error
import BlockTensor.Selection
import BlockTensor.Word

/-!
# Dense arrays

A shape and the elements in row-major order. `Dense.ofShape` is the one checked
constructor: lengths are 64-bit words, the number of elements has to fit in 64
bits, and the product of the lengths other than zero in 63. `select` gathers
along one axis and `reverseAxes` reverses the order of all axes.

`ofShape_ok` says which shapes and data make an array: the order in which the
lengths are multiplied plays no part in it.
-/

namespace BlockTensor

def volume : List Nat → Nat
  | [] => 1
  | length :: rest => length * volume rest

/-- Nothing holds more bytes than a signed 64-bit word counts. -/
def sizeLimit : Nat := 0x8000000000000000

/-- `count` times the lengths of `shape`, from the left, while the product is a
64-bit word. -/
def wordVolume (count : Nat) : List Nat → Option Nat
  | [] => some count
  | length :: rest => if count * length < wordLimit then wordVolume (count * length) rest else none

theorem wordVolume_eq {count v : Nat} {shape : List Nat} (h : wordVolume count shape = some v) :
    v = count * volume shape := by
  induction shape generalizing count with
  | nil => simpa [wordVolume, volume] using h.symm
  | cons length rest ih =>
    simp only [wordVolume] at h
    split at h
    · rw [ih h, volume, Nat.mul_assoc]
    · cases h

theorem volume_filter_pos (shape : List Nat) : 0 < volume (shape.filter (· ≠ 0)) := by
  induction shape with
  | nil => simp [volume]
  | cons length rest ih =>
    by_cases hlength : length = 0
    · simpa [hlength] using ih
    · rw [List.filter_cons_of_pos (by simpa using hlength), volume]
      exact Nat.mul_pos (Nat.pos_of_ne_zero hlength) ih

/-- Lengths of zero aside, the order of the lengths does not matter. -/
theorem wordVolume_of_lt {count : Nat} {shape : List Nat}
    (h : count * volume (shape.filter (· ≠ 0)) < wordLimit) :
    wordVolume count shape = some (count * volume shape) := by
  induction shape generalizing count with
  | nil => simp [wordVolume, volume]
  | cons length rest ih =>
    by_cases hlength : length = 0
    · subst hlength
      simp only [wordVolume, volume, Nat.mul_zero, Nat.zero_mul]
      rw [if_pos (by decide), ih (by simp [wordLimit]), Nat.zero_mul]
    · rw [List.filter_cons_of_pos (by simpa using hlength), volume, ← Nat.mul_assoc] at h
      have hle : count * length ≤ count * length * volume (rest.filter (· ≠ 0)) :=
        Nat.le_mul_of_pos_right _ (volume_filter_pos rest)
      simp only [wordVolume]
      rw [if_pos (Nat.lt_of_le_of_lt hle h), ih h, volume, Nat.mul_assoc]

structure Dense (α : Type) where
  shape : List Nat
  data : List α
  deriving DecidableEq

namespace Dense

variable {α : Type}

def ofShape (shape : List Nat) (data : List α) : Except Error (Dense α) :=
  match wordVolume 1 shape with
  | none => .error (.invalidArgument (.shapeTooLarge shape))
  | some expected => do
    ensure (expected = data.length) (.lengthMismatch .elements expected data.length)
    ensure (volume (shape.filter (· ≠ 0)) < sizeLimit) (.invalidArgument .shapeOverflow)
    pure ⟨shape, data⟩

/-- As many elements as the shape says, and lengths other than zero whose
product fits in 63 bits. -/
structure Valid (a : Dense α) : Prop where
  size : a.data.length = volume a.shape
  bounded : volume (a.shape.filter (· ≠ 0)) < sizeLimit

theorem ofShape_ok {shape : List Nat} {data : List α} {a : Dense α} :
    ofShape shape data = .ok a ↔ a = ⟨shape, data⟩ ∧ a.Valid := by
  have hword (h : volume (shape.filter (· ≠ 0)) < sizeLimit) :
      wordVolume 1 shape = some (volume shape) := by
    have hlimit : sizeLimit < wordLimit := by decide
    rw [wordVolume_of_lt (by omega), Nat.one_mul]
  unfold ofShape
  cases hvolume : wordVolume 1 shape with
  | none =>
    simp only [reduceCtorEq, false_iff, not_and]
    rintro rfl ⟨_, hbound⟩
    rw [hword hbound] at hvolume
    cases hvolume
  | some expected =>
    have hexpected : expected = volume shape := by simpa using wordVolume_eq hvolume
    simp only [bind_ok, ensure_ok, pure_ok]
    constructor
    · rintro ⟨_, hsize, _, hbound, rfl⟩
      exact ⟨rfl, by rw [← hsize, hexpected], hbound⟩
    · rintro ⟨rfl, hsize, hbound⟩
      exact ⟨(), by rw [hexpected, hsize], (), hbound, rfl⟩

/-- Checks that every row has `columns` elements; `position` is the place of the
first of them. -/
def checkRows (columns position : Nat) : List (List α) → Except Error Unit
  | [] => .ok ()
  | row :: rest => do
    ensure (row.length = columns) (.shapeMismatch (.row position) columns row.length)
    checkRows columns (position + 1) rest

/-- An array with two axes from its rows. No rows give a shape of two zeros. -/
def ofRows (rows : List (List α)) : Except Error (Dense α) := do
  let columns := (rows.head?.map List.length).getD 0
  checkRows columns 0 rows
  ofShape [rows.length, columns] rows.flatten

def full (shape : List Nat) (value : α) : Dense α :=
  ⟨shape, List.replicate (volume shape) value⟩

def tabulate (shape : List Nat) (element : Nat → α) : Dense α :=
  ⟨shape, (List.range (volume shape)).map element⟩

def map {β : Type} (f : α → β) (a : Dense α) : Dense β := ⟨a.shape, a.data.map f⟩

-- ---------------------------------------------------------------------------
-- Gathering along an axis
-- ---------------------------------------------------------------------------

/-- Row-major data whose axes are `outer`, one axis of `length` entries and
`inner`, with only the entries at `indices`, in that order. -/
def gather (outer length inner : Nat) (indices : List Nat) (data : List α) : List α :=
  if data.isEmpty then []
  else
    (pieces outer (length * inner) data).flatMap fun slab =>
      (pick indices (pieces length inner slab)).flatten

/-- The entries at `indices` along `axis`. Indices may repeat and come in any
order. -/
def select (a : Dense α) (axis : Nat) (indices : List Nat) : Except Error (Dense α) :=
  match a.shape[axis]? with
  | none => .error (.indexOutOfRange axis a.shape.length .axes)
  | some length =>
    match indices.find? fun i => decide (length ≤ i) with
    | some bad => .error (.indexOutOfRange bad length .selectedAxis)
    | none =>
      let outer := volume (a.shape.take axis)
      let inner := volume (a.shape.drop (axis + 1))
      ofShape (a.shape.set axis indices.length) (gather outer length inner indices a.data)

-- ---------------------------------------------------------------------------
-- Reversing the axes
-- ---------------------------------------------------------------------------

def interleave (width : Nat) (rows : List (List α)) : List α :=
  (List.range width).flatMap fun column => rows.filterMap fun row => row[column]?

def reverseData : List Nat → List α → List α
  | [], data => data
  | length :: rest, data =>
    interleave (volume rest) ((pieces length (volume rest) data).map (reverseData rest))

/-- The array with its axes reversed: entry `(i, …, k)` becomes `(k, …, i)`. -/
def reverseAxes (a : Dense α) : Dense α :=
  ⟨a.shape.reverse, if a.data.isEmpty then [] else reverseData a.shape a.data⟩

-- ---------------------------------------------------------------------------
-- Two arrays
-- ---------------------------------------------------------------------------

/-- The first axis on which two shapes differ; axis 0 if one continues the
other. -/
def mismatchAxis (left right : List Nat) : Nat :=
  ((left.zip right).findIdx? fun pair => pair.1 != pair.2).getD 0

def combine (op : α → α → α) (left right : Dense α) : Except Error (Dense α) := do
  let axis := mismatchAxis left.shape right.shape
  ensure (left.shape = right.shape)
    (.shapeMismatch (.addition axis left.shape right.shape)
      (left.shape.getD axis 0) (right.shape.getD axis 0))
  ofShape left.shape (left.data.zipWith op right.data)

def agree (test : α → α → Bool) (left right : Dense α) : Bool :=
  left.shape == right.shape && (left.data.zip right.data).all fun pair => test pair.1 pair.2

end Dense

end BlockTensor
