import BlockTensor.Archive.Basic
import BlockTensor.Proofs.Array.Reversed
import BlockTensor.Proofs.Paths
import Mathlib.Algebra.Ring.Int.Defs

/-!
# Arrays in memory

A stored array is a memory with one stride for each axis. Its elements are read in
row-major order wherever they lie (`Stored.read`), and operations compute from what
they read and store their result in row-major order. To reverse the axes nothing is
copied: the strides change their order and the memory stays as it is.

The layout cannot be seen in a result (`StoredValues.LayoutLaws`). Reading an array
with reversed axes gives the elements at the reversed indices (`read_reversed`), and
what saving writes are the elements that are read.
-/

namespace BlockTensor

/-- An array in memory. One step along an axis is one stride further. -/
structure Stored (α : Type) where
  shape : List Nat
  first : Nat
  strides : List Int
  memory : List α

namespace Stored

variable {α : Type} {s : Stored α} {index : List Nat}

def distance (strides : List Int) (index : List Nat) : Int :=
  (List.zipWith (fun (stride : Int) (i : Nat) => stride * i) strides index).sum

def place (s : Stored α) (index : List Nat) : Int := s.first + distance s.strides index

/-- One stride for each axis, all elements within the memory, and lengths other than
zero whose product fits in 63 bits. -/
structure Fits (s : Stored α) : Prop where
  rank : s.strides.length = s.shape.length
  within : ∀ k < volume s.shape, 0 ≤ s.place (indexAt s.shape k) ∧
    s.place (indexAt s.shape k) < s.memory.length
  bounded : volume (s.shape.filter (· ≠ 0)) < sizeLimit

/-- The elements in row-major order, wherever they lie. -/
def read (s : Stored α) : Dense α :=
  let places := (List.range (volume s.shape)).map fun k => (s.place (indexAt s.shape k)).toNat
  ⟨s.shape, pick places s.memory⟩

def reversed (s : Stored α) : Stored α :=
  { s with shape := s.shape.reverse, strides := s.strides.reverse }

def rowStrides : List Nat → List Int
  | [] => []
  | _ :: rest => (volume rest : Int) :: rowStrides rest

def rowMajor (a : Dense α) : Stored α := ⟨a.shape, 0, rowStrides a.shape, a.data⟩

@[simp] theorem shape_read : s.read.shape = s.shape := rfl

@[simp] theorem shape_reversed : s.reversed.shape = s.shape.reverse := rfl

@[simp] theorem memory_reversed : s.reversed.memory = s.memory := rfl

-- ---------------------------------------------------------------------------
-- Reading
-- ---------------------------------------------------------------------------

theorem Fits.places_lt (h : s.Fits) : ∀ p ∈ (List.range (volume s.shape)).map fun k =>
    (s.place (indexAt s.shape k)).toNat, p < s.memory.length := by
  intro p hmem
  obtain ⟨k, hk, rfl⟩ := List.mem_map.mp hmem
  obtain ⟨hfirst, hlast⟩ := h.within k (List.mem_range.mp hk)
  omega

theorem Fits.place_within (h : s.Fits) {k : Nat} (hk : offset s.shape index = some k) :
    0 ≤ s.place index ∧ s.place index < s.memory.length := by
  have hplace := h.within k (offset_lt hk)
  rwa [indexAt_of_offset hk] at hplace

theorem read_valid (h : s.Fits) : s.read.Valid where
  size := by
    rw [read, length_pick h.places_lt, List.length_map, List.length_range]
  bounded := h.bounded

theorem element?_read (h : s.Fits) (index : List Nat) : s.read.element? index =
    (offset s.shape index).bind fun _ => s.memory[(s.place index).toNat]? := by
  rw [Dense.element?, shape_read]
  cases hk : offset s.shape index with
  | none => rfl
  | some k =>
    rw [Option.bind_some, Option.bind_some, read, getElem?_pick h.places_lt, List.getElem?_map,
      List.getElem?_range (offset_lt hk), Option.map_some, Option.bind_some, indexAt_of_offset hk]

-- ---------------------------------------------------------------------------
-- Reversed axes
-- ---------------------------------------------------------------------------

theorem distance_reverse {strides : List Int} (hrank : index.length = strides.length) :
    distance strides.reverse index = distance strides index.reverse := by
  have hlength : strides.length = index.reverse.length := by rw [List.length_reverse, hrank]
  rw [distance, distance, ← List.sum_reverse (List.zipWith _ strides index.reverse),
    List.reverse_zipWith hlength, List.reverse_reverse]

theorem place_reversed (h : s.Fits) {k : Nat} (hk : offset s.reversed.shape index = some k) :
    s.reversed.place index = s.place index.reverse := by
  have hrank : index.length = s.strides.length := by
    rw [length_of_offset hk, shape_reversed, List.length_reverse, h.rank]
  rw [place, place, ← distance_reverse hrank]
  rfl

theorem offset_reversed_isSome (s : Stored α) (index : List Nat) :
    (offset s.reversed.shape index).isSome = (offset s.shape index.reverse).isSome := by
  rw [shape_reversed, ← offset_reverse_isSome s.shape, List.reverse_reverse]

theorem Fits.reversed (h : s.Fits) : s.reversed.Fits where
  rank := by simp [Stored.reversed, h.rank]
  within := by
    intro k hk
    have hoffset := offset_indexAt hk
    have hsome := (offset_reversed_isSome s _).symm.trans (Option.isSome_of_eq_some hoffset)
    obtain ⟨_, hreversed⟩ := Option.isSome_iff_exists.mp hsome
    rw [place_reversed h hoffset]
    exact h.place_within hreversed
  bounded := by
    rw [shape_reversed, volume_filter_reverse]
    exact h.bounded

theorem read_reversed (h : s.Fits) : s.reversed.read = s.read.reverseAxes := by
  refine (read_valid h.reversed).eq_of_element? (Dense.reverseAxes_valid (read_valid h)) rfl
    fun index => ?_
  have hsome := offset_reversed_isSome s index
  rw [Dense.element?_reverseAxes (read_valid h), element?_read h, element?_read h.reversed]
  cases hk : offset s.reversed.shape index with
  | none =>
    rw [hk, Option.isSome_none] at hsome
    have hnone := Option.isNone_iff_eq_none.mp (Option.isSome_eq_false_iff.mp hsome.symm)
    rw [hnone, Option.bind_none, Option.bind_none]
  | some k =>
    obtain ⟨k', hk'⟩ := Option.isSome_iff_exists.mp
      (hsome.symm.trans (Option.isSome_of_eq_some hk))
    rw [hk', Option.bind_some, Option.bind_some, place_reversed h hk, memory_reversed]

-- ---------------------------------------------------------------------------
-- Row-major order
-- ---------------------------------------------------------------------------

theorem distance_rowStrides {shape : List Nat} {k : Nat} (h : offset shape index = some k) :
    distance (rowStrides shape) index = k := by
  induction shape generalizing index k with
  | nil =>
    cases index with
    | nil => cases h; rfl
    | cons => simp [offset] at h
  | cons length rest ih =>
    cases index with
    | nil => simp [offset] at h
    | cons i index =>
      simp only [offset, Option.ite_none_right_eq_some, Option.map_eq_some_iff] at h
      obtain ⟨-, q, hq, rfl⟩ := h
      have hrest : (List.zipWith _ (rowStrides rest) index).sum = (q : Int) := ih hq
      rw [rowStrides, distance, List.zipWith_cons_cons, List.sum_cons, hrest, Int.mul_comm]
      push_cast
      rfl

theorem place_rowMajor {a : Dense α} {k : Nat} (h : offset a.shape index = some k) :
    (rowMajor a).place index = k := by
  rw [place, rowMajor, distance_rowStrides h]
  exact Int.zero_add _

theorem length_rowStrides (shape : List Nat) : (rowStrides shape).length = shape.length := by
  induction shape with
  | nil => rfl
  | cons _ _ ih => rw [rowStrides, List.length_cons, List.length_cons, ih]

theorem fits_rowMajor {a : Dense α} (ha : a.Valid) : (rowMajor a).Fits where
  rank := length_rowStrides a.shape
  within k hk := by
    have hplace : (rowMajor a).place (indexAt a.shape k) = k := place_rowMajor (offset_indexAt hk)
    have hlast : k < a.data.length := ha.size ▸ hk
    exact hplace ▸ ⟨Int.natCast_nonneg k, Int.ofNat_lt.mpr hlast⟩
  bounded := ha.bounded

theorem read_rowMajor {a : Dense α} (ha : a.Valid) : (rowMajor a).read = a := by
  refine (read_valid (fits_rowMajor ha)).eq_of_element? ha rfl fun index => ?_
  rw [element?_read (fits_rowMajor ha), Dense.element?, rowMajor]
  cases hk : offset a.shape index with
  | none => rfl
  | some k =>
    have hplace : (rowMajor a).place index = k := place_rowMajor hk
    rw [rowMajor] at hplace
    rw [Option.bind_some, Option.bind_some, hplace, Int.toNat_natCast]

-- ---------------------------------------------------------------------------
-- Gathering
-- ---------------------------------------------------------------------------

/-- Selections read the array first, so the laws of row-major data hold in any layout. -/
theorem gatherLaws (h : s.Fits) (axis : Nat) (indices : List Nat) :
    s.read.GatherLaws axis indices :=
  Dense.gatherLaws_of_valid (read_valid h) axis indices

/-- The numbers from 0 to 11 in two slabs of three rows, the first axis the fastest. -/
def columnMajor : Stored Nat := ⟨[2, 3, 2], 0, [1, 2, 6], List.range 12⟩

theorem gatherLaws_columnMajor : columnMajor.Fits ∧
    columnMajor.read.GatherLaws 1 [2, 0, 2, 2] ∧
    ∃ b, columnMajor.read.select 1 [2, 0, 2, 2] = .ok b ∧ b.shape = [2, 4, 2] ∧
      b.data = [4, 10, 0, 6, 4, 10, 4, 10, 5, 11, 1, 7, 5, 11, 5, 11] ∧
      b.element? [1, 3, 0] = columnMajor.read.element? [1, 2, 0] := by
  have hfits : columnMajor.Fits := ⟨rfl, by decide, by decide⟩
  have hlaws := gatherLaws hfits 1 [2, 0, 2, 2]
  obtain ⟨b, hb⟩ := hlaws.ok_iff.mpr ⟨⟨3, rfl, by decide⟩, by decide⟩
  have hgathered := hlaws.gathered b hb
  refine ⟨hfits, hlaws, b, hb, hgathered.shape, ?_, hgathered.elements [1] 3 [0] rfl⟩
  exact (hgathered.words 3 rfl).2.trans rfl

end Stored

-- ---------------------------------------------------------------------------
-- Value arrays
-- ---------------------------------------------------------------------------

inductive StoredValues where
  | float32 (array : Stored Single)
  | float64 (array : Stored Double)

namespace StoredValues

def Fits : StoredValues → Prop
  | float32 s => s.Fits
  | float64 s => s.Fits

def read : StoredValues → Values
  | float32 s => .float32 s.read
  | float64 s => .float64 s.read

def reversed : StoredValues → StoredValues
  | float32 s => float32 s.reversed
  | float64 s => float64 s.reversed

def rowMajor : Values → StoredValues
  | .float32 a => float32 (Stored.rowMajor a)
  | .float64 a => float64 (Stored.rowMajor a)

/-- Selects from the elements as they are read; the result is in row-major order. -/
def select (s : StoredValues) (axis : Nat) (indices : List Nat) : Except Error StoredValues :=
  rowMajor <$> s.read.select axis indices

def add (s t : StoredValues) : Except Error StoredValues := rowMajor <$> s.read.add t.read

theorem read_valid {s : StoredValues} (h : s.Fits) : s.read.Valid := by
  cases s with
  | float32 s => exact Stored.read_valid h
  | float64 s => exact Stored.read_valid h

theorem Fits.reversed {s : StoredValues} (h : s.Fits) : s.reversed.Fits := by
  cases s with
  | float32 s => exact Stored.Fits.reversed h
  | float64 s => exact Stored.Fits.reversed h

theorem read_reversed {s : StoredValues} (h : s.Fits) : s.reversed.read = s.read.reverseAxes := by
  cases s with
  | float32 s => exact congrArg Values.float32 (Stored.read_reversed h)
  | float64 s => exact congrArg Values.float64 (Stored.read_reversed h)

theorem fits_rowMajor {a : Values} (ha : a.Valid) : (rowMajor a).Fits := by
  cases a with
  | float32 a => exact Stored.fits_rowMajor ha
  | float64 a => exact Stored.fits_rowMajor ha

theorem read_rowMajor {a : Values} (ha : a.Valid) : (rowMajor a).read = a := by
  cases a with
  | float32 a => exact congrArg Values.float32 (Stored.read_rowMajor ha)
  | float64 a => exact congrArg Values.float64 (Stored.read_rowMajor ha)

-- ---------------------------------------------------------------------------
-- Results and copies
-- ---------------------------------------------------------------------------

/-- Both fail, or the same is read from both, whatever their layouts. -/
def SameReading (left right : Except Error StoredValues) : Prop :=
  left.toOption.map read = right.toOption.map read

/-- The same shape and elements in a memory of its own, in any layout. -/
structure IsCopy (copy s : StoredValues) : Prop where
  fits : copy.Fits
  dtype : copy.read.dtype = s.read.dtype
  shape : copy.read.shape = s.read.shape
  elements : ∀ index, copy.read.element? index = s.read.element? index

theorem IsCopy.read_eq {copy s : StoredValues} (h : copy.IsCopy s) (hs : s.Fits) :
    copy.read = s.read :=
  (read_valid h.fits).eq_of_element? (read_valid hs) h.dtype h.shape h.elements

theorem isCopy_rowMajor {s : StoredValues} (hs : s.Fits) : (rowMajor s.read).IsCopy s where
  fits := fits_rowMajor (read_valid hs)
  dtype := by rw [read_rowMajor (read_valid hs)]
  shape := by rw [read_rowMajor (read_valid hs)]
  elements index := by rw [read_rowMajor (read_valid hs)]

section
variable {result : Except Error Values} (hvalid : ∀ a, result = .ok a → a.Valid)
include hvalid

theorem read_result : (rowMajor <$> result).toOption.map read = result.toOption := by
  cases result with
  | error => rfl
  | ok a => exact congrArg some (read_rowMajor (hvalid a rfl))

theorem read_reversed_result : (reversed <$> rowMajor <$> result).toOption.map read =
    result.toOption.map Values.reverseAxes := by
  cases result with
  | error => rfl
  | ok a =>
    have ha := hvalid a rfl
    have hread := read_reversed (fits_rowMajor ha)
    rw [read_rowMajor ha] at hread
    exact congrArg some hread

end

end StoredValues

/-- The block with a stored array at `path`. A record takes from the array its shape
and its elements as they are read. -/
def Block.holding (block : Block) (path : List String) (array : StoredValues) : Block :=
  block.withArrays (fun found values => if found = path then array.read else values) []

-- ---------------------------------------------------------------------------
-- Layouts do not matter
-- ---------------------------------------------------------------------------

namespace StoredValues

/-- A stored array beside the one with its axes reversed in place. Each equation holds
for faults too: one side fails exactly when the other does. -/
structure LayoutLaws (s : StoredValues) : Prop where
  fits : s.reversed.Fits
  elements : ∀ index, s.reversed.read.element? index = s.read.element? index.reverse
  select : ∀ axis < s.read.shape.length, ∀ indices, SameReading (s.reversed.select axis indices)
    (reversed <$> s.select (s.read.shape.length - 1 - axis) indices)
  add : ∀ t : StoredValues, t.Fits →
    SameReading (reversed <$> s.add t) (s.reversed.add t.reversed)
  add_ok : ∀ t : StoredValues, t.Fits → s.read.dtype = t.read.dtype →
    s.read.shape = t.read.shape → ∃ sum, s.add t = .ok sum
  copy : (rowMajor s.reversed.read).IsCopy s.reversed
  save : ∀ copy : StoredValues, copy.IsCopy s.reversed →
    ∀ (dtype : DType) (limit : UInt64) (keys : Labels) (before after : List Block) (block : Block)
      (path : List String),
      Archive.save dtype limit ⟨keys, before ++ block.holding path s.reversed :: after⟩ =
        Archive.save dtype limit ⟨keys, before ++ block.holding path copy :: after⟩

theorem layoutLaws {s : StoredValues} (hs : s.Fits) : s.LayoutLaws where
  fits := hs.reversed
  elements index := by rw [read_reversed hs, Values.element?_reverseAxes (read_valid hs)]
  select axis haxis indices := by
    rw [SameReading, StoredValues.select, StoredValues.select, read_result, read_reversed_result,
      read_reversed hs, Values.select_reverseAxes (read_valid hs) haxis]
    · exact fun b hb => (Values.select_valid hb).1
    · exact fun b hb => (Values.select_valid hb).1
  add t ht := by
    rw [SameReading, StoredValues.add, StoredValues.add, read_result, read_reversed_result,
      read_reversed hs, read_reversed ht, Values.add_reverseAxes (read_valid hs) (read_valid ht)]
    · exact fun sum hsum => (Values.add_valid hsum).1
    · exact fun sum hsum => (Values.add_valid hsum).1
  add_ok t ht hdtype hshape := by
    obtain ⟨sum, hsum, -⟩ := Values.add_of_shape (read_valid hs) (read_valid ht) hdtype hshape
    exact ⟨_, map_ok.mpr ⟨sum, hsum, rfl⟩⟩
  copy := isCopy_rowMajor hs.reversed
  save copy hcopy dtype limit keys before after block path := by
    rw [Block.holding, Block.holding, hcopy.read_eq hs.reversed]

/-- Two rows of a wider memory, the last one first: 5, 6, 7 and 1, 2, 3. -/
def window : StoredValues :=
  .float64 ⟨[2, 3], 5, [-4, 1], (List.range 8).map fun n => ⟨UInt64.ofNat n⟩⟩

def windowBlock : Block :=
  { values := .zeros .float64 [3, 2]
    samples := ⟨["sample"], [[0], [1], [2]]⟩
    components := []
    properties := ⟨["property"], [[0], [1]]⟩
    gradients := .nil }

theorem layoutLaws_window : window.Fits ∧ window.LayoutLaws ∧
    window.reversed.read = .float64 ⟨[3, 2], [⟨5⟩, ⟨1⟩, ⟨6⟩, ⟨2⟩, ⟨7⟩, ⟨3⟩]⟩ ∧
    (window.reversed.select 0 [2, 0]).toOption.map read =
      some (.float64 ⟨[2, 2], [⟨7⟩, ⟨3⟩, ⟨5⟩, ⟨1⟩]⟩) ∧
    ∃ bytes,
      Archive.save .float64 1000 ⟨.single, [windowBlock.holding [] window.reversed]⟩ =
        .ok bytes ∧
      Archive.save .float64 1000
        ⟨.single, [windowBlock.holding [] (rowMajor window.reversed.read)]⟩ = .ok bytes := by
  have hfits : window.Fits := ⟨rfl, by decide, by decide⟩
  have hlaws := layoutLaws hfits
  have hsave := hlaws.save _ hlaws.copy .float64 1000 .single [] [] windowBlock []
  refine ⟨hfits, hlaws, rfl, ?_, ?_⟩
  · rw [hlaws.select 0 (by decide)]
    rfl
  · have hbytes : ∃ bytes, Archive.save .float64 1000
        ⟨.single, [windowBlock.holding [] window.reversed]⟩ = .ok bytes := ⟨_, rfl⟩
    obtain ⟨bytes, hbytes⟩ := hbytes
    exact ⟨bytes, hbytes, hsave.symm.trans hbytes⟩

end StoredValues

end BlockTensor
