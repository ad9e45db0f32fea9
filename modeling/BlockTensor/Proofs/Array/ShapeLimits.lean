import BlockTensor.Proofs.Archive.Normal
import BlockTensor.Proofs.Array.Select
import BlockTensor.Proofs.Paths

/-!
# Shapes near the limits

Lengths are 64-bit words, and their running product has to be one, too. A length
of zero brings it down for good, so the order of the lengths decides which limit
is reported. It does not decide which shapes make an array, since the product of
the lengths other than zero is bounded as well (`ShapeLaws`). Archives hold any
shape, and none makes an array of more or fewer elements than its shape says.
-/

namespace BlockTensor

-- ---------------------------------------------------------------------------
-- Running products
-- ---------------------------------------------------------------------------

/-- The running product leaves the 64-bit words before a length of zero. -/
def RunsOver (shape : List Nat) : Prop :=
  ∃ n, 0 ∉ shape.take n ∧ wordLimit ≤ volume (shape.take n)

theorem exists_take_cons {P : List Nat → Prop} {length : Nat} {rest : List Nat} :
    (∃ n, P ((length :: rest).take n)) ↔ P [] ∨ ∃ n, P (length :: rest.take n) := by
  constructor
  · rintro ⟨n, h⟩
    cases n with
    | zero => exact .inl h
    | succ n => exact .inr ⟨n, h⟩
  · rintro (h | ⟨n, h⟩)
    · exact ⟨0, h⟩
    · exact ⟨n + 1, h⟩

theorem wordVolume_eq_none_iff {count : Nat} {shape : List Nat} (hcount : count < wordLimit) :
    wordVolume count shape = none ↔
      ∃ n, 0 ∉ shape.take n ∧ wordLimit ≤ count * volume (shape.take n) := by
  induction shape generalizing count with
  | nil => simp [wordVolume, volume, hcount]
  | cons length rest ih =>
    have hstart : ¬(0 ∉ ([] : List Nat) ∧ wordLimit ≤ count * volume []) := by
      simp [volume, hcount]
    rw [exists_take_cons (P := fun part => 0 ∉ part ∧ wordLimit ≤ count * volume part),
      or_iff_right hstart, wordVolume]
    simp only [volume, ← Nat.mul_assoc]
    split
    next hfits =>
      rw [ih hfits]
      refine exists_congr fun n => and_congr_left fun hover => ?_
      have hlength : length ≠ 0 := by
        rintro rfl
        simp [wordLimit] at hover
      simp [hlength.symm]
    next hover =>
      have hlength : length ≠ 0 := by
        rintro rfl
        simp [wordLimit] at hover
      refine iff_of_true rfl ⟨0, ?_, ?_⟩
      · simpa using hlength.symm
      · simpa [volume] using hover

theorem runsOver_iff {shape : List Nat} : RunsOver shape ↔ wordVolume 1 shape = none := by
  have hone : 1 < wordLimit := by decide
  simp only [RunsOver, wordVolume_eq_none_iff hone, Nat.one_mul]

-- ---------------------------------------------------------------------------
-- Arrays
-- ---------------------------------------------------------------------------

namespace Dense

variable {α : Type}

structure ShapeLaws (shape : List Nat) (data : List α) : Prop where
  ok_iff : (∃ a, ofShape shape data = .ok a) ↔
    volume shape = data.length ∧ volume (shape.filter (· ≠ 0)) < sizeLimit
  made : ∀ a, ofShape shape data = .ok a → a = ⟨shape, data⟩
  tooLarge_iff : ofShape shape data = .error (.invalidArgument (.shapeTooLarge shape)) ↔
    RunsOver shape
  mismatch_iff : ofShape shape data =
      .error (.lengthMismatch .elements (volume shape) data.length) ↔
    ¬RunsOver shape ∧ volume shape ≠ data.length
  overflow_iff : ofShape shape data = .error (.invalidArgument .shapeOverflow) ↔
    ¬RunsOver shape ∧ volume shape = data.length ∧
      sizeLimit ≤ volume (shape.filter (· ≠ 0))
  perm : ∀ other, shape.Perm other →
    ((∃ a, ofShape shape data = .ok a) ↔ ∃ a, ofShape other data = .ok a)

theorem exists_ofShape_iff {shape : List Nat} {data : List α} :
    (∃ a, ofShape shape data = .ok a) ↔
      volume shape = data.length ∧ volume (shape.filter (· ≠ 0)) < sizeLimit := by
  simp only [ofShape_ok, exists_eq_left]
  exact ⟨fun h => ⟨h.size.symm, h.bounded⟩, fun h => ⟨h.1.symm, h.2⟩⟩

/-- The elements are counted before the lengths other than zero are multiplied. -/
theorem ofShape_of_not_runsOver {shape : List Nat} (data : List α) (h : ¬RunsOver shape) :
    ofShape shape data = (do
      ensure (volume shape = data.length) (.lengthMismatch .elements (volume shape) data.length)
      ensure (volume (shape.filter (· ≠ 0)) < sizeLimit) (.invalidArgument .shapeOverflow)
      pure ⟨shape, data⟩) := by
  rw [runsOver_iff] at h
  obtain ⟨expected, hexpected⟩ := Option.ne_none_iff_exists'.mp h
  obtain rfl : expected = volume shape := by simpa using wordVolume_eq hexpected
  rw [ofShape, hexpected]

theorem ofShape_error_iff {shape : List Nat} {data : List α} {error : Error} :
    ofShape shape data = .error error ↔
      RunsOver shape ∧ .invalidArgument (.shapeTooLarge shape) = error ∨
      ¬RunsOver shape ∧ volume shape ≠ data.length ∧
        .lengthMismatch .elements (volume shape) data.length = error ∨
      ¬RunsOver shape ∧ volume shape = data.length ∧
        sizeLimit ≤ volume (shape.filter (· ≠ 0)) ∧ .invalidArgument .shapeOverflow = error := by
  by_cases hover : RunsOver shape
  · have hnone : wordVolume 1 shape = none := runsOver_iff.mp hover
    simp [ofShape, hnone, hover]
  · rw [ofShape_of_not_runsOver data hover]
    simp [hover, bind_error, ensure_error, ensure_ok, pure, Except.pure]

theorem shapeLaws (shape : List Nat) (data : List α) : ShapeLaws shape data where
  ok_iff := exists_ofShape_iff
  made _ h := (ofShape_ok.mp h).1
  tooLarge_iff := by simp [ofShape_error_iff]
  mismatch_iff := by simp [ofShape_error_iff]
  overflow_iff := by simp [ofShape_error_iff]
  perm other h := by
    rw [exists_ofShape_iff, exists_ofShape_iff, volume_perm h, volume_perm (h.filter _)]

end Dense

-- ---------------------------------------------------------------------------
-- Archives
-- ---------------------------------------------------------------------------

theorem Values.Valid.length_eq {a : Values} (h : a.Valid) : a.length = volume a.shape := by
  cases a with
  | float32 a => exact h.size
  | float64 a => exact h.size

theorem Block.Valid.gradientAt {block inner : Block} {path : List String} (h : block.Valid)
    (hinner : block.gradientAt path = some inner) : inner.Valid := by
  induction path generalizing block with
  | nil =>
    cases hinner
    exact h
  | cons parameter path ih =>
    obtain ⟨gradient, hgradient, hinner⟩ := Option.bind_eq_some_iff.mp hinner
    exact ih (h.gradient (Gradients.mem_of_find? hgradient)).2 hinner

def Tensor.Sized (tensor : Tensor) : Prop :=
  ∀ block ∈ tensor.blocks, ∀ path inner, block.gradientAt path = some inner →
    inner.values.length = volume inner.values.shape

theorem Tensor.Valid.sized {tensor : Tensor} (h : tensor.Valid) : tensor.Sized :=
  fun block hmem _ _ hinner => ((h.blocks block hmem).gradientAt hinner).labelled.values.length_eq

theorem shape_limits {α : Type} (shape : List Nat) (data : List α) : Dense.ShapeLaws shape data ∧
    ∀ (dtype : DType) (limit : UInt64) (bytes : Bytes) (tensor : Tensor),
      Archive.load dtype limit bytes = .ok tensor → tensor.Sized :=
  ⟨Dense.shapeLaws shape data, fun _ _ _ _ h => (Archive.load_valid h).sized⟩

/-- Two long axes without elements. A third one of length zero comes too late after
them, and before them leaves the other limit. -/
theorem shape_limits_nested :
    Archive.load .float64 1000 Archive.longNested = .ok nestedTensor ∧ nestedTensor.Sized ∧
      Dense.ShapeLaws [0x100000000, 0x100000000, 0] ([] : List Double) ∧
      Dense.ofShape [0x100000000, 0x100000000, 0] ([] : List Double) =
        .error (.invalidArgument (.shapeTooLarge [0x100000000, 0x100000000, 0])) ∧
      Dense.ofShape [0, 0x100000000, 0x100000000] ([] : List Double) =
        .error (.invalidArgument .shapeOverflow) := by
  have hload := Archive.load_longNested
  obtain ⟨hshape, hsized⟩ := shape_limits [0x100000000, 0x100000000, 0] ([] : List Double)
  have hover : RunsOver [0x100000000, 0x100000000, 0] := ⟨2, by decide, by decide⟩
  exact ⟨hload, hsized _ _ _ _ hload, hshape, hshape.tooLarge_iff.mpr hover, rfl⟩

end BlockTensor
