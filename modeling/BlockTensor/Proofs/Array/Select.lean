import BlockTensor.Proofs.Array.Rows
import BlockTensor.Proofs.ArrayLaws

/-!
# Selecting along an axis

Selecting entries of an axis of a valid array never fails as long as they exist
and are not more than the axis has, and `select_ok` says which array comes out.
With more of them, as an entry may repeat, the array could become too large;
`select_of_bounded` is for selections that stay within the bound.
-/

namespace BlockTensor

-- ---------------------------------------------------------------------------
-- Shapes and volumes
-- ---------------------------------------------------------------------------

theorem volume_append (left right : List Nat) :
    volume (left ++ right) = volume left * volume right := by
  induction left with
  | nil => simp [volume]
  | cons length rest ih => rw [List.cons_append, volume, volume, ih, Nat.mul_assoc]

theorem axes_of_getElem? {shape : List Nat} {axis length : Nat} (h : shape[axis]? = some length) :
    ∃ outer inner, shape = outer ++ length :: inner ∧ outer.length = axis := by
  obtain ⟨hlt, rfl⟩ := List.getElem?_eq_some_iff.mp h
  refine ⟨shape.take axis, shape.drop (axis + 1), ?_, List.length_take_of_le (Nat.le_of_lt hlt)⟩
  rw [List.getElem_cons_drop, List.take_append_drop]

/-- Lengths of zero count as one. -/
theorem volume_filter_cons (length : Nat) (rest : List Nat) :
    volume ((length :: rest).filter (· ≠ 0)) =
      max 1 length * volume (rest.filter (· ≠ 0)) := by
  by_cases h : length = 0
  · simp [h]
  · rw [List.filter_cons_of_pos (by simpa using h), volume,
      Nat.max_eq_right (Nat.one_le_iff_ne_zero.mpr h)]

theorem volume_filter_shorter {outer inner : List Nat} {length length' : Nat}
    (h : length' ≤ length) : volume ((outer ++ length' :: inner).filter (· ≠ 0)) ≤
      volume ((outer ++ length :: inner).filter (· ≠ 0)) := by
  simp only [List.filter_append, volume_append, volume_filter_cons]
  have hmax : max 1 length' ≤ max 1 length := by omega
  exact Nat.mul_le_mul_left _ (Nat.mul_le_mul_right _ hmax)

theorem volume_le_volume_filter_pos (shape : List Nat) :
    volume shape ≤ volume (shape.filter (· ≠ 0)) := by
  induction shape with
  | nil => exact Nat.le_refl _
  | cons length rest ih =>
    rw [volume_filter_cons, volume]
    exact Nat.mul_le_mul (Nat.le_max_right ..) ih

theorem volume_filter_sublist {part shape : List Nat} (h : part.Sublist shape) :
    volume (part.filter (· ≠ 0)) ≤ volume (shape.filter (· ≠ 0)) := by
  induction h with
  | slnil => exact Nat.le_refl _
  | cons length _ ih =>
    rw [volume_filter_cons]
    exact Nat.le_trans ih (Nat.le_mul_of_pos_left _ (by omega))
  | cons_cons length _ ih =>
    rw [volume_filter_cons, volume_filter_cons]
    exact Nat.mul_le_mul_left _ ih

theorem volume_perm {left right : List Nat} (h : left.Perm right) : volume left = volume right := by
  induction h with
  | nil => rfl
  | cons length _ ih => rw [volume, volume, ih]
  | swap first second rest => rw [volume, volume, volume, volume, Nat.mul_left_comm]
  | trans _ _ ihleft ihright => rw [ihleft, ihright]

-- ---------------------------------------------------------------------------
-- Selecting
-- ---------------------------------------------------------------------------

section
variable {outer inner : List Nat} {length : Nat} {indices : List Nat}
  (hindices : ∀ i ∈ indices, i < length)
include hindices

theorem Dense.select_of_bounded {α : Type} {a : Dense α} (ha : a.Valid)
    (hshape : a.shape = outer ++ length :: inner)
    (hbound : volume ((outer ++ indices.length :: inner).filter (· ≠ 0)) < sizeLimit) :
    a.select outer.length indices = .ok ⟨outer ++ indices.length :: inner,
      gather (volume outer) length (volume inner) indices a.data⟩ := by
  have hlength : a.shape[outer.length]? = some length := by simp [hshape]
  have hfound : indices.find? (fun i => decide (length ≤ i)) = none := by
    simpa [List.find?_eq_none] using hindices
  have hdata : a.data.length = volume outer * (length * volume inner) := by
    rw [ha.size, hshape, volume_append, volume]
  unfold select
  simp only [hlength, hfound]
  rw [ofShape_ok]
  constructor
  · simp [hshape]
  · refine ⟨?_, hbound⟩
    rw [length_gather hindices hdata, volume_append, volume]

variable (hcount : indices.length ≤ length)
include hcount

theorem Dense.select_ok {α : Type} {a : Dense α} (ha : a.Valid)
    (hshape : a.shape = outer ++ length :: inner) :
    a.select outer.length indices = .ok ⟨outer ++ indices.length :: inner,
      gather (volume outer) length (volume inner) indices a.data⟩ :=
  select_of_bounded hindices ha hshape
    (Nat.lt_of_le_of_lt (volume_filter_shorter hcount) (hshape ▸ ha.bounded))

theorem Values.select_ok {a : Values} (ha : a.Valid)
    (hshape : a.shape = outer ++ length :: inner) :
    ∃ b, a.select outer.length indices = .ok b := by
  cases a with
  | float32 a => exact ⟨_, map_ok.mpr ⟨_, Dense.select_ok hindices hcount ha hshape, rfl⟩⟩
  | float64 a => exact ⟨_, map_ok.mpr ⟨_, Dense.select_ok hindices hcount ha hshape, rfl⟩⟩

end

end BlockTensor
