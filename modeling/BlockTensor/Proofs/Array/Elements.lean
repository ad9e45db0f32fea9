import BlockTensor.Proofs.Array.Slices

/-!
# Elements by their index

The index of an element has one position for each axis. `offset` is its place in
row-major data, and an index with a position past the end of its axis has none. The
slice at an entry of an axis holds the elements with that position on the axis
(`element?_slice`), so equal slices are equal elements.
-/

namespace BlockTensor

/-- The place of an index in row-major data. -/
def offset : (shape index : List Nat) → Option Nat
  | [], [] => some 0
  | length :: shape, i :: index =>
    if i < length then (offset shape index).map fun k => i * volume shape + k else none
  | _, _ => none

theorem offset_lt {shape index : List Nat} {k : Nat} (h : offset shape index = some k) :
    k < volume shape := by
  induction shape generalizing index k with
  | nil =>
    cases index with
    | nil => simp_all [offset, volume]
    | cons => simp [offset] at h
  | cons length shape ih =>
    cases index with
    | nil => simp [offset] at h
    | cons i index =>
      simp only [offset, Option.ite_none_right_eq_some, Option.map_eq_some_iff] at h
      obtain ⟨hi, inner, hinner, rfl⟩ := h
      calc i * volume shape + inner
        _ < i * volume shape + volume shape := Nat.add_lt_add_left (ih hinner) _
        _ = (i + 1) * volume shape := (Nat.succ_mul ..).symm
        _ ≤ length * volume shape := Nat.mul_le_mul_right _ hi

theorem offset_append {outer inner before after : List Nat} (h : before.length = outer.length) :
    offset (outer ++ inner) (before ++ after) = (offset outer before).bind fun p =>
      (offset inner after).map fun q => p * volume inner + q := by
  induction outer generalizing before with
  | nil =>
    cases before with
    | nil => simp [offset]
    | cons => simp at h
  | cons length outer ih =>
    cases before with
    | nil => simp at h
    | cons i before =>
      simp only [List.cons_append, offset, ih (Nat.succ.inj h)]
      by_cases hi : i < length
      · cases offset outer before <;> cases offset inner after <;>
          simp [hi, volume_append, Nat.add_mul, Nat.mul_assoc, Nat.add_assoc]
      · simp [hi]

theorem getElem?_of_pieces {α : Type} {count size p q : Nat} (items : List α) (hp : p < count)
    (hq : q < size) :
    items[p * size + q]? = (pieces count size items)[p]?.bind fun piece => piece[q]? := by
  simp [getElem?_pieces items hp, hq]

namespace Dense

variable {α : Type}

/-- The element at an index; none if the index names none. -/
def element? (a : Dense α) (index : List Nat) : Option α :=
  (offset a.shape index).bind fun k => a.data[k]?

section
variable {a : Dense α} {outer inner : List Nat} {length i : Nat} (ha : a.Valid)
  (hshape : a.shape = outer ++ length :: inner) (hi : i < length)
include ha hshape hi

theorem pieces_slice : pieces (volume outer) (volume inner) (a.slice outer.length i).data =
    (pieces (volume outer) (length * volume inner) a.data).map
      fun slab => (slab.drop (i * volume inner)).take (volume inner) := by
  have hdata : a.data.length = volume outer * (length * volume inner) := by
    rw [ha.size, hshape, volume_append, volume]
  have hrow : (i + 1) * volume inner ≤ length * volume inner := Nat.mul_le_mul_right _ hi
  have hlengths : ∀ row ∈ (pieces (volume outer) (length * volume inner) a.data).map
      (fun slab => (slab.drop (i * volume inner)).take (volume inner)),
      row.length = volume inner := by
    intro row hmem
    obtain ⟨slab, hslab, rfl⟩ := List.mem_map.mp hmem
    rw [Nat.succ_mul] at hrow
    simp only [List.length_take, List.length_drop, length_of_mem_pieces hdata hslab]
    omega
  have hcut := pieces_flatten hlengths
  rw [List.length_map, length_pieces] at hcut
  simpa [slice, hshape, List.flatMap_def] using hcut

theorem element?_slice {before after : List Nat} (hbefore : before.length = outer.length) :
    (a.slice outer.length i).element? (before ++ 0 :: after) =
      a.element? (before ++ i :: after) := by
  have hslice : (a.slice outer.length i).shape = outer ++ 1 :: inner := by simp [slice, hshape]
  have hrow : (i + 1) * volume inner ≤ length * volume inner := Nat.mul_le_mul_right _ hi
  rw [Nat.succ_mul] at hrow
  rw [element?, element?, hslice, hshape, offset_append hbefore, offset_append hbefore]
  cases hbefore : offset outer before with
  | none => rfl
  | some p =>
    cases hafter : offset inner after with
    | none => simp [offset, hafter]
    | some q =>
      have hp := offset_lt hbefore
      have hq := offset_lt hafter
      have hlt : i * volume inner + q < length * volume inner := by omega
      have hdata : (a.slice outer.length i).data[p * volume inner + q]? =
          a.data[p * (length * volume inner) + (i * volume inner + q)]? := by
        rw [getElem?_of_pieces _ hp hq, getElem?_of_pieces a.data hp hlt,
          pieces_slice ha hshape hi, List.getElem?_map]
        cases (pieces (volume outer) (length * volume inner) a.data)[p]? with
        | none => rfl
        | some slab => simp [hq]
      simpa [offset, hafter, hi, volume] using hdata

end

end Dense

-- ---------------------------------------------------------------------------
-- Value arrays
-- ---------------------------------------------------------------------------

namespace Values

def element? (index : List Nat) : Values → Option (Single ⊕ Double)
  | float32 a => (a.element? index).map .inl
  | float64 a => (a.element? index).map .inr

theorem element?_slice {a : Values} {outer inner before after : List Nat} {length i : Nat}
    (ha : a.Valid) (hshape : a.shape = outer ++ length :: inner) (hi : i < length)
    (hbefore : before.length = outer.length) :
    (a.slice outer.length i).element? (before ++ 0 :: after) =
      a.element? (before ++ i :: after) := by
  cases a with
  | float32 a => exact congrArg (Option.map Sum.inl) (Dense.element?_slice ha hshape hi hbefore)
  | float64 a => exact congrArg (Option.map Sum.inr) (Dense.element?_slice ha hshape hi hbefore)

end Values

end BlockTensor
