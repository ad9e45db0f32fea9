import BlockTensor.Proofs.Array.Elements
import BlockTensor.Proofs.Array.ShapeLimits

/-!
# Gathering along an axis

What a selection along an axis gives is said element by element: position `j` on
the axis holds what the array has at the `j`-th index. It fails for an axis or an
index out of range, and names the first one (`OutOfRange`), or if the new array
would be too large.

The entries are slices of the flat data. The products that lead to them fit in
64-bit words, and the slices lie within the data (`InWords`): lengths other than
zero have a bounded product, and so has every part of them.
-/

namespace BlockTensor

theorem volume_lt_of_sublist {part shape : List Nat} (h : part.Sublist shape)
    (hbound : volume (shape.filter (· ≠ 0)) < sizeLimit) : volume part < wordLimit :=
  calc volume part
    _ ≤ volume (part.filter (· ≠ 0)) := volume_le_volume_filter_pos part
    _ ≤ volume (shape.filter (· ≠ 0)) := volume_filter_sublist h
    _ < sizeLimit := hbound
    _ < wordLimit := by decide

theorem pieces_eq_map {α : Type} (count size : Nat) (items : List α) : pieces count size items =
    (List.range count).map fun i => (items.drop (i * size)).take size := by
  refine List.ext_getElem? fun i => ?_
  rw [List.getElem?_map]
  by_cases hi : i < count
  · rw [getElem?_pieces items hi, List.getElem?_range hi, Option.map_some]
  · have hle := Nat.le_of_not_lt hi
    rw [List.getElem?_eq_none (by rwa [length_pieces]), List.getElem?_eq_none (by simpa using hle),
      Option.map_none]

namespace Dense

variable {α : Type}

-- ---------------------------------------------------------------------------
-- Slices of the data
-- ---------------------------------------------------------------------------

/-- Where the gathered slices begin in the data, slab by slab. -/
def sliceStarts (outer length inner : Nat) (indices : List Nat) : List Nat :=
  (List.range outer).flatMap fun slab => indices.map fun i => (slab * length + i) * inner

section
variable {outer length inner : Nat} {indices : List Nat} (hindices : ∀ i ∈ indices, i < length)
include hindices

theorem gatherSlab_eq_slices (slab : List α) : gatherSlab length inner indices slab =
    indices.flatMap fun i => (slab.drop (i * inner)).take inner := by
  have hfound : ∀ i ∈ indices, (pieces length inner slab)[i]? =
      some ((slab.drop (i * inner)).take inner) :=
    fun i hmem => getElem?_pieces slab (hindices i hmem)
  rw [gatherSlab, pick, List.filterMap_congr hfound, List.filterMap_eq_map', List.flatMap_def]

theorem gather_eq_slices (data : List α) : gather outer length inner indices data =
    (sliceStarts outer length inner indices).flatMap fun start =>
      (data.drop start).take inner := by
  rw [gather_eq, pieces_eq_map, List.flatMap_map, sliceStarts, List.flatMap_assoc]
  refine List.flatMap_congr fun slab _ => ?_
  rw [gatherSlab_eq_slices hindices, List.flatMap_map]
  refine List.flatMap_congr fun i hmem => ?_
  have hrow : (i + 1) * inner ≤ length * inner := Nat.mul_le_mul_right _ (hindices i hmem)
  rw [Nat.succ_mul] at hrow
  rw [List.drop_take, List.take_take, List.drop_drop, Nat.min_eq_left (by omega), Nat.add_mul,
    Nat.mul_assoc]

end

/-- The products of a selection are 64-bit words, from the first length on, and its
slices lie within the data. -/
structure InWords (a : Dense α) (axis length : Nat) (indices : List Nat) : Prop where
  outer : ∀ n, volume ((a.shape.take axis).take n) < wordLimit
  inner : ∀ n, volume ((a.shape.drop (axis + 1)).take n) < wordLimit
  slabs : volume (a.shape.take axis) * indices.length < wordLimit
  elements : volume (a.shape.take axis) * indices.length * volume (a.shape.drop (axis + 1)) <
    wordLimit
  rows : ∀ slab < volume (a.shape.take axis), ∀ i ∈ indices, slab * length + i < wordLimit
  starts : ∀ start ∈ sliceStarts (volume (a.shape.take axis)) length
    (volume (a.shape.drop (axis + 1))) indices,
    start < wordLimit ∧ start + volume (a.shape.drop (axis + 1)) ≤ a.data.length

section
variable {a : Dense α} {outer inner : List Nat} {length : Nat} {indices : List Nat} (ha : a.Valid)
  (hshape : a.shape = outer ++ length :: inner) (hindices : ∀ i ∈ indices, i < length)
include ha hshape hindices

theorem starts_inWords : ∀ start ∈ sliceStarts (volume outer) length (volume inner) indices,
    start < wordLimit ∧ start + volume inner ≤ a.data.length := by
  intro start hstart
  obtain ⟨slab, hslab, hstart⟩ := List.mem_flatMap.mp hstart
  obtain ⟨i, hmem, rfl⟩ := List.mem_map.mp hstart
  have hend : (slab * length + i) * volume inner + volume inner ≤ a.data.length :=
    calc (slab * length + i) * volume inner + volume inner
      _ = (slab * length + i + 1) * volume inner := (Nat.succ_mul ..).symm
      _ ≤ (slab * length + length) * volume inner :=
        Nat.mul_le_mul_right _ (Nat.add_le_add_left (hindices i hmem) _)
      _ = (slab + 1) * length * volume inner := by rw [Nat.succ_mul]
      _ ≤ volume outer * length * volume inner :=
        Nat.mul_le_mul_right _ (Nat.mul_le_mul_right _ (List.mem_range.mp hslab))
      _ = a.data.length := by rw [ha.size, hshape, volume_append, volume, Nat.mul_assoc]
  have hdata : a.data.length < wordLimit := by
    rw [ha.size]
    exact volume_lt_of_sublist (List.Sublist.refl _) ha.bounded
  exact ⟨by omega, hend⟩

theorem inWords (hbound : volume ((outer ++ indices.length :: inner).filter (· ≠ 0)) < sizeLimit) :
    a.InWords outer.length length indices := by
  have htake : a.shape.take outer.length = outer := by simp [hshape]
  have hdrop : a.shape.drop (outer.length + 1) = inner := by simp [hshape]
  have hold := ha.bounded
  rw [hshape] at hold
  constructor <;> simp only [htake, hdrop]
  case outer =>
    exact fun n => volume_lt_of_sublist
      ((List.take_sublist ..).trans (List.sublist_append_left ..)) hold
  case inner =>
    exact fun n => volume_lt_of_sublist ((List.take_sublist ..).trans
      ((List.sublist_cons_self ..).trans (List.sublist_append_right ..))) hold
  case slabs =>
    have hpart : (outer ++ [indices.length]).Sublist (outer ++ indices.length :: inner) :=
      (List.cons_sublist_cons.mpr (List.nil_sublist _)).append_left _
    simpa [volume_append, volume] using volume_lt_of_sublist hpart hbound
  case elements =>
    simpa [volume_append, volume, Nat.mul_assoc] using
      volume_lt_of_sublist (List.Sublist.refl _) hbound
  case rows =>
    intro slab hslab i hmem
    have hpart : (outer ++ [length]).Sublist (outer ++ length :: inner) :=
      (List.cons_sublist_cons.mpr (List.nil_sublist _)).append_left _
    calc slab * length + i
      _ < slab * length + length := Nat.add_lt_add_left (hindices i hmem) _
      _ = (slab + 1) * length := (Nat.succ_mul ..).symm
      _ ≤ volume outer * length := Nat.mul_le_mul_right _ hslab
      _ = volume (outer ++ [length]) := by simp [volume_append, volume]
      _ < wordLimit := volume_lt_of_sublist hpart hold
  case starts => exact starts_inWords ha hshape hindices

end

-- ---------------------------------------------------------------------------
-- Elements
-- ---------------------------------------------------------------------------

theorem set_axis (outer inner : List Nat) (length length' : Nat) :
    (outer ++ length :: inner).set outer.length length' = outer ++ length' :: inner := by
  simp

/-- Each element of a selection is the element of the array at the index that was
selected. -/
theorem element?_select {a b : Dense α} {axis j : Nat} {indices before after : List Nat}
    (ha : a.Valid) (h : a.select axis indices = .ok b) (hbefore : before.length = axis) :
    b.element? (before ++ j :: after) =
      indices[j]?.bind fun i => a.element? (before ++ i :: after) := by
  obtain ⟨hb, hshapeb⟩ := select_valid h
  obtain ⟨length, hlength, hindices, -⟩ := eq_of_select h
  obtain ⟨outer, inner, hshape, rfl⟩ := axes_of_getElem? hlength
  rw [hshape, set_axis] at hshapeb
  cases hj : indices[j]? with
  | none =>
    have hlast : ¬j < indices.length := Nat.not_lt.mpr (List.getElem?_eq_none_iff.mp hj)
    simp [element?, hshapeb, offset_append hbefore, offset, hlast]
  | some i =>
    obtain ⟨hlt, -⟩ := List.getElem?_eq_some_iff.mp hj
    have hi := hindices i (List.mem_of_getElem? hj)
    rw [Option.bind_some, ← element?_slice hb hshapeb hlt hbefore,
      ← element?_slice ha hshape hi hbefore, slice_select ha h hj]

-- ---------------------------------------------------------------------------
-- Failures
-- ---------------------------------------------------------------------------

/-- An axis that the array does not have, or the first index that the axis does not
have. -/
inductive OutOfRange (shape : List Nat) (axis : Nat) (indices : List Nat) :
    (index length : Nat) → Indexed → Prop
  | axis : shape.length ≤ axis → OutOfRange shape axis indices axis shape.length .axes
  | entry {length index : Nat} {before after : List Nat} : shape[axis]? = some length →
      indices = before ++ index :: after → (∀ i ∈ before, i < length) → length ≤ index →
      OutOfRange shape axis indices index length .selectedAxis

theorem select_outOfRange_iff {a : Dense α} {axis index length : Nat} {indices : List Nat}
    {what : Indexed} : a.select axis indices = .error (.indexOutOfRange index length what) ↔
      OutOfRange a.shape axis indices index length what := by
  unfold select
  constructor
  · intro h
    split at h
    next hnone =>
      cases h
      exact .axis (List.getElem?_eq_none_iff.mp hnone)
    next found hlength =>
      split at h
      next bad hbad =>
        cases h
        obtain ⟨hle, before, after, hindices, hbefore⟩ := List.find?_eq_some_iff_append.mp hbad
        exact .entry hlength hindices (by simpa using hbefore) (by simpa using hle)
      next => simp [ofShape_error_iff] at h
  · rintro (haxis | ⟨hlength, hindices, hbefore, hle⟩)
    · rw [List.getElem?_eq_none haxis]
    · have hbad : indices.find? (fun i => decide (length ≤ i)) = some index :=
        List.find?_eq_some_iff_append.mpr
          ⟨by simpa using hle, _, _, hindices, by simpa using hbefore⟩
      simp only [hlength, hbad]

theorem select_ok_iff {a : Dense α} (ha : a.Valid) {axis : Nat} {indices : List Nat} :
    (∃ b, a.select axis indices = .ok b) ↔
      (∃ length, a.shape[axis]? = some length ∧ ∀ i ∈ indices, i < length) ∧
        volume ((a.shape.set axis indices.length).filter (· ≠ 0)) < sizeLimit := by
  constructor
  · rintro ⟨b, hb⟩
    obtain ⟨hvalid, hshape⟩ := select_valid hb
    obtain ⟨length, hlength, hindices, -⟩ := eq_of_select hb
    exact ⟨⟨length, hlength, hindices⟩, hshape ▸ hvalid.bounded⟩
  · rintro ⟨⟨length, hlength, hindices⟩, hbound⟩
    obtain ⟨outer, inner, hshape, rfl⟩ := axes_of_getElem? hlength
    rw [hshape, set_axis] at hbound
    exact ⟨_, select_of_bounded hindices ha hshape hbound⟩

-- ---------------------------------------------------------------------------
-- Selections
-- ---------------------------------------------------------------------------

structure Gathered (a : Dense α) (axis : Nat) (indices : List Nat) (b : Dense α) : Prop where
  valid : b.Valid
  shape : b.shape = a.shape.set axis indices.length
  elements : ∀ before j after, before.length = axis → b.element? (before ++ j :: after) =
    indices[j]?.bind fun i => a.element? (before ++ i :: after)
  words : ∀ length, a.shape[axis]? = some length → a.InWords axis length indices ∧
    b.data = (sliceStarts (volume (a.shape.take axis)) length (volume (a.shape.drop (axis + 1)))
      indices).flatMap fun start => (a.data.drop start).take (volume (a.shape.drop (axis + 1)))

structure GatherLaws (a : Dense α) (axis : Nat) (indices : List Nat) : Prop where
  outOfRange_iff : ∀ index length what,
    a.select axis indices = .error (.indexOutOfRange index length what) ↔
      OutOfRange a.shape axis indices index length what
  ok_iff : (∃ b, a.select axis indices = .ok b) ↔
    (∃ length, a.shape[axis]? = some length ∧ ∀ i ∈ indices, i < length) ∧
      volume ((a.shape.set axis indices.length).filter (· ≠ 0)) < sizeLimit
  gathered : ∀ b, a.select axis indices = .ok b → a.Gathered axis indices b

theorem gatherLaws_of_valid {a : Dense α} (ha : a.Valid) (axis : Nat) (indices : List Nat) :
    a.GatherLaws axis indices where
  outOfRange_iff _ _ _ := select_outOfRange_iff
  ok_iff := select_ok_iff ha
  gathered b hb := by
    obtain ⟨hvalid, hshape⟩ := select_valid hb
    refine ⟨hvalid, hshape, fun _ _ _ hbefore => element?_select ha hb hbefore, ?_⟩
    intro length hlength
    obtain ⟨found, hfound, hindices, rfl⟩ := eq_of_select hb
    obtain rfl : found = length := Option.some.inj (hfound.symm.trans hlength)
    refine ⟨?_, gather_eq_slices hindices _⟩
    have hbound := hvalid.bounded
    obtain ⟨outer, inner, haxes, rfl⟩ := axes_of_getElem? hlength
    rw [haxes, set_axis] at hbound
    exact inWords ha haxes hindices hbound

end Dense

end BlockTensor
