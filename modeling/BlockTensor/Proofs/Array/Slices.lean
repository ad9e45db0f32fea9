import BlockTensor.Proofs.Array.Select
import BlockTensor.Proofs.Selections

/-!
# Slices of an array

A slice is what an array holds at one entry of an axis: a row on the first axis,
a column on the last one. Selecting along an axis picks slices and changes none
of them (`slices_select`).
-/

namespace BlockTensor

theorem getElem?_pieces {α : Type} {count size i : Nat} (items : List α) (h : i < count) :
    (pieces count size items)[i]? = some ((items.drop (i * size)).take size) := by
  induction count generalizing i items with
  | zero => cases h
  | succ count ih =>
    cases i with
    | zero => simp [pieces]
    | succ i =>
      rw [pieces, List.getElem?_cons_succ, ih _ (Nat.lt_of_succ_lt_succ h), List.drop_drop,
        Nat.succ_mul, Nat.add_comm size]

namespace Dense

variable {α : Type}

/-- The array at entry `i` of an axis: of every slab the elements of that entry. -/
def slice (a : Dense α) (axis i : Nat) : Dense α :=
  let length := a.shape.getD axis 0
  let inner := volume (a.shape.drop (axis + 1))
  ⟨a.shape.set axis 1, (pieces (volume (a.shape.take axis)) (length * inner) a.data).flatMap
    fun slab => (slab.drop (i * inner)).take inner⟩

theorem volume_eq_of_axis {shape : List Nat} {axis length : Nat} (h : shape[axis]? = some length) :
    volume shape = volume (shape.take axis) * (length * volume (shape.drop (axis + 1))) := by
  obtain ⟨outer, inner, rfl, rfl⟩ := axes_of_getElem? h
  simp [volume_append, volume]

theorem slice_gatherSlab {length inner i j : Nat} {indices : List Nat} {slab : List α}
    (hindices : ∀ i ∈ indices, i < length) (hslab : slab.length = length * inner)
    (h : indices[j]? = some i) :
    ((gatherSlab length inner indices slab).drop (j * inner)).take inner =
      (slab.drop (i * inner)).take inner := by
  obtain ⟨hj, -⟩ := List.getElem?_eq_some_iff.mp h
  have hi : i < length := hindices i (List.mem_of_getElem? h)
  have hrows : ∀ row ∈ pick indices (pieces length inner slab), row.length = inner :=
    fun row hrow => length_of_mem_pieces hslab (mem_of_mem_pick hrow)
  have hpick : (pick indices (pieces length inner slab))[j]? =
      some ((slab.drop (i * inner)).take inner) := by
    rw [getElem?_pick (by simpa [length_pieces] using hindices), h, Option.bind_some,
      getElem?_pieces _ hi]
  rw [← pieces_flatten hrows, length_pick_pieces hindices, getElem?_pieces _ hj] at hpick
  exact Option.some.inj hpick

theorem pieces_gather {outer length inner : Nat} {indices : List Nat} {data : List α}
    (hindices : ∀ i ∈ indices, i < length) (h : data.length = outer * (length * inner)) :
    pieces outer (indices.length * inner) (gather outer length inner indices data) =
      (pieces outer (length * inner) data).map (gatherSlab length inner indices) := by
  have hcut := pieces_flatten (length_of_mem_gathered hindices h)
  rwa [List.length_map, length_pieces, ← List.flatMap_def, ← gather_eq] at hcut

theorem slice_gather {outer length inner i j : Nat} {indices : List Nat} {data : List α}
    (hindices : ∀ i ∈ indices, i < length) (hdata : data.length = outer * (length * inner))
    (h : indices[j]? = some i) :
    ((pieces outer (indices.length * inner) (gather outer length inner indices data)).flatMap
        fun slab => (slab.drop (j * inner)).take inner) =
      (pieces outer (length * inner) data).flatMap
        fun slab => (slab.drop (i * inner)).take inner := by
  rw [pieces_gather hindices hdata, List.flatMap_map]
  exact List.flatMap_congr fun slab hmem =>
    slice_gatherSlab hindices (length_of_mem_pieces hdata hmem) h

theorem eq_of_select {a b : Dense α} {axis : Nat} {indices : List Nat}
    (h : a.select axis indices = .ok b) : ∃ length, a.shape[axis]? = some length ∧
      (∀ i ∈ indices, i < length) ∧ b = ⟨a.shape.set axis indices.length,
        gather (volume (a.shape.take axis)) length (volume (a.shape.drop (axis + 1))) indices
          a.data⟩ := by
  unfold select at h
  split at h
  · cases h
  next length hlength =>
    split at h
    · cases h
    next hfound =>
      obtain ⟨rfl, -⟩ := ofShape_ok.mp h
      exact ⟨length, hlength, by simpa [List.find?_eq_none] using hfound, rfl⟩

theorem slice_select {a b : Dense α} {axis i j : Nat} {indices : List Nat} (ha : a.Valid)
    (hb : a.select axis indices = .ok b) (h : indices[j]? = some i) :
    b.slice axis j = a.slice axis i := by
  obtain ⟨length, hlength, hindices, rfl⟩ := eq_of_select hb
  obtain ⟨hlt, -⟩ := List.getElem?_eq_some_iff.mp hlength
  have hdata := ha.size
  rw [volume_eq_of_axis hlength] at hdata
  -- The axes around the selected one stay as they are.
  simp only [slice, List.set_set, List.take_set_of_le (Nat.le_refl _),
    List.drop_set_of_lt (Nat.lt_succ_self _), List.getD_eq_getElem?_getD,
    List.getElem?_set_self hlt, hlength, Option.getD_some]
  rw [slice_gather hindices hdata h]

end Dense

namespace Values

def slice (axis i : Nat) : Values → Values
  | float32 a => float32 (a.slice axis i)
  | float64 a => float64 (a.slice axis i)

def slices (a : Values) (axis : Nat) : List Values :=
  (List.range (a.shape.getD axis 0)).map fun i => a.slice axis i

theorem slice_select {a b : Values} {axis i j : Nat} {indices : List Nat} (ha : a.Valid)
    (hb : a.select axis indices = .ok b) (h : indices[j]? = some i) :
    b.slice axis j = a.slice axis i := by
  cases a <;> obtain ⟨array, harray, rfl⟩ := map_ok.mp hb
  · exact congrArg float32 (Dense.slice_select ha harray h)
  · exact congrArg float64 (Dense.slice_select ha harray h)

theorem range_of_select {a b : Values} {axis : Nat} {indices : List Nat}
    (h : a.select axis indices = .ok b) :
    axis < a.shape.length ∧ ∀ i ∈ indices, i < a.shape.getD axis 0 := by
  cases a <;> obtain ⟨array, harray, rfl⟩ := map_ok.mp h <;>
    obtain ⟨length, hlength, hindices, -⟩ := Dense.eq_of_select harray <;>
    rw [List.getD_eq_getElem?_getD, shape, hlength] <;>
    exact ⟨(List.getElem?_eq_some_iff.mp hlength).1, hindices⟩

theorem slices_select {a b : Values} {axis : Nat} {indices : List Nat} (ha : a.Valid)
    (hb : a.select axis indices = .ok b) : b.slices axis = pick indices (a.slices axis) := by
  obtain ⟨haxis, hindices⟩ := range_of_select hb
  have hcount : b.shape.getD axis 0 = indices.length := by
    rw [(select_valid hb).2.2, List.getD_eq_getElem?_getD, List.getElem?_set_self haxis,
      Option.getD_some]
  rw [slices, slices, pick_map, pick_range hindices, hcount]
  refine List.ext_getElem? fun j => ?_
  rw [List.getElem?_map, List.getElem?_map]
  cases hj : indices[j]? with
  | none =>
    rw [List.getElem?_eq_none_iff] at hj
    rw [List.getElem?_eq_none (by simpa using hj), Option.map_none, Option.map_none]
  | some i =>
    obtain ⟨hlt, -⟩ := List.getElem?_eq_some_iff.mp hj
    rw [List.getElem?_range hlt, Option.map_some, Option.map_some, slice_select ha hb hj]

end Values

end BlockTensor
