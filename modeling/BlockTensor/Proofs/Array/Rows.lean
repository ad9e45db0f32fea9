import BlockTensor.Array.Dense
import BlockTensor.Proofs.LabelLaws

/-!
# Row by row

`mapRows` replaces every row of row-major data by what a function makes of it.
Rows of one width become rows of one width, so data that is cut at multiples of
the width can be mapped before or after (`pieces_mapRows`). Gathering along an
axis cuts between rows unless it is the last axis, and so it commutes with
`mapRows` (`gather_mapRows`). A map on single elements commutes with it on every
axis (`gather_map`).
-/

namespace BlockTensor

variable {α β : Type}

-- ---------------------------------------------------------------------------
-- Pieces
-- ---------------------------------------------------------------------------

theorem length_pieces (count size : Nat) (items : List α) :
    (pieces count size items).length = count := by
  induction count generalizing items with
  | zero => rfl
  | succ count ih => rw [pieces, List.length_cons, ih]

theorem eq_nil_of_mem_pieces_nil {count size : Nat} {piece : List α}
    (h : piece ∈ pieces count size ([] : List α)) : piece = [] := by
  induction count with
  | zero => cases h
  | succ count ih =>
    simp only [pieces, List.take_nil, List.drop_nil, List.mem_cons] at h
    exact h.elim id ih

theorem pieces_add (m n size : Nat) (items : List α) :
    pieces (m + n) size items = pieces m size items ++ pieces n size (items.drop (m * size)) := by
  induction m generalizing items with
  | zero => simp [pieces]
  | succ m ih =>
    rw [Nat.add_right_comm, pieces, ih, List.drop_drop, Nat.succ_mul, Nat.add_comm size]
    rfl

theorem pieces_take (count size : Nat) (items : List α) :
    pieces count size (items.take (count * size)) = pieces count size items := by
  induction count generalizing items with
  | zero => rfl
  | succ count ih =>
    have hle : size ≤ count * size + size := Nat.le_add_left ..
    rw [Nat.succ_mul, pieces, List.take_take, Nat.min_eq_left hle, List.drop_take,
      Nat.add_sub_cancel, ih, pieces]

theorem pieces_mul (count size width : Nat) (items : List α) :
    pieces (count * size) width items =
      (pieces count (size * width) items).flatMap (pieces size width) := by
  induction count generalizing items with
  | zero => simp [pieces]
  | succ count ih =>
    rw [Nat.succ_mul, Nat.add_comm, pieces_add, ih, pieces, List.flatMap_cons, pieces_take]

theorem pieces_map (f : α → β) (count size : Nat) (items : List α) :
    pieces count size (items.map f) = (pieces count size items).map (List.map f) := by
  induction count generalizing items with
  | zero => rfl
  | succ count ih => rw [pieces, pieces, ← List.map_take, ← List.map_drop, ih, List.map_cons]

theorem pick_map (f : α → β) (positions : List Nat) (items : List α) :
    pick positions (items.map f) = (pick positions items).map f := by
  simp [pick, List.map_filterMap]

theorem mem_of_mem_pick {positions : List Nat} {items : List α} {item : α}
    (h : item ∈ pick positions items) : item ∈ items := by
  obtain ⟨i, -, hi⟩ := List.mem_filterMap.mp h
  exact List.mem_of_getElem? hi

theorem length_pick {positions : List Nat} {items : List α}
    (h : ∀ i ∈ positions, i < items.length) : (pick positions items).length = positions.length := by
  induction positions with
  | nil => rfl
  | cons i rest ih =>
    obtain ⟨hi, hrest⟩ := List.forall_mem_cons.mp h
    rw [pick, List.filterMap_cons_some (List.getElem?_eq_getElem hi), List.length_cons,
      List.length_cons]
    exact congrArg (· + 1) (ih hrest)

-- ---------------------------------------------------------------------------
-- Rows
-- ---------------------------------------------------------------------------

/-- What `f` makes of each of `count` rows of `width` elements, joined. -/
def mapRows (f : List α → List β) (count width : Nat) (items : List α) : List β :=
  (pieces count width items).flatMap f

theorem mapRows_mul (f : List α → List β) (count size width : Nat) (items : List α) :
    mapRows f (count * size) width items =
      ((pieces count (size * width) items).map (mapRows f size width)).flatten := by
  rw [mapRows, pieces_mul, List.flatMap_assoc, List.flatMap_def]
  rfl

theorem mapRows_flatten (f : List α → List β) {size width : Nat} {rows : List (List α)}
    (h : ∀ row ∈ rows, row.length = size * width) :
    mapRows f (rows.length * size) width rows.flatten =
      (rows.map (mapRows f size width)).flatten := by
  rw [mapRows_mul, pieces_flatten h]

section
variable {f : List α → List β} {width width' : Nat}
  (hf : ∀ row, row.length = width → (f row).length = width')
include hf

theorem length_mapRows {count : Nat} {items : List α} (h : items.length = count * width) :
    (mapRows f count width items).length = count * width' := by
  have hrows : ∀ row ∈ (pieces count width items).map f, row.length = width' := by
    intro row hmem
    obtain ⟨old, hold, rfl⟩ := List.mem_map.mp hmem
    exact hf old (length_of_mem_pieces h hold)
  rw [mapRows, List.flatMap_def, length_flatten_of_length hrows, List.length_map, length_pieces]

theorem pieces_mapRows {count size : Nat} {items : List α}
    (h : items.length = count * (size * width)) :
    pieces count (size * width') (mapRows f (count * size) width items) =
      (pieces count (size * width) items).map (mapRows f size width) := by
  have hlength : ∀ piece ∈ (pieces count (size * width) items).map (mapRows f size width),
      piece.length = size * width' := by
    intro piece hmem
    obtain ⟨old, hold, rfl⟩ := List.mem_map.mp hmem
    exact length_mapRows hf (length_of_mem_pieces h hold)
  have hcut := pieces_flatten hlength
  rw [List.length_map, length_pieces] at hcut
  rw [mapRows_mul, hcut]

end

-- ---------------------------------------------------------------------------
-- Gathering
-- ---------------------------------------------------------------------------

namespace Dense

def gatherSlab (length inner : Nat) (indices : List Nat) (slab : List α) : List α :=
  (pick indices (pieces length inner slab)).flatten

/-- Without data every piece is empty, so the rule for it makes no difference. -/
theorem gather_eq (outer length inner : Nat) (indices : List Nat) (data : List α) :
    gather outer length inner indices data =
      (pieces outer (length * inner) data).flatMap (gatherSlab length inner indices) := by
  unfold gather
  split
  next hempty =>
    obtain rfl := List.isEmpty_iff.mp hempty
    symm
    rw [List.flatMap_eq_nil_iff]
    intro slab hslab
    obtain rfl := eq_nil_of_mem_pieces_nil hslab
    rw [gatherSlab, List.flatten_eq_nil_iff]
    exact fun piece hpiece => eq_nil_of_mem_pieces_nil (mem_of_mem_pick hpiece)
  next => rfl

theorem gather_map (f : α → β) (outer length inner : Nat) (indices : List Nat) (data : List α) :
    gather outer length inner indices (data.map f) =
      (gather outer length inner indices data).map f := by
  simp only [gather_eq, pieces_map, List.flatMap_map, List.map_flatMap, gatherSlab, pick_map,
    List.map_flatten]

section
variable {outer length inner : Nat} {indices : List Nat} (hindices : ∀ i ∈ indices, i < length)
include hindices

theorem length_pick_pieces (slab : List α) :
    (pick indices (pieces length inner slab)).length = indices.length :=
  length_pick (by simpa [length_pieces] using hindices)

theorem length_gatherSlab {slab : List α} (h : slab.length = length * inner) :
    (gatherSlab length inner indices slab).length = indices.length * inner := by
  have hrows : ∀ row ∈ pick indices (pieces length inner slab), row.length = inner :=
    fun row hrow => length_of_mem_pieces h (mem_of_mem_pick hrow)
  rw [gatherSlab, length_flatten_of_length hrows, length_pick_pieces hindices]

theorem length_of_mem_gathered {data : List α} (h : data.length = outer * (length * inner)) :
    ∀ slab ∈ (pieces outer (length * inner) data).map (gatherSlab length inner indices),
      slab.length = indices.length * inner := by
  intro slab hmem
  obtain ⟨old, hold, rfl⟩ := List.mem_map.mp hmem
  exact length_gatherSlab hindices (length_of_mem_pieces h hold)

theorem length_gather {data : List α} (h : data.length = outer * (length * inner)) :
    (gather outer length inner indices data).length = outer * (indices.length * inner) := by
  rw [gather_eq, List.flatMap_def, length_flatten_of_length (length_of_mem_gathered hindices h),
    List.length_map, length_pieces]

section
variable {f : List α → List β} {width width' : Nat}
  (hf : ∀ row, row.length = width → (f row).length = width')
include hf

theorem gatherSlab_mapRows {slab : List α} (h : slab.length = length * (inner * width)) :
    gatherSlab length (inner * width') indices (mapRows f (length * inner) width slab) =
      mapRows f (indices.length * inner) width
        (gatherSlab length (inner * width) indices slab) := by
  have hrows : ∀ row ∈ pick indices (pieces length (inner * width) slab),
      row.length = inner * width :=
    fun row hrow => length_of_mem_pieces h (mem_of_mem_pick hrow)
  rw [gatherSlab, pieces_mapRows hf h, pick_map, ← mapRows_flatten f hrows,
    length_pick_pieces hindices]
  rfl

theorem gather_mapRows {data : List α} (h : data.length = outer * (length * (inner * width))) :
    gather outer length (inner * width') indices (mapRows f (outer * (length * inner)) width data) =
      mapRows f (outer * (indices.length * inner)) width
        (gather outer length (inner * width) indices data) := by
  -- The slabs before the map, and what becomes of each of them.
  have hslabs : data.length = outer * (length * inner * width) := by rwa [Nat.mul_assoc length]
  have hslab : ∀ slab ∈ pieces outer (length * (inner * width)) data,
      gatherSlab length (inner * width') indices (mapRows f (length * inner) width slab) =
        mapRows f (indices.length * inner) width
          (gatherSlab length (inner * width) indices slab) :=
    fun slab hmem => gatherSlab_mapRows hindices hf (length_of_mem_pieces h hmem)
  have hgathered : ∀ slab ∈ (pieces outer (length * (inner * width)) data).map
      (gatherSlab length (inner * width) indices), slab.length = indices.length * inner * width := by
    rw [Nat.mul_assoc indices.length]
    exact length_of_mem_gathered hindices h
  have hjoined := mapRows_flatten f hgathered
  rw [List.length_map, length_pieces, ← List.flatMap_def, ← gather_eq] at hjoined
  rw [hjoined, gather_eq, ← Nat.mul_assoc length, pieces_mapRows hf hslabs, List.flatMap_map,
    Nat.mul_assoc length, List.flatMap_def, List.map_congr_left hslab, List.map_map]
  rfl

end

end

end Dense

end BlockTensor
