import BlockTensor.Proofs.Array.Slices

/-!
# Selected arrays

`picked` is the array that selecting along an axis gives whenever it gives one
(`select_eq`). Elements may be changed before or after, entries of two axes may
be picked in either order (`picked_comm`), and picking from what was picked is
picking once (`picked_picked`).
-/

namespace BlockTensor

section
variable {α β γ : Type}

namespace Dense

theorem gather_zipWith (op : α → β → γ) {outer length inner : Nat} {indices : List Nat}
    {xs : List α} {ys : List β} (h : xs.length = ys.length) :
    gather outer length inner indices (xs.zipWith op ys) =
      (gather outer length inner indices xs).zipWith op (gather outer length inner indices ys) := by
  obtain ⟨pairs, rfl, rfl⟩ : ∃ pairs : List (α × β), xs = pairs.map Prod.fst ∧
      ys = pairs.map Prod.snd := ⟨xs.zip ys, (List.map_fst_zip (Nat.le_of_eq h)).symm,
    (List.map_snd_zip (Nat.le_of_eq h.symm)).symm⟩
  -- Gathering pairs does not mind what is read off them.
  simp only [List.zipWith_map, List.zipWith_self, gather_map]

theorem gatherSlab_gatherSlab {length inner : Nat} {first second : List Nat} {slab : List α}
    (hfirst : ∀ i ∈ first, i < length) (hslab : slab.length = length * inner) :
    gatherSlab first.length inner second (gatherSlab length inner first slab) =
      gatherSlab length inner (pick second first) slab := by
  have hrows : ∀ row ∈ pick first (pieces length inner slab), row.length = inner :=
    fun row hrow => length_of_mem_pieces hslab (mem_of_mem_pick hrow)
  have hcut := pieces_flatten hrows
  rw [length_pick_pieces hfirst] at hcut
  rw [gatherSlab, gatherSlab, hcut, pick_pick (by simpa [length_pieces] using hfirst), gatherSlab]

theorem gather_gather {outer length inner : Nat} {first second : List Nat} {data : List α}
    (hfirst : ∀ i ∈ first, i < length) (h : data.length = outer * (length * inner)) :
    gather outer first.length inner second (gather outer length inner first data) =
      gather outer length inner (pick second first) data := by
  rw [gather_eq, pieces_gather hfirst h, List.flatMap_map, gather_eq]
  exact List.flatMap_congr fun slab hmem =>
    gatherSlab_gatherSlab hfirst (length_of_mem_pieces h hmem)

theorem gather_comm {outer length middle width inner : Nat} {indices columns : List Nat}
    {data : List α} (hindices : ∀ i ∈ indices, i < length) (hcolumns : ∀ i ∈ columns, i < width)
    (h : data.length = outer * (length * (middle * (width * inner)))) :
    gather (outer * (indices.length * middle)) width inner columns
        (gather outer length (middle * (width * inner)) indices data) =
      gather outer length (middle * (columns.length * inner)) indices
        (gather (outer * (length * middle)) width inner columns data) := by
  have hrows (count : Nat) (data : List α) : gather count width inner columns data =
      mapRows (gatherSlab width inner columns) count (width * inner) data := gather_eq ..
  rw [hrows, hrows, gather_mapRows hindices (fun _ => length_gatherSlab hcolumns) h]

-- ---------------------------------------------------------------------------
-- Arrays
-- ---------------------------------------------------------------------------

/-- The entries at `indices` along `axis`, without the checks. -/
def picked (a : Dense α) (axis : Nat) (indices : List Nat) : Dense α :=
  ⟨a.shape.set axis indices.length, gather (volume (a.shape.take axis)) (a.shape.getD axis 0)
    (volume (a.shape.drop (axis + 1))) indices a.data⟩

theorem picked_of_shape {a : Dense α} {outer inner : List Nat} {length : Nat} (indices : List Nat)
    (h : a.shape = outer ++ length :: inner) : a.picked outer.length indices =
      ⟨outer ++ indices.length :: inner,
        gather (volume outer) length (volume inner) indices a.data⟩ := by
  simp [picked, h]

theorem eq_picked_of_select {a b : Dense α} {axis : Nat} {indices : List Nat}
    (h : a.select axis indices = .ok b) : b = a.picked axis indices := by
  obtain ⟨length, hlength, -, rfl⟩ := eq_of_select h
  rw [picked, List.getD_eq_getElem?_getD, hlength, Option.getD_some]

theorem picked_map (f : α → β) (a : Dense α) (axis : Nat) (indices : List Nat) :
    (a.map f).picked axis indices = (a.picked axis indices).map f := by
  simp only [picked, map, gather_map]

section
variable {a : Dense α} {outer middle inner : List Nat} {length width : Nat} (ha : a.Valid)
include ha

theorem picked_picked {first second : List Nat} (hfirst : ∀ i ∈ first, i < length)
    (hsecond : ∀ i ∈ second, i < first.length) (hshape : a.shape = outer ++ length :: inner) :
    (a.picked outer.length first).picked outer.length second =
      a.picked outer.length (pick second first) := by
  have hdata : a.data.length = volume outer * (length * volume inner) := by
    rw [ha.size, hshape, volume_append, volume]
  have hpicked := picked_of_shape first hshape
  rw [picked_of_shape _ (congrArg shape hpicked), hpicked, picked_of_shape _ hshape,
    gather_gather hfirst hdata, length_pick hsecond]

theorem picked_comm {indices columns : List Nat} (hindices : ∀ i ∈ indices, i < length)
    (hcolumns : ∀ i ∈ columns, i < width)
    (hshape : a.shape = outer ++ length :: (middle ++ width :: inner)) :
    (a.picked outer.length indices).picked (outer ++ length :: middle).length columns =
      (a.picked (outer ++ length :: middle).length columns).picked outer.length indices := by
  have hshape' : a.shape = (outer ++ length :: middle) ++ width :: inner := by simpa using hshape
  have hdata : a.data.length =
      volume outer * (length * (volume middle * (width * volume inner))) := by
    rw [ha.size, hshape, volume_append, volume, volume_append, volume]
  have hrows := picked_of_shape indices hshape
  have hcolumns' := picked_of_shape columns hshape'
  -- The later axis stands at the same place when the earlier one has another length.
  have hplace :
      (outer ++ length :: middle).length = (outer ++ indices.length :: middle).length := by simp
  have hleft : (a.picked outer.length indices).shape =
      (outer ++ indices.length :: middle) ++ width :: inner := by
    rw [hrows]
    simp
  have hright : (a.picked (outer ++ length :: middle).length columns).shape =
      outer ++ length :: (middle ++ columns.length :: inner) := by
    rw [hcolumns']
    simp
  rw [picked_of_shape _ hright, hcolumns', hplace, picked_of_shape _ hleft, hrows]
  simp only [volume_append, volume, gather_comm hindices hcolumns hdata, List.append_assoc,
    List.cons_append]

end

theorem combine_picked {op : α → α → α} {left right sum : Dense α} {axis : Nat}
    {indices : List Nat} (hleft : left.Valid) (hright : right.Valid)
    (h : left.combine op right = .ok sum) (hpicked : (sum.picked axis indices).Valid) :
    (left.picked axis indices).combine op (right.picked axis indices) =
      .ok (sum.picked axis indices) := by
  simp only [combine, bind_ok, ensure_ok, ofShape_ok] at h ⊢
  obtain ⟨_, hshape, rfl, -⟩ := h
  have hlength : left.data.length = right.data.length := by rw [hleft.size, hright.size, hshape]
  refine ⟨(), by simp only [picked, hshape], ?_, hpicked⟩
  simp only [picked, gather_zipWith op hlength, hshape]

end Dense

end

-- ---------------------------------------------------------------------------
-- Value arrays
-- ---------------------------------------------------------------------------

namespace Values

def picked (axis : Nat) (indices : List Nat) : Values → Values
  | float32 a => float32 (a.picked axis indices)
  | float64 a => float64 (a.picked axis indices)

section
variable {a : Values} {axis : Nat} {indices : List Nat}

@[simp] theorem dtype_picked : (a.picked axis indices).dtype = a.dtype := by cases a <;> rfl

@[simp] theorem shape_picked : (a.picked axis indices).shape = a.shape.set axis indices.length := by
  cases a <;> rfl

theorem eq_picked_of_select {b : Values} (h : a.select axis indices = .ok b) :
    b = a.picked axis indices := by
  cases a <;> obtain ⟨array, harray, rfl⟩ := map_ok.mp h
  · exact congrArg float32 (Dense.eq_picked_of_select harray)
  · exact congrArg float64 (Dense.eq_picked_of_select harray)

theorem add_picked {left right sum : Values} (hleft : left.Valid) (hright : right.Valid)
    (h : left.add right = .ok sum) (hpicked : (sum.picked axis indices).Valid) :
    (left.picked axis indices).add (right.picked axis indices) = .ok (sum.picked axis indices) := by
  cases left <;> cases right <;> simp only [add, map_ok, reduceCtorEq] at h <;>
    obtain ⟨array, harray, rfl⟩ := h
  · exact map_ok.mpr ⟨_, Dense.combine_picked hleft hright harray hpicked, rfl⟩
  · exact map_ok.mpr ⟨_, Dense.combine_picked hleft hright harray hpicked, rfl⟩

end

section
variable {a : Values} {outer middle inner : List Nat} {length width : Nat} (ha : a.Valid)
include ha

theorem select_eq {indices : List Nat} (hindices : ∀ i ∈ indices, i < length)
    (hcount : indices.length ≤ length) (hshape : a.shape = outer ++ length :: inner) :
    a.select outer.length indices = .ok (a.picked outer.length indices) := by
  obtain ⟨b, hb⟩ := select_ok hindices hcount ha hshape
  rw [hb, eq_picked_of_select hb]

theorem picked_picked {first second : List Nat} (hfirst : ∀ i ∈ first, i < length)
    (hsecond : ∀ i ∈ second, i < first.length) (hshape : a.shape = outer ++ length :: inner) :
    (a.picked outer.length first).picked outer.length second =
      a.picked outer.length (pick second first) := by
  cases a with
  | float32 a => exact congrArg float32 (Dense.picked_picked ha hfirst hsecond hshape)
  | float64 a => exact congrArg float64 (Dense.picked_picked ha hfirst hsecond hshape)

theorem picked_comm {indices columns : List Nat} (hindices : ∀ i ∈ indices, i < length)
    (hcolumns : ∀ i ∈ columns, i < width)
    (hshape : a.shape = outer ++ length :: (middle ++ width :: inner)) :
    (a.picked outer.length indices).picked (outer ++ length :: middle).length columns =
      (a.picked (outer ++ length :: middle).length columns).picked outer.length indices := by
  cases a with
  | float32 a => exact congrArg float32 (Dense.picked_comm ha hindices hcolumns hshape)
  | float64 a => exact congrArg float64 (Dense.picked_comm ha hindices hcolumns hshape)

end

end Values

end BlockTensor
