import BlockTensor.Proofs.Array.Gather
import BlockTensor.Proofs.Sums
import Mathlib.Data.List.Forall2

/-!
# Reversed axes

Row-major order runs through the indices with the last position fastest. `indexAt`
is the index at a place and `offset` the place of an index, so that arrays of one
shape are equal as soon as their elements are (`Valid.eq_of_element?`).

Reversing the axes reverses every index (`element?_reverseAxes`): what was the
fastest position becomes the slowest. Selections and element-wise operations are
about elements and so commute with it, on the axis that takes the place of the old
one.
-/

namespace BlockTensor

-- ---------------------------------------------------------------------------
-- Places
-- ---------------------------------------------------------------------------

def indexAt : List Nat → Nat → List Nat
  | [], _ => []
  | _ :: rest, k => k / volume rest :: indexAt rest (k % volume rest)

theorem offset_indexAt {shape : List Nat} {k : Nat} (h : k < volume shape) :
    offset shape (indexAt shape k) = some k := by
  induction shape generalizing k with
  | nil =>
    obtain rfl : k = 0 := by simpa [volume] using h
    rfl
  | cons length rest ih =>
    have hpos : 0 < volume rest := Nat.pos_of_mul_pos_left (Nat.zero_lt_of_lt h)
    have hi : k / volume rest < length := (Nat.div_lt_iff_lt_mul hpos).mpr h
    rw [indexAt, offset, if_pos hi, ih (Nat.mod_lt k hpos), Option.map_some, Nat.div_add_mod']

theorem indexAt_of_offset {shape index : List Nat} {k : Nat} (h : offset shape index = some k) :
    indexAt shape k = index := by
  induction shape generalizing index k with
  | nil =>
    cases index with
    | nil => rfl
    | cons => simp [offset] at h
  | cons length rest ih =>
    cases index with
    | nil => simp [offset] at h
    | cons i index =>
      simp only [offset, Option.ite_none_right_eq_some, Option.map_eq_some_iff] at h
      obtain ⟨-, q, hq, rfl⟩ := h
      have hlt := offset_lt hq
      have hpos := Nat.zero_lt_of_lt hlt
      rw [indexAt, Nat.mul_comm i, Nat.mul_add_div hpos, Nat.div_eq_of_lt hlt, Nat.mul_add_mod,
        Nat.mod_eq_of_lt hlt, ih hq, Nat.add_zero]

theorem offset_isSome_iff {shape index : List Nat} :
    (offset shape index).isSome ↔ List.Forall₂ (fun length i => i < length) shape index := by
  induction shape generalizing index with
  | nil => cases index <;> simp [offset]
  | cons length rest ih =>
    cases index with
    | nil => simp [offset]
    | cons i index => by_cases hi : i < length <;> simp [offset, hi, ih]

theorem length_of_offset {shape index : List Nat} {k : Nat} (h : offset shape index = some k) :
    index.length = shape.length :=
  (offset_isSome_iff.mp (Option.isSome_of_eq_some h)).length_eq.symm

theorem offset_reverse_isSome (shape index : List Nat) :
    (offset shape.reverse index.reverse).isSome = (offset shape index).isSome := by
  rw [Bool.eq_iff_iff, offset_isSome_iff, offset_isSome_iff, List.forall₂_reverse_iff]

theorem volume_reverse (shape : List Nat) : volume shape.reverse = volume shape :=
  volume_perm (List.reverse_perm shape)

theorem volume_filter_reverse (shape : List Nat) :
    volume (shape.reverse.filter (· ≠ 0)) = volume (shape.filter (· ≠ 0)) :=
  volume_perm ((List.reverse_perm shape).filter _)

namespace Dense

variable {α : Type}

-- ---------------------------------------------------------------------------
-- Columns
-- ---------------------------------------------------------------------------

section
variable {width : Nat} {rows : List (List α)} (hrows : ∀ row ∈ rows, row.length = width)
include hrows

theorem length_column {p : Nat} (hp : p < width) :
    (rows.filterMap fun row => row[p]?).length = rows.length := by
  refine List.filterMap_length_eq_length.mpr fun row hrow => ?_
  simpa [hrows row hrow] using hp

theorem pieces_interleave : pieces width rows.length (interleave width rows) =
    (List.range width).map fun column => rows.filterMap fun row => row[column]? := by
  have hcolumns : ∀ column ∈ (List.range width).map fun column =>
      rows.filterMap fun row => row[column]?, column.length = rows.length := by
    intro column hmem
    obtain ⟨place, hplace, rfl⟩ := List.mem_map.mp hmem
    exact length_column hrows (List.mem_range.mp hplace)
  have hcut := pieces_flatten hcolumns
  rwa [List.length_map, List.length_range, ← List.flatMap_def] at hcut

theorem length_interleave : (interleave width rows).length = width * rows.length := by
  have hcolumn : ∀ column ∈ List.range width,
      (rows.filterMap fun row => row[column]?).length = rows.length :=
    fun column hmem => length_column hrows (List.mem_range.mp hmem)
  rw [interleave, List.length_flatMap, List.map_congr_left hcolumn]
  simp

theorem getElem?_interleave {p q : Nat} (hp : p < width) (hq : q < rows.length) :
    (interleave width rows)[p * rows.length + q]? = rows[q]?.bind fun row => row[p]? := by
  rw [getElem?_of_pieces _ hp hq, pieces_interleave hrows, List.getElem?_map,
    List.getElem?_range hp, Option.map_some, Option.bind_some, getElem?_filterMap]
  intro row hrow
  simpa [hrows row hrow] using hp

end

-- ---------------------------------------------------------------------------
-- Reversing row-major data
-- ---------------------------------------------------------------------------

theorem length_of_mem_map_pieces {count size width : Nat} {f : List α → List α} {items : List α}
    (hf : ∀ piece, piece.length = size → (f piece).length = width)
    (hitems : items.length = count * size) :
    ∀ row ∈ (pieces count size items).map f, row.length = width := by
  intro row hmem
  obtain ⟨piece, hpiece, rfl⟩ := List.mem_map.mp hmem
  exact hf piece (length_of_mem_pieces hitems hpiece)

section
variable {shape : List Nat} {data : List α} (hdata : data.length = volume shape)
include hdata

theorem length_reverseData : (reverseData shape data).length = volume shape := by
  induction shape generalizing data with
  | nil => exact hdata
  | cons length rest ih =>
    have hrows := length_of_mem_map_pieces (fun _ hpiece => ih hpiece) hdata
    rw [reverseData, length_interleave hrows, List.length_map, length_pieces, volume, Nat.mul_comm]

theorem getElem?_reverseData {index : List Nat} {k k' : Nat} (hk : offset shape index = some k)
    (hk' : offset shape.reverse index.reverse = some k') :
    (reverseData shape data)[k']? = data[k]? := by
  induction shape generalizing data index k k' with
  | nil =>
    cases index with
    | nil => cases hk; cases hk'; rfl
    | cons => simp [offset] at hk
  | cons length rest ih =>
    cases index with
    | nil => simp [offset] at hk
    | cons i index =>
      simp only [offset, Option.ite_none_right_eq_some, Option.map_eq_some_iff] at hk
      obtain ⟨hi, q, hq, rfl⟩ := hk
      have hrank : index.reverse.length = rest.reverse.length := by
        simpa using length_of_offset hq
      -- The first axis becomes the last: place `p` of the others, then `i`.
      rw [List.reverse_cons, List.reverse_cons, offset_append hrank] at hk'
      simp only [offset, hi, if_true, Option.map_some, volume, Option.bind_eq_some_iff,
        Nat.mul_one, Nat.add_zero, Option.some.injEq] at hk'
      obtain ⟨p, hp, rfl⟩ := hk'
      have hplace : p < volume rest := volume_reverse rest ▸ offset_lt hp
      have hpiece : (pieces length (volume rest) data)[i]? =
          some ((data.drop (i * volume rest)).take (volume rest)) := getElem?_pieces data hi
      have hsize := length_of_mem_pieces hdata (List.mem_of_getElem? hpiece)
      have hrows := length_of_mem_map_pieces (fun _ hpiece => length_reverseData hpiece) hdata
      have hcolumn := getElem?_interleave hrows hplace
        (show i < _ by rwa [List.length_map, length_pieces])
      rw [List.length_map, length_pieces, List.getElem?_map, hpiece, Option.map_some,
        Option.bind_some, ih hsize hq hp] at hcolumn
      rw [reverseData, hcolumn, getElem?_of_pieces data hi (offset_lt hq), hpiece,
        Option.bind_some]

end

-- ---------------------------------------------------------------------------
-- Arrays by their elements
-- ---------------------------------------------------------------------------

theorem Valid.eq_of_element? {a b : Dense α} (ha : a.Valid) (hb : b.Valid)
    (hshape : a.shape = b.shape) (h : ∀ index, a.element? index = b.element? index) : a = b := by
  have hlength : a.data.length = b.data.length := by rw [ha.size, hb.size, hshape]
  suffices hdata : a.data = b.data by
    cases a
    cases b
    simp_all
  refine List.ext_getElem? fun k => ?_
  by_cases hk : k < volume a.shape
  · have helement := h (indexAt a.shape k)
    rwa [element?, element?, ← hshape, offset_indexAt hk, Option.bind_some, Option.bind_some]
      at helement
  · have hend : a.data.length ≤ k := by
      rw [ha.size]
      exact Nat.le_of_not_lt hk
    rw [List.getElem?_eq_none hend, List.getElem?_eq_none (hlength ▸ hend)]

theorem combine_ok_iff {op : α → α → α} {a b : Dense α} (ha : a.Valid) (hb : b.Valid) :
    (∃ sum, a.combine op b = .ok sum) ↔ a.shape = b.shape := by
  constructor
  · rintro ⟨sum, hsum⟩
    simp only [combine, bind_ok, ensure_ok] at hsum
    obtain ⟨_, hshape, -⟩ := hsum
    exact hshape
  · exact fun hshape => ⟨_, (combine_of_shape op ha hb hshape).2⟩

theorem element?_combine {op : α → α → α} {a b sum : Dense α} (h : a.combine op b = .ok sum)
    (index : List Nat) : sum.element? index =
      (a.element? index).bind fun x => (b.element? index).map fun y => op x y := by
  simp only [combine, bind_ok, ensure_ok, ofShape_ok] at h
  obtain ⟨_, hshape, rfl, -⟩ := h
  simp only [element?, ← hshape]
  cases offset a.shape index with
  | none => rfl
  | some k =>
    simp only [Option.bind_some, List.getElem?_zipWith]
    cases a.data[k]? <;> cases b.data[k]? <;> rfl

-- ---------------------------------------------------------------------------
-- Reversing the axes
-- ---------------------------------------------------------------------------

theorem Valid.reverseAxes_eq {a : Dense α} (ha : a.Valid) :
    a.reverseAxes = ⟨a.shape.reverse, reverseData a.shape a.data⟩ := by
  rw [reverseAxes]
  split
  next hempty =>
    have hlength := length_reverseData ha.size
    rw [← ha.size, List.isEmpty_iff.mp hempty] at hlength
    rw [List.isEmpty_iff.mp hempty, List.eq_nil_of_length_eq_zero hlength]
  next => rfl

theorem reverseAxes_valid {a : Dense α} (ha : a.Valid) : a.reverseAxes.Valid := by
  rw [ha.reverseAxes_eq]
  refine ⟨?_, ?_⟩
  · rw [length_reverseData ha.size, volume_reverse]
  · rw [volume_filter_reverse]
    exact ha.bounded

theorem element?_reverseAxes {a : Dense α} (ha : a.Valid) (index : List Nat) :
    a.reverseAxes.element? index = a.element? index.reverse := by
  have hsome := offset_reverse_isSome a.shape index.reverse
  rw [List.reverse_reverse] at hsome
  rw [ha.reverseAxes_eq, element?, element?]
  cases hk : offset a.shape index.reverse with
  | none =>
    rw [hk, Option.isSome_none, Option.isSome_eq_false_iff, Option.isNone_iff_eq_none] at hsome
    rw [hsome, Option.bind_none, Option.bind_none]
  | some k =>
    obtain ⟨k', hk'⟩ := Option.isSome_iff_exists.mp (hsome.trans (Option.isSome_of_eq_some hk))
    rw [hk', Option.bind_some, Option.bind_some]
    exact getElem?_reverseData ha.size hk (by rwa [List.reverse_reverse])

theorem element?_of_length_ne {a : Dense α} {index : List Nat}
    (h : index.length ≠ a.shape.length) : a.element? index = none := by
  rw [element?, Option.bind_eq_none_iff]
  exact fun k hk => absurd (length_of_offset hk) h

section
variable {a : Dense α} {outer inner : List Nat} {length : Nat} {indices : List Nat} (ha : a.Valid)
  (hshape : a.shape = outer ++ length :: inner)
include hshape

theorem shape_reverseAxes : a.reverseAxes.shape = inner.reverse ++ length :: outer.reverse := by
  simp [reverseAxes, hshape]

theorem set_shape_reverseAxes : a.reverseAxes.shape.set inner.length indices.length =
    (outer ++ indices.length :: inner).reverse := by
  have hset := set_axis inner.reverse outer.reverse length indices.length
  rw [List.length_reverse] at hset
  rw [shape_reverseAxes hshape, hset]
  simp

include ha

theorem select_reverseAxes_iff : (∃ t, a.reverseAxes.select inner.length indices = .ok t) ↔
    ∃ b, a.select outer.length indices = .ok b := by
  have hlength : a.reverseAxes.shape[inner.length]? = a.shape[outer.length]? := by
    rw [shape_reverseAxes hshape, hshape]
    simp
  rw [select_ok_iff ha, select_ok_iff (reverseAxes_valid ha), hlength,
    set_shape_reverseAxes hshape, volume_filter_reverse, hshape, set_axis]

theorem eq_of_select_reverseAxes {b t : Dense α} (hb : a.select outer.length indices = .ok b)
    (ht : a.reverseAxes.select inner.length indices = .ok t) : t = b.reverseAxes := by
  obtain ⟨hbvalid, hbshape⟩ := select_valid hb
  obtain ⟨htvalid, htshape⟩ := select_valid ht
  rw [set_shape_reverseAxes hshape] at htshape
  rw [hshape, set_axis] at hbshape
  have hshapes : t.shape = b.reverseAxes.shape := by rw [htshape, reverseAxes, hbshape]
  refine htvalid.eq_of_element? (reverseAxes_valid hbvalid) hshapes fun index => ?_
  by_cases hrank : index.length = t.shape.length
  · -- Positions before the axis in one array come after it in the other.
    have haxis : inner.length < index.length := by
      rw [hrank, htshape, List.length_reverse, List.length_append, List.length_cons]
      omega
    obtain ⟨before, after, hindex, hbefore⟩ :=
      axes_of_getElem? (List.getElem?_eq_getElem haxis)
    have hafter : after.reverse.length = outer.length := by
      have hlength := congrArg List.length hindex
      rw [hrank, htshape] at hlength
      simp only [List.length_reverse, List.length_append, List.length_cons] at hlength ⊢
      omega
    rw [hindex, element?_select (reverseAxes_valid ha) ht hbefore, element?_reverseAxes hbvalid,
      List.reverse_append, List.reverse_cons, List.append_assoc, List.singleton_append,
      element?_select ha hb hafter]
    congr 1
    funext i
    rw [element?_reverseAxes ha, List.reverse_append, List.reverse_cons, List.append_assoc,
      List.singleton_append]
  · rw [element?_of_length_ne hrank, element?_of_length_ne (hshapes ▸ hrank)]

end

/-- Selecting along an axis of the reversed array is selecting along the axis whose
place it took, counted from the end. -/
theorem select_reverseAxes {a : Dense α} {axis : Nat} (ha : a.Valid) (haxis : axis < a.shape.length)
    (indices : List Nat) : (a.reverseAxes.select axis indices).toOption =
      (a.select (a.shape.length - 1 - axis) indices).toOption.map reverseAxes := by
  have hlt : a.shape.length - 1 - axis < a.shape.length := by omega
  obtain ⟨outer, inner, hshape, houter⟩ := axes_of_getElem? (List.getElem?_eq_getElem hlt)
  have hinner : inner.length = axis := by
    have hrank := congrArg List.length hshape
    simp only [List.length_append, List.length_cons] at hrank
    omega
  rw [← houter, ← hinner]
  exact toOption_eq_map (select_reverseAxes_iff ha hshape) (eq_of_select_reverseAxes ha hshape)

theorem combine_reverseAxes {a b : Dense α} (ha : a.Valid) (hb : b.Valid) (op : α → α → α) :
    (a.reverseAxes.combine op b.reverseAxes).toOption =
      (a.combine op b).toOption.map reverseAxes := by
  refine toOption_eq_map ?_ fun {sum t} hsum ht => ?_
  · rw [combine_ok_iff ha hb, combine_ok_iff (reverseAxes_valid ha) (reverseAxes_valid hb)]
    exact List.reverse_inj
  · have hvalid := (combine_valid hsum).1
    refine (combine_valid ht).1.eq_of_element? (reverseAxes_valid hvalid) ?_ fun index => ?_
    · rw [(combine_valid ht).2, reverseAxes, reverseAxes, (combine_valid hsum).2]
    · rw [element?_combine ht, element?_reverseAxes ha, element?_reverseAxes hb,
        element?_reverseAxes hvalid, element?_combine hsum]

end Dense

-- ---------------------------------------------------------------------------
-- Value arrays
-- ---------------------------------------------------------------------------

namespace Values

theorem Valid.eq_of_element? {a b : Values} (ha : a.Valid) (hb : b.Valid)
    (hdtype : a.dtype = b.dtype) (hshape : a.shape = b.shape)
    (h : ∀ index, a.element? index = b.element? index) : a = b := by
  cases a <;> cases b <;> cases hdtype
  · refine congrArg float32 (Dense.Valid.eq_of_element? ha hb hshape fun index => ?_)
    exact Option.map_injective (fun _ _ => Sum.inl.inj) (h index)
  · refine congrArg float64 (Dense.Valid.eq_of_element? ha hb hshape fun index => ?_)
    exact Option.map_injective (fun _ _ => Sum.inr.inj) (h index)

theorem element?_reverseAxes {a : Values} (ha : a.Valid) (index : List Nat) :
    a.reverseAxes.element? index = a.element? index.reverse := by
  cases a with
  | float32 a => exact congrArg (Option.map Sum.inl) (Dense.element?_reverseAxes ha index)
  | float64 a => exact congrArg (Option.map Sum.inr) (Dense.element?_reverseAxes ha index)

theorem select_reverseAxes {a : Values} {axis : Nat} (ha : a.Valid) (haxis : axis < a.shape.length)
    (indices : List Nat) : (a.reverseAxes.select axis indices).toOption =
      (a.select (a.shape.length - 1 - axis) indices).toOption.map reverseAxes := by
  cases a with
  | float32 a =>
    simp only [reverseAxes, select, toOption_map, Dense.select_reverseAxes ha haxis]
    simp [shape, Function.comp_def, reverseAxes]
  | float64 a =>
    simp only [reverseAxes, select, toOption_map, Dense.select_reverseAxes ha haxis]
    simp [shape, Function.comp_def, reverseAxes]

theorem add_reverseAxes {a b : Values} (ha : a.Valid) (hb : b.Valid) :
    (a.reverseAxes.add b.reverseAxes).toOption = (a.add b).toOption.map reverseAxes := by
  cases a <;> cases b <;> try rfl
  · simp only [reverseAxes, add, toOption_map, Dense.combine_reverseAxes ha hb]
    simp [Function.comp_def, reverseAxes]
  · simp only [reverseAxes, add, toOption_map, Dense.combine_reverseAxes ha hb]
    simp [Function.comp_def, reverseAxes]

end Values

end BlockTensor
