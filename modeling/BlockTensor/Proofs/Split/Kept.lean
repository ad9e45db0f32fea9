import BlockTensor.Proofs.Array.Elements
import BlockTensor.Proofs.Split.Commute

/-!
# What a part holds

A part of a block has the entries that the group keeps, in their order, and the
elements at each of them (`Axis.Narrows`). Along the properties the gradients lose
the same columns (`split_properties`). Along the samples they lose the rows of the
samples that are gone, and what is left refers to the samples that it referred to
before, under their new numbers (`split_samples`).
-/

namespace BlockTensor

-- ---------------------------------------------------------------------------
-- Elements along an axis
-- ---------------------------------------------------------------------------

namespace Axis

/-- `new` has the entries of `old` that pass the test, in their order, and at each of
them the elements that `old` has there. The places along the other axes are those
before and after. -/
structure Narrows (axis : Axis) (keeps : Entry → Bool) (old new : Block) : Prop where
  names : (axis.labels new).names = (axis.labels old).names
  entries : (axis.labels new).entries = (axis.labels old).entries.filter keeps
  dtype : new.values.dtype = old.values.dtype
  elements : ∀ entry i j, (axis.labels old).entries[i]? = some entry →
    (axis.labels new).entries[j]? = some entry → ∀ before after,
      before.length = axis.place old →
        new.values.element? (before ++ j :: after) = old.values.element? (before ++ i :: after)

section
variable {axis : Axis} {block : Block}

theorem exists_shape (axis : Axis) (h : block.Valid) : ∃ outer inner,
    block.values.shape = outer ++ (axis.labels block).length :: inner ∧
      outer.length = axis.place block := by
  have haxes := h.labelled.axes
  cases axis with
  | samples => exact ⟨[], _, haxes.shape_first, rfl⟩
  | properties => exact ⟨_, [], haxes.shape, haxes.last_eq.symm⟩

theorem mem_lines (h : block.Valid) {entry : Entry} {values : Values} :
    (entry, values) ∈ axis.lines block ↔ ∃ i, (axis.labels block).entries[i]? = some entry ∧
      values = block.values.slice (axis.place block) i := by
  have hslice {i : Nat} (hentry : (axis.labels block).entries[i]? = some entry) :
      (block.values.slices (axis.place block))[i]? =
        some (block.values.slice (axis.place block) i) := by
    have hlt := (List.getElem?_eq_some_iff.mp hentry).1
    have hcount := getD_place axis h.labelled.axes
    rw [Values.slices, List.getElem?_map, List.getElem?_range (hcount.symm ▸ hlt)]
    rfl
  rw [lines, List.mem_iff_getElem?]
  refine exists_congr fun i => ?_
  rw [List.getElem?_zip_eq_some]
  refine and_congr_right fun hentry => ?_
  rw [hslice hentry, Option.some.injEq, eq_comm]

theorem element?_line (h : block.Valid) {i : Nat} (hi : i < (axis.labels block).length)
    {before after : List Nat} (hbefore : before.length = axis.place block) :
    (block.values.slice (axis.place block) i).element? (before ++ 0 :: after) =
      block.values.element? (before ++ i :: after) := by
  obtain ⟨outer, inner, hshape, hplace⟩ := exists_shape axis h
  rw [← hplace] at hbefore ⊢
  exact Values.element?_slice h.labelled.values hshape hi hbefore

end

theorem narrows_of_lines {axis : Axis} {keeps : Entry → Bool} {old new : Block} (hold : old.Valid)
    (hnew : new.Valid) (hnames : (axis.labels new).names = (axis.labels old).names)
    (hdtype : new.values.dtype = old.values.dtype) (hplace : axis.place new = axis.place old)
    (hlines : axis.lines new = (axis.lines old).filter fun line => keeps line.1) :
    axis.Narrows keeps old new where
  names := hnames
  entries := by
    rw [← Block.map_fst_lines hnew, ← Block.map_fst_lines hold, hlines, List.filter_map]
    rfl
  dtype := hdtype
  elements := by
    intro entry i j hi hj before after hbefore
    have hline : (entry, new.values.slice (axis.place new) j) ∈ axis.lines old := by
      have hmem := (mem_lines hnew).mpr ⟨j, hj, rfl⟩
      rw [hlines] at hmem
      exact (List.mem_filter.mp hmem).1
    obtain ⟨k, hk, hslice⟩ := (mem_lines hold).mp hline
    have hlt := (List.getElem?_eq_some_iff.mp hi).1
    have hlt' := (List.getElem?_eq_some_iff.mp hj).1
    -- The entries are distinct, so the line is the one that was asked for.
    obtain rfl : i = k :=
      (List.getElem?_inj hlt (labels_valid axis hold).distinct).mp (hi.trans hk.symm)
    calc new.values.element? (before ++ j :: after)
      _ = (new.values.slice (axis.place new) j).element? (before ++ 0 :: after) :=
        (element?_line hnew hlt' (hbefore.trans hplace.symm)).symm
      _ = (old.values.slice (axis.place old) i).element? (before ++ 0 :: after) := by rw [hslice]
      _ = old.values.element? (before ++ i :: after) := element?_line hold hlt hbefore

end Axis

namespace Block

section
variable {block part : Block} {axis : Axis} {group : Labels} (hblock : block.Valid)
  (hgroup : Labels.ValidNames group.names) (hnames : group.names ⊆ (axis.labels block).names)
include hblock hgroup hnames

theorem narrows_part (h : block.part axis group = .ok part) :
    axis.Narrows ((axis.labels block).keeps group) block part := by
  have hlines := lines_part hblock hgroup hnames h
  have hpart := part_valid hblock h
  obtain ⟨-, rfl⟩ := (part_kept hblock hgroup hnames).mp h
  refine Axis.narrows_of_lines hblock hpart (names_labels_cut _) ?_ ?_ hlines
  · cases axis <;> simp [cut]
  · cases axis <;> simp [Axis.place, cut]

end

-- ---------------------------------------------------------------------------
-- Along the properties
-- ---------------------------------------------------------------------------

structure FewerColumns (keeps : Entry → Bool) (old new : Block) : Prop
    extends Axis.properties.Narrows keeps old new where
  samples : new.samples = old.samples
  components : new.components = old.components

/-- A part along the properties. The gradients have its properties, so the columns
that are left of them are the same ones. -/
structure KeepsColumns (block : Block) (group : Labels) (part : Block) : Prop
    extends FewerColumns (block.properties.keeps group) block part where
  gradients : List.Forall₂ (fun old new => new.1 = old.1 ∧
      FewerColumns (block.properties.keeps group) old.2 new.2 ∧
      new.2.properties = part.properties) block.gradients.toList part.gradients.toList

section
variable {block : Block} {group : Labels} (hblock : block.Valid)
  (hgroup : Labels.ValidNames group.names)
include hblock hgroup

theorem fewerColumns_cutGradient
    (hnames : group.names ⊆ (Axis.properties.labels block).names) :
    FewerColumns (block.properties.keeps group) block
      (block.cutGradient .properties (Axis.properties.kept group block)) := by
  have hpart := (part_kept hblock hgroup hnames).mpr ⟨nofun, rfl⟩
  obtain ⟨hcolumns, hentries, hdtype, helements⟩ := narrows_part hblock hgroup hnames hpart
  exact ⟨⟨hcolumns, hentries, hdtype, helements⟩, rfl, rfl⟩

theorem split_properties (hnames : group.names ⊆ block.properties.names) :
    ∃ part, block.split .properties [group] = .ok [part] ∧ part.Valid ∧
      block.KeepsColumns group part := by
  have hnames : group.names ⊆ (Axis.properties.labels block).names := hnames
  have hpart := (part_kept hblock hgroup hnames).mpr ⟨nofun, rfl⟩
  refine ⟨_, split_single.mpr hpart, part_valid hblock hpart,
    ⟨⟨narrows_part hblock hgroup hnames hpart, rfl, rfl⟩, ?_⟩⟩
  rw [gradients_cut, Gradients.toList_map, List.forall₂_map_right_iff, List.forall₂_same]
  intro item hmem
  obtain ⟨hfits, hgradient⟩ := hblock.gradient hmem
  have hkept : Axis.properties.kept group item.2 = Axis.properties.kept group block :=
    congrArg (fun labels : Labels => positionsWhere (labels.keeps group) labels.entries)
      hfits.properties
  have hsame : (Axis.properties.labels item.2).names = block.properties.names :=
    congrArg (fun labels : Labels => labels.names) hfits.properties
  have hcolumns := fewerColumns_cutGradient hgradient hgroup (hsame ▸ hnames)
  rw [hkept, hfits.properties] at hcolumns
  exact ⟨rfl, hcolumns, congrArg (Labels.picked _) hfits.properties⟩

end

theorem perAtomRows_valid : perAtomRows.Valid := by
  have hmade : (Archive.BlockRecord.ofBlock perAtomRows).block = .ok perAtomRows := rfl
  exact Archive.block_valid hmade

theorem split_properties_perAtomRows :
    let degrees : Labels := ⟨["l"], [[1], [3]]⟩
    perAtomRows.Valid ∧ Labels.ValidNames degrees.names ∧
      degrees.names ⊆ perAtomRows.properties.names ∧
      ∃ part, perAtomRows.split .properties [degrees] = .ok [part] ∧ part.Valid ∧
        perAtomRows.KeepsColumns degrees part := by
  have hdegrees : Labels.ValidNames ["l"] := ⟨by decide, by decide, by decide⟩
  have hnames : ["l"] ⊆ perAtomRows.properties.names := by decide
  exact ⟨perAtomRows_valid, hdegrees, hnames, split_properties perAtomRows_valid hdegrees hnames⟩

-- ---------------------------------------------------------------------------
-- Along the samples
-- ---------------------------------------------------------------------------

/-- The rows of a gradient whose samples are kept, in their order. The samples that
they refer to are found among those of the part, under new numbers. -/
structure RowsFollow (block : Block) (group : Labels) (part old new : Block) : Prop where
  names : new.samples.names = old.samples.names
  components : new.components = old.components
  properties : new.properties = old.properties
  dtype : new.values.dtype = old.values.dtype
  rows : (Axis.samples.lines new).map part.gradientRow =
    ((Axis.samples.lines old).map block.gradientRow).filter
      fun row => row.sample.any (block.samples.keeps group)

structure KeepsRows (block : Block) (group : Labels) (part : Block) : Prop
    extends Axis.samples.Narrows (block.samples.keeps group) block part where
  components : part.components = block.components
  properties : part.properties = block.properties
  gradients : List.Forall₂ (fun old new => new.1 = old.1 ∧
      block.RowsFollow group part old.2 new.2) block.gradients.toList part.gradients.toList

theorem split_samples {block : Block} {group : Labels} (hblock : block.Valid)
    (hcount : block.samples.length ≤ 0x80000000) (hgroup : Labels.ValidNames group.names)
    (hnames : group.names ⊆ block.samples.names) :
    ∃ part, block.split .samples [group] = .ok [part] ∧ part.Valid ∧
      block.KeepsRows group part := by
  have hnames : group.names ⊆ (Axis.samples.labels block).names := hnames
  have hpart := part_eq hblock hgroup hnames hcount
  have hkept := ((part_kept hblock hgroup hnames).mp hpart).1 rfl
  have hnarrows := narrows_part hblock hgroup hnames hpart
  refine ⟨_, split_single.mpr hpart, part_valid hblock hpart, ⟨hnarrows, rfl, rfl, ?_⟩⟩
  rw [gradients_cut, Gradients.toList_map, List.forall₂_map_right_iff, List.forall₂_same]
  intro item hmem
  obtain ⟨-, hgradient⟩ := hblock.gradient hmem
  refine ⟨rfl, rfl, rfl, rfl, by simp [cutGradient], ?_⟩
  exact gradientRow_cutGradient hgradient hkept hnarrows.entries

/-- The columns of the group stand in another order than those of the samples. -/
theorem split_samples_perAtomRows :
    let atoms : Labels := ⟨["atom", "system"], [[0, 1], [7, 7], [1, 1]]⟩
    perAtomRows.Valid ∧ perAtomRows.samples.length ≤ 0x80000000 ∧
      Labels.ValidNames atoms.names ∧ atoms.names ⊆ perAtomRows.samples.names ∧
      ∃ part, perAtomRows.split .samples [atoms] = .ok [part] ∧ part.Valid ∧
        perAtomRows.KeepsRows atoms part := by
  have hcount : perAtomRows.samples.length ≤ 0x80000000 := by decide
  have hatoms : Labels.ValidNames ["atom", "system"] := ⟨by decide, by decide, by decide⟩
  have hnames : ["atom", "system"] ⊆ perAtomRows.samples.names := by decide
  exact ⟨perAtomRows_valid, hcount, hatoms, hnames,
    split_samples perAtomRows_valid hcount hatoms hnames⟩

end Block

end BlockTensor
