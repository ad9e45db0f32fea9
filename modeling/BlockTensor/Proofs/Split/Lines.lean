import BlockTensor.Proofs.Array.Slices
import BlockTensor.Proofs.Split.Parts

/-!
# Lines of a block

A line is an entry of an axis with the values at it: a row of the array along
the samples, a column along the properties. A part has the lines of its block
whose entries the group keeps, in their order and with their values
(`lines_part`). The rows of a gradient follow the samples that they refer to
(`gradientRows_part`): the numbers of the samples change, the samples do not.
-/

namespace BlockTensor

-- ---------------------------------------------------------------------------
-- Lines
-- ---------------------------------------------------------------------------

namespace Axis

def place (axis : Axis) (block : Block) : Nat :=
  match axis with
  | samples => 0
  | properties => block.values.shape.length - 1

def lines (axis : Axis) (block : Block) : List (Entry × Values) :=
  (axis.labels block).entries.zip (block.values.slices (axis.place block))

theorem getD_place (axis : Axis) {block : Block}
    (h : AxesFit block.values.shape block.samples block.components block.properties) :
    block.values.shape.getD (axis.place block) 0 = (axis.labels block).length := by
  rw [h.shape]
  cases axis with
  | samples => rfl
  | properties =>
    rw [place, h.shape, List.length_append, List.length_singleton, Nat.add_sub_cancel]
    simp [labels]

theorem length_slices (axis : Axis) {block : Block}
    (h : AxesFit block.values.shape block.samples block.components block.properties) :
    (axis.labels block).entries.length = (block.values.slices (axis.place block)).length := by
  rw [Values.slices, List.length_map, List.length_range, getD_place axis h]
  rfl

end Axis

namespace Block

theorem lines_part {block part : Block} {axis : Axis} {group : Labels} (hblock : block.Valid)
    (hgroup : Labels.ValidNames group.names) (hnames : group.names ⊆ (axis.labels block).names)
    (h : block.part axis group = .ok part) :
    axis.lines part =
      (axis.lines block).filter fun line => (axis.labels block).keeps group line.1 := by
  have own := hblock.labelled
  obtain ⟨-, rfl⟩ := (part_kept hblock hgroup hnames).mp h
  rw [Axis.lines, Axis.lines, ← filter_zip (Axis.length_slices axis own.axes),
    ← pick_positionsWhere]
  cases axis with
  | samples =>
    have hselect := own.axes.select_first own.values
      (positionsWhere_sublist (block.samples.keeps group) _)
    exact congrArg _ (Values.slices_select own.values hselect)
  | properties =>
    have hselect := own.axes.select_last own.values
      (positionsWhere_sublist (block.properties.keeps group) _)
    have hplace : Axis.properties.place (block.cut .properties (Axis.properties.kept group block)) =
        Axis.properties.place block := by
      rw [Axis.place, Axis.place, cut, Values.shape_picked, List.length_set]
    rw [hplace]
    exact congrArg _ (Values.slices_select own.values hselect)

end Block

-- ---------------------------------------------------------------------------
-- Rows of gradients
-- ---------------------------------------------------------------------------

/-- A row of a gradient: the sample of its parent that it refers to, its other
columns, and the values. -/
structure GradientRow where
  sample : Option Entry
  columns : Entry
  values : Values

namespace Block

def gradientRow (block : Block) (line : Entry × Values) : GradientRow :=
  ⟨block.samples.entries[line.1.sample]?, line.1.tail, line.2⟩

/-- The rows of the gradient with a parameter; none if there is no such gradient. -/
def gradientRows (block : Block) (parameter : String) : List GradientRow :=
  match block.gradients.find? parameter with
  | none => []
  | some gradient => (Axis.samples.lines gradient).map block.gradientRow

end Block

section
variable {kept : List Nat} {samples : List Entry} {test : Entry → Bool}

/-- An entry with a new number refers to the sample that it referred to. -/
theorem map_renumber (hcount : (positionsWhere test samples).length ≤ 0x80000000) {entry : Entry}
    (hne : entry ≠ []) : (renumber (numbered (positionsWhere test samples)) entry).map
        (fun new => ((samples.filter test)[new.sample]?, new.tail)) =
      if samples[entry.sample]?.any test then some (samples[entry.sample]?, entry.tail)
      else none := by
  have hany : samples[entry.sample]?.any test = true ↔
      entry.sample ∈ positionsWhere test samples := by
    rw [Option.any_eq_true, mem_positionsWhere]
  rw [renumber_eq hne, Option.map_map]
  cases h : (positionsWhere test samples).idxOf? entry.sample with
  | none =>
    rw [if_neg (mt hany.mp (List.idxOf?_eq_none_iff.mp h)), Option.map_none]
  | some new =>
    obtain ⟨hlt, hold, -⟩ := List.idxOf?_eq_some_iff.mp h
    have hmem : entry.sample ∈ positionsWhere test samples := hold ▸ List.getElem_mem hlt
    have hget : (samples.filter test)[new]? = samples[entry.sample]? := by
      rw [← pick_positionsWhere, getElem?_pick fun _ => lt_of_mem_positionsWhere,
        List.getElem?_eq_getElem hlt, hold, Option.bind_some]
    rw [if_pos (hany.mpr hmem), Option.map_some, Function.comp_apply,
      sample_ofNat (Nat.lt_of_lt_of_le hlt hcount), hget, List.tail_cons]

end

namespace Block

theorem lines_cutGradient {gradient : Block} (hgradient : gradient.Valid) (kept : List Nat) :
    Axis.samples.lines (gradient.cutGradient .samples kept) =
      (Axis.samples.lines gradient).filterMap
        fun line => (renumber (numbered kept) line.1).map fun new => (new, line.2) := by
  have own := hgradient.labelled
  have hselect := own.axes.select_first own.values (keptRows_sublist kept gradient)
  rw [Axis.lines, Axis.lines, ← filterMap_zip (Axis.length_slices .samples own.axes)]
  exact congrArg _ (Values.slices_select own.values hselect)

/-- One gradient, under a part whose samples are the ones that were kept. -/
theorem gradientRow_cutGradient {block part gradient : Block} {test : Entry → Bool}
    (hgradient : gradient.Valid)
    (hcount : (positionsWhere test block.samples.entries).length ≤ 0x80000000)
    (hsamples : part.samples.entries = block.samples.entries.filter test) :
    (Axis.samples.lines (gradient.cutGradient .samples
        (positionsWhere test block.samples.entries))).map part.gradientRow =
      ((Axis.samples.lines gradient).map block.gradientRow).filter
        fun row => row.sample.any test := by
  rw [lines_cutGradient hgradient, List.map_filterMap, ← List.filterMap_eq_filter,
    List.filterMap_map]
  refine List.filterMap_congr fun line hmem => ?_
  have hentry : line.1 ∈ gradient.samples.entries := (List.of_mem_zip hmem).1
  have hrow := congrArg (Option.map fun pair => GradientRow.mk pair.1 pair.2 line.2)
    (map_renumber hcount (hgradient.labelled.samples.ne_nil hentry))
  rw [Option.map_map] at hrow ⊢
  simp only [gradientRow, Function.comp_def, hsamples] at hrow ⊢
  rw [hrow, Option.guard]
  split <;> rfl

theorem gradientRows_part {block part : Block} {group : Labels} (hblock : block.Valid)
    (hgroup : Labels.ValidNames group.names)
    (hnames : group.names ⊆ (Axis.samples.labels block).names)
    (h : block.part .samples group = .ok part) (parameter : String) :
    part.gradientRows parameter = (block.gradientRows parameter).filter
      fun row => row.sample.any (block.samples.keeps group) := by
  obtain ⟨hcount, rfl⟩ := (part_kept hblock hgroup hnames).mp h
  simp only [gradientRows, cut, Gradients.find?_map]
  cases hold : block.gradients.find? parameter with
  | none => rfl
  | some gradient =>
    obtain ⟨-, hgradient⟩ := hblock.gradient (Gradients.mem_of_find? hold)
    exact gradientRow_cutGradient hgradient (hcount rfl) (pick_positionsWhere ..)

end Block

end BlockTensor
