import BlockTensor.Proofs.Split.Partition

/-!
# Splitting again

A part can be split again. Two cuts along one axis are one cut at the positions
that are left in the end (`cut_cut`), also for gradients, whose samples are then
numbered twice. Cuts along different axes leave each other alone (`cut_comm`).
So the order of two splits does not matter, and a second split by the same group
changes nothing.
-/

namespace BlockTensor

-- ---------------------------------------------------------------------------
-- Arrays
-- ---------------------------------------------------------------------------

namespace AxesFit

variable {a : Values} {samples : Labels} {components : List Labels} {properties : Labels}
  {rows columns : List Nat} (h : AxesFit a.shape samples components properties) (ha : a.Valid)
include h ha

theorem picked_first_picked {second : List Nat} (hrows : ∀ i ∈ rows, i < samples.length)
    (hsecond : ∀ i ∈ second, i < rows.length) :
    (a.picked 0 rows).picked 0 second = a.picked 0 (pick second rows) :=
  Values.picked_picked ha hrows hsecond h.shape_first

theorem picked_last_picked {second : List Nat} (hcolumns : ∀ i ∈ columns, i < properties.length)
    (hsecond : ∀ i ∈ second, i < columns.length) :
    (a.picked (a.shape.length - 1) columns).picked (a.shape.length - 1) second =
      a.picked (a.shape.length - 1) (pick second columns) := by
  rw [h.last_eq]
  exact Values.picked_picked ha hcolumns hsecond h.shape

theorem picked_comm (hrows : ∀ i ∈ rows, i < samples.length)
    (hcolumns : ∀ i ∈ columns, i < properties.length) :
    (a.picked 0 rows).picked (a.shape.length - 1) columns =
      (a.picked (a.shape.length - 1) columns).picked 0 rows := by
  rw [h.last_eq]
  exact Values.picked_comm ha hrows hcolumns h.shape_first

end AxesFit

namespace Gradients

variable {f g : Block → Block} {gradients : Gradients}

theorem map_map : (gradients.map f).map g = gradients.map fun gradient => g (f gradient) := by
  induction gradients with
  | nil => rfl
  | cons _ _ _ ih => rw [map, map, map, ih]

theorem map_congr (h : ∀ item ∈ gradients.toList, f item.2 = g item.2) :
    gradients.map f = gradients.map g := by
  induction gradients with
  | nil => rfl
  | cons _ _ _ ih =>
    obtain ⟨hfirst, hrest⟩ := List.forall_mem_cons.mp h
    rw [map, map, ih hrest]
    exact congrArg (cons _ · _) hfirst

end Gradients

theorem Labels.picked_picked {labels : Labels} {first second : List Nat}
    (hfirst : ∀ i ∈ first, i < labels.length) :
    (labels.picked first).picked second = labels.picked (pick second first) :=
  congrArg (fun entries => (⟨⟨labels.names, entries⟩⟩ : Labels)) (pick_pick hfirst)

namespace Block

-- ---------------------------------------------------------------------------
-- Cuts of cuts
-- ---------------------------------------------------------------------------

section
variable {block gradient : Block} {first second rows columns : List Nat}

/-- The samples are renumbered twice, by one numbering after the other. -/
theorem cutGradient_samples_twice (hgradient : gradient.Valid) (hfirst : first.Nodup)
    (hcount : first.length ≤ 0x80000000) (hsecond : ∀ j ∈ second, j < first.length) :
    (gradient.cutGradient .samples first).cutGradient .samples second =
      gradient.cutGradient .samples (pick second first) := by
  have own := hgradient.labelled
  have htwice : ∀ entry ∈ gradient.samples.entries,
      (renumber (numbered first) entry).bind (renumber (numbered second)) =
        renumber (numbered (pick second first)) entry := fun entry hmem =>
    renumber_renumber hfirst hcount hsecond (own.samples.ne_nil hmem)
  have hentries : (gradient.samples.renumbered first).renumbered second =
      gradient.samples.renumbered (pick second first) := by
    rw [Labels.renumbered, Labels.renumbered, List.filterMap_filterMap,
      List.filterMap_congr htwice]
    rfl
  have hrows : pick ((gradient.cutGradient .samples first).keptRows second)
      (gradient.keptRows first) = gradient.keptRows (pick second first) := by
    refine (pick_positionsWhere_filterMap ..).trans (positionsWhere_congr fun entry hmem => ?_)
    rw [← htwice entry hmem]
    cases renumber (numbered first) entry <;> rfl
  have hrange : ∀ i ∈ gradient.keptRows first, i < gradient.samples.length :=
    fun i => lt_of_mem_positionsWhere
  have hrange' : ∀ i ∈ (gradient.cutGradient .samples first).keptRows second,
      i < (gradient.keptRows first).length := by
    rw [length_keptRows]
    exact fun i => lt_of_mem_positionsWhere
  have hvalues := own.axes.picked_first_picked own.values hrange hrange'
  rw [hrows] at hvalues
  simp only [cutGradient] at hvalues hentries ⊢
  rw [hvalues, hentries]

theorem cutGradient_properties_twice (hgradient : gradient.Valid)
    (hfirst : ∀ i ∈ first, i < gradient.properties.length)
    (hsecond : ∀ j ∈ second, j < first.length) :
    (gradient.cutGradient .properties first).cutGradient .properties second =
      gradient.cutGradient .properties (pick second first) := by
  have own := hgradient.labelled
  simp only [cutGradient, Values.shape_picked, List.length_set,
    own.axes.picked_last_picked own.values hfirst hsecond, Labels.picked_picked hfirst]

theorem cutGradient_comm (hgradient : gradient.Valid)
    (hcolumns : ∀ i ∈ columns, i < gradient.properties.length) :
    (gradient.cutGradient .samples rows).cutGradient .properties columns =
      (gradient.cutGradient .properties columns).cutGradient .samples rows := by
  have own := hgradient.labelled
  have hvalues := own.axes.picked_comm own.values
    (fun i (hmem : i ∈ gradient.keptRows rows) => lt_of_mem_positionsWhere hmem) hcolumns
  simp only [cutGradient, Values.shape_picked, List.length_set, hvalues]
  rfl

/-- Along one axis, the second cut counts among the positions of the first. -/
theorem cut_cut {axis : Axis} (hblock : block.Valid)
    (hfirst : first.Sublist (List.range (axis.labels block).length))
    (hcount : axis = .samples → first.length ≤ 0x80000000)
    (hsecond : ∀ j ∈ second, j < first.length) :
    (block.cut axis first).cut axis second = block.cut axis (pick second first) := by
  have own := hblock.labelled
  have hrange : ∀ i ∈ first, i < (axis.labels block).length :=
    fun i hmem => List.mem_range.mp (hfirst.subset hmem)
  cases axis with
  | samples =>
    have hgradients : block.gradients.map (fun gradient =>
        (gradient.cutGradient .samples first).cutGradient .samples second) = _ :=
      Gradients.map_congr fun item hmem => cutGradient_samples_twice (hblock.gradient hmem).2
        (List.nodup_range.sublist hfirst) (hcount rfl) hsecond
    have hsamples : (block.samples.picked first).picked second = _ := Labels.picked_picked hrange
    simp only [cut, Gradients.map_map, hgradients, hsamples,
      own.axes.picked_first_picked own.values hrange hsecond]
  | properties =>
    have hgradients : block.gradients.map (fun gradient =>
        (gradient.cutGradient .properties first).cutGradient .properties second) = _ :=
      Gradients.map_congr fun item hmem => by
        obtain ⟨hfits, hgradient⟩ := hblock.gradient hmem
        exact cutGradient_properties_twice hgradient (hfits.properties ▸ hrange) hsecond
    have hproperties : (block.properties.picked first).picked second = _ :=
      Labels.picked_picked hrange
    simp only [cut, Gradients.map_map, hgradients, hproperties, Values.shape_picked,
      List.length_set,
      own.axes.picked_last_picked own.values hrange hsecond]

theorem cut_comm (hblock : block.Valid) (hrows : ∀ i ∈ rows, i < block.samples.length)
    (hcolumns : ∀ i ∈ columns, i < block.properties.length) :
    (block.cut .samples rows).cut .properties columns =
      (block.cut .properties columns).cut .samples rows := by
  have own := hblock.labelled
  have hgradients : block.gradients.map (fun gradient =>
      (gradient.cutGradient .samples rows).cutGradient .properties columns) =
        block.gradients.map fun gradient =>
          (gradient.cutGradient .properties columns).cutGradient .samples rows :=
    Gradients.map_congr fun item hmem => by
      obtain ⟨hfits, hgradient⟩ := hblock.gradient hmem
      exact cutGradient_comm hgradient (hfits.properties ▸ hcolumns)
  simp only [cut, Gradients.map_map, hgradients, Values.shape_picked, List.length_set,
    own.axes.picked_comm own.values hrows hcolumns]

end

-- ---------------------------------------------------------------------------
-- Positions in cuts
-- ---------------------------------------------------------------------------

section
variable {block : Block} {axis other : Axis} {group group' : Labels}

theorem labels_cut (kept : List Nat) :
    axis.labels (block.cut axis kept) = (axis.labels block).picked kept := by
  cases axis <;> rfl

theorem labels_cut_of_ne (h : other ≠ axis) (kept : List Nat) :
    other.labels (block.cut axis kept) = other.labels block := by
  cases axis with
  | samples =>
    cases other with
    | samples => exact absurd rfl h
    | properties => rfl
  | properties =>
    cases other with
    | samples => rfl
    | properties => exact absurd rfl h

theorem names_labels_cut (kept : List Nat) :
    (other.labels (block.cut axis kept)).names = (other.labels block).names := by
  cases axis <;> cases other <;> rfl

theorem kept_sublist : (axis.kept group block).Sublist (List.range (axis.labels block).length) :=
  positionsWhere_sublist _ _

theorem kept_cut_of_ne (h : other ≠ axis) (kept : List Nat) :
    other.kept group (block.cut axis kept) = other.kept group block := by
  rw [Axis.kept, Axis.kept, labels_cut_of_ne h]

/-- The positions that both groups keep. -/
theorem pick_kept : pick (axis.kept group' (block.cut axis (axis.kept group block)))
      (axis.kept group block) =
    positionsWhere (fun entry =>
      (axis.labels block).keeps group entry && (axis.labels block).keeps group' entry)
        (axis.labels block).entries := by
  rw [← pick_positionsWhere_filter, ← pick_positionsWhere, Axis.kept, labels_cut]
  rfl

theorem length_kept_le : (axis.kept group block).length ≤ (axis.labels block).length := by
  simpa using kept_sublist.length_le

-- ---------------------------------------------------------------------------
-- Two groups
-- ---------------------------------------------------------------------------

variable (hblock : block.Valid) (hcount : block.samples.length ≤ 0x80000000)
include hblock hcount

/-- Cutting twice along one axis leaves what both groups keep. -/
theorem cut_kept_cut : (block.cut axis (axis.kept group block)).cut axis
      (axis.kept group' (block.cut axis (axis.kept group block))) =
    block.cut axis (positionsWhere (fun entry =>
      (axis.labels block).keeps group entry && (axis.labels block).keeps group' entry)
        (axis.labels block).entries) := by
  rw [← pick_kept]
  refine cut_cut hblock kept_sublist ?_ fun j hmem => ?_
  · rintro rfl
    exact Nat.le_trans length_kept_le hcount
  · have hlt := lt_of_mem_positionsWhere hmem
    rw [labels_cut] at hlt
    exact Nat.lt_of_lt_of_eq hlt (Labels.length_picked kept_sublist)

theorem cut_kept_again : (block.cut axis (axis.kept group block)).cut axis
      (axis.kept group (block.cut axis (axis.kept group block))) =
    block.cut axis (axis.kept group block) := by
  rw [cut_kept_cut hblock hcount]
  simp only [Bool.and_self, Axis.kept]

theorem cut_kept_comm : (block.cut axis (axis.kept group block)).cut other
      (other.kept group' (block.cut axis (axis.kept group block))) =
    (block.cut other (other.kept group' block)).cut axis
      (axis.kept group (block.cut other (other.kept group' block))) := by
  by_cases h : other = axis
  · subst h
    rw [cut_kept_cut hblock hcount, cut_kept_cut hblock hcount]
    simp only [Bool.and_comm]
  · rw [kept_cut_of_ne h, kept_cut_of_ne (Ne.symm h)]
    have hrange (axis : Axis) (group : Labels) : ∀ i ∈ axis.kept group block,
        i < (axis.labels block).length := fun i => lt_of_mem_positionsWhere
    cases axis with
    | samples =>
      cases other with
      | samples => exact absurd rfl h
      | properties => exact cut_comm hblock (hrange .samples group) (hrange .properties group')
    | properties =>
      cases other with
      | samples => exact (cut_comm hblock (hrange .samples group') (hrange .properties group)).symm
      | properties => exact absurd rfl h

end

-- ---------------------------------------------------------------------------
-- Splitting
-- ---------------------------------------------------------------------------

theorem split_single {block part : Block} {axis : Axis} {group : Labels} :
    block.split axis [group] = .ok [part] ↔ block.part axis group = .ok part := by
  rw [split, mapM_ok, List.forall₂_cons, and_iff_left .nil]

theorem length_samples_cut_le {block : Block} {axis : Axis} {kept : List Nat}
    (hkept : kept.Sublist (List.range (axis.labels block).length)) :
    (block.cut axis kept).samples.length ≤ block.samples.length := by
  cases axis with
  | samples =>
    have hlength : (block.cut .samples kept).samples.length = kept.length :=
      Labels.length_picked hkept
    have hle := hkept.length_le
    rwa [List.length_range, ← hlength] at hle
  | properties => exact Nat.le_refl _

theorem splits_commute {block : Block} {axis other : Axis} {group group' : Labels}
    (hblock : block.Valid) (hcount : block.samples.length ≤ 0x80000000)
    (hgroup : Labels.ValidNames group.names) (hnames : group.names ⊆ (axis.labels block).names)
    (hgroup' : Labels.ValidNames group'.names)
    (hnames' : group'.names ⊆ (other.labels block).names) :
    ∃ part part' both, block.split axis [group] = .ok [part] ∧
      block.split other [group'] = .ok [part'] ∧ part.split other [group'] = .ok [both] ∧
      part'.split axis [group] = .ok [both] ∧ part.split axis [group] = .ok [part] := by
  have hpart := part_eq hblock hgroup hnames hcount
  have hpart' := part_eq hblock hgroup' hnames' hcount
  -- A part has the names of its block and no more samples, so it can be split again.
  have hagain {axis other : Axis} {group group' : Labels}
      (hpart : block.part axis group = .ok (block.cut axis (axis.kept group block)))
      (hgroup' : Labels.ValidNames group'.names)
      (hnames' : group'.names ⊆ (other.labels block).names) :=
    part_eq (part_valid hblock hpart) hgroup' (names_labels_cut _ ▸ hnames')
      (Nat.le_trans (length_samples_cut_le kept_sublist) hcount)
  simp only [split_single]
  refine ⟨_, _, _, hpart, hpart', hagain hpart hgroup' hnames', ?_, ?_⟩
  · rw [cut_kept_comm hblock hcount]
    exact hagain hpart' hgroup hnames
  · refine (hagain hpart hgroup hnames).trans (congrArg _ ?_)
    exact cut_kept_again hblock hcount

/-- Two properties of three atoms, and of four of their displacements. -/
def perAtomRows : Block :=
  let atoms : Labels := ⟨["system", "atom"], [[1, 0], [0, 0], [1, 1]]⟩
  let moved : Labels := ⟨["sample", "atom"], [[2, 0], [0, 1], [1, 0], [2, 1]]⟩
  let properties : Labels := ⟨["n", "l"], [[4, 0], [2, 1]]⟩
  let rows : List Double := [.one, .zero, .one, .minusOne, .zero, .minusOne]
  let gradient : Block := ⟨.float64 ⟨[4, 2], rows ++ [.one, .invalid]⟩, moved, [], properties, .nil⟩
  ⟨.float64 ⟨[3, 2], rows⟩, atoms, [], properties, .cons "positions" gradient .nil⟩

theorem splits_commute_perAtomRows :
    let systems : Labels := ⟨["system"], [[1]]⟩
    let degrees : Labels := ⟨["l"], [[1], [3]]⟩
    perAtomRows.Valid ∧ perAtomRows.samples.length ≤ 0x80000000 ∧
      Labels.ValidNames systems.names ∧ systems.names ⊆ perAtomRows.samples.names ∧
      Labels.ValidNames degrees.names ∧ degrees.names ⊆ perAtomRows.properties.names ∧
      ∃ part part' both, perAtomRows.split .samples [systems] = .ok [part] ∧
        perAtomRows.split .properties [degrees] = .ok [part'] ∧
        part.split .properties [degrees] = .ok [both] ∧
        part'.split .samples [systems] = .ok [both] ∧
        part.split .samples [systems] = .ok [part] := by
  have hvalid : perAtomRows.Valid := by
    have hmade : (Archive.BlockRecord.ofBlock perAtomRows).block = .ok perAtomRows := rfl
    exact Archive.block_valid hmade
  have hcount : perAtomRows.samples.length ≤ 0x80000000 := by decide
  have hsystems : Labels.ValidNames ["system"] := ⟨by decide, by decide, by decide⟩
  have hdegrees : Labels.ValidNames ["l"] := ⟨by decide, by decide, by decide⟩
  have hnames : ["system"] ⊆ perAtomRows.samples.names := by decide
  have hnames' : ["l"] ⊆ perAtomRows.properties.names := by decide
  refine ⟨hvalid, hcount, hsystems, hnames, hdegrees, hnames', ?_⟩
  exact splits_commute hvalid hcount hsystems hnames hdegrees hnames'

end Block

end BlockTensor
