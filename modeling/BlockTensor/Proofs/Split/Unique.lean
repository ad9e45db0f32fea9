import BlockTensor.Proofs.Split.Partition

/-!
# Unique metadata of a part

A part keeps the entries whose projections its group contains, so its unique
metadata are those of the whole tensor that the group contains, in ascending
order: `unique_of_split` says that they are the intersection with the group,
whatever the group holds besides.
-/

namespace BlockTensor

/-- Sorting and dropping repeats does not mind that entries are left out. -/
theorem Rows.unique_filter (names : List String) (entries : List Entry) (test : Entry → Bool) :
    Rows.unique ⟨names, entries.filter test⟩ =
      ⟨names, (Rows.unique ⟨names, entries⟩).entries.filter test⟩ := by
  have hright := (Rows.pairwise_unique ⟨names, entries⟩).filter test
  have heq := eq_of_ascending (Rows.pairwise_unique ⟨names, entries.filter test⟩) hright
    fun entry => by simp [mem_unique]
  exact congrArg (fun entries => (⟨⟨names, entries⟩⟩ : Labels)) heq

namespace Axis

variable {axis : Axis} {names : List String} {blocks : List Block}

theorem names_of_uniqueRows {unique : Labels} (h : axis.uniqueRows names blocks = .ok unique) :
    Labels.ValidNames names ∧ ∀ block ∈ blocks, names ⊆ (axis.labels block).names := by
  simp only [uniqueRows, bind_ok, forM_ok, pure_ok] at h
  obtain ⟨_, hhas, projections, -, rows, hrows, -⟩ := h
  obtain ⟨hvalid, hnames, -⟩ := Rows.ofFlat_valid hrows
  exact ⟨hnames ▸ hvalid.names, fun block hmem => checkHasNames_ok.mp (hhas block hmem)⟩

end Axis

section
variable {axis : Axis} {group : Labels} (hgroup : Labels.ValidNames group.names)
include hgroup

theorem Block.labels_part {block part : Block} (hblock : block.Valid)
    (hnames : group.names ⊆ (axis.labels block).names) (h : block.part axis group = .ok part) :
    axis.labels part = ⟨(axis.labels block).names,
      (axis.labels block).entries.filter ((axis.labels block).keeps group)⟩ := by
  have hentries : (axis.labels part).entries =
      (axis.labels block).entries.filter ((axis.labels block).keeps group) := by
    rw [← map_fst_lines (part_valid hblock h), lines_part hblock hgroup hnames h,
      ← map_fst_lines hblock, List.filter_map]
    rfl
  rw [← hentries]
  exact congrArg (fun names => Labels.mk ⟨names, _⟩) (part_agree h).names_labels.symm

/-- The projections that are left in the parts are those that the group contains. -/
theorem Axis.projections_parts {blocks parts : List Block}
    (hblocks : ∀ block ∈ blocks, block.Valid ∧ group.names ⊆ (axis.labels block).names)
    (hparts : List.Forall₂ (fun block part => block.part axis group = .ok part) blocks parts) :
    axis.projections group.names parts =
      (axis.projections group.names blocks).filter group.contains := by
  have hall := (List.forall₂_and_left _ _).mpr ⟨hblocks, hparts⟩
  rw [projections, projections, List.filter_flatMap]
  refine flatMap_of_forall₂ hall ?_
  rintro block part ⟨⟨hblock, hnames⟩, hpart⟩
  rw [Block.labels_part hgroup hblock hnames hpart, List.filter_map]
  rfl

end

theorem Tensor.unique_of_split {tensor : Tensor} {axis : Axis} {group unique : Labels}
    {parts : List Tensor} (htensor : tensor.Valid) (hsplit : tensor.split axis [group] = .ok parts)
    (hunique : tensor.uniqueMetadata axis group.names none = .ok unique) :
    ∃ part kept, parts = [part] ∧ unique.intersection group = .ok kept ∧
      part.uniqueMetadata axis group.names none = .ok kept := by
  obtain ⟨hgroup, hnames⟩ := Axis.names_of_uniqueRows hunique
  cases (Axis.uniqueRows_ok hgroup hnames).symm.trans hunique
  obtain ⟨part, rfl, hpart⟩ : ∃ part, parts = [part] ∧ tensor.part axis group = .ok part := by
    cases split_ok.mp hsplit with
    | cons hpart hrest =>
      cases hrest
      exact ⟨_, rfl, hpart⟩
  obtain ⟨blocks, hblocks, rfl⟩ := (part_ok htensor.count htensor.agree).mp hpart
  refine ⟨_, _, rfl, Labels.intersection_ok.mpr ⟨rfl, rfl⟩, ?_⟩
  have hprojections := Axis.projections_parts hgroup
    (fun block hmem => ⟨htensor.blocks block hmem, hnames block hmem⟩) hblocks
  have hparts : ∀ part ∈ blocks, group.names ⊆ (axis.labels part).names := by
    intro part hmem
    obtain ⟨block, hblock, hpart⟩ := exists_of_forall₂ hblocks hmem
    rw [Block.labels_part hgroup (htensor.blocks block hblock) (hnames block hblock) hpart]
    exact hnames block hblock
  refine (Axis.uniqueRows_ok hgroup hparts).trans ?_
  have hcontains : group.contains = group.entries.contains := funext (Rows.contains_index _)
  rw [hprojections, Rows.unique_filter, hcontains]
  rfl

def pickedSystems : Labels := ⟨["system"], [[7], [1]]⟩

theorem Tensor.unique_of_split_perAtom : perAtomTensor.Valid ∧
    perAtomTensor.uniqueMetadata .samples ["system"] none = .ok ⟨["system"], [[0], [1]]⟩ ∧
    ∃ part, perAtomTensor.split .samples [pickedSystems] = .ok [part] ∧
      Labels.intersection ⟨["system"], [[0], [1]]⟩ pickedSystems = .ok ⟨["system"], [[1]]⟩ ∧
      part.uniqueMetadata .samples ["system"] none = .ok ⟨["system"], [[1]]⟩ := by
  have hvalid : perAtomTensor.Valid := Archive.valid_of_record rfl
  have hunique : perAtomTensor.uniqueMetadata .samples pickedSystems.names none =
    .ok ⟨["system"], [[0], [1]]⟩ := rfl
  have hsplit : perAtomTensor.split .samples [pickedSystems] = .ok _ := rfl
  have hkept : Labels.intersection ⟨["system"], [[0], [1]]⟩ pickedSystems =
    .ok ⟨["system"], [[1]]⟩ := rfl
  obtain ⟨part, kept, hparts, hintersection, hpart⟩ := unique_of_split hvalid hsplit hunique
  cases hkept.symm.trans hintersection
  exact ⟨hvalid, hunique, part, hsplit.trans (congrArg _ hparts), hkept, hpart⟩

end BlockTensor
