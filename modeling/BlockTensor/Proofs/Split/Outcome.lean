import BlockTensor.Proofs.Split.Kept

/-!
# How a split ends

Names that are not on the axis are the only thing that makes a split fail
(`Block.split_eq`, `Tensor.split_foreign`). After they have been checked nothing does:
distinct entries stay distinct, the array has a line for every entry, and the parts of
blocks that agree agree. Along the samples a map takes every old sample to its new
number; it has a place for each sample that a gradient refers to
(`Block.exists_renumbersBy`).
-/

namespace BlockTensor

-- ---------------------------------------------------------------------------
-- Names
-- ---------------------------------------------------------------------------

def foreignName? (names : List String) (groups : List Labels) : Option String :=
  (groups.flatMap fun group => group.names).find? fun name => !names.contains name

theorem foreignName?_eq_none {names : List String} {groups : List Labels} :
    foreignName? names groups = none ↔ ∀ group ∈ groups, group.names ⊆ names := by
  rw [foreignName?, find?_foreign]
  constructor
  · intro h group hmem name hname
    exact h (List.mem_flatMap.mpr ⟨group, hmem, hname⟩)
  · intro h name hname
    obtain ⟨group, hmem, hname⟩ := List.mem_flatMap.mp hname
    exact h group hmem hname

theorem foreignName?_cons (names : List String) (group : Labels) (rest : List Labels) :
    foreignName? names (group :: rest) =
      (group.names.find? fun name => !names.contains name).or (foreignName? names rest) := by
  rw [foreignName?, List.flatMap_cons, List.find?_append]
  rfl

-- ---------------------------------------------------------------------------
-- The map from samples to their new numbers
-- ---------------------------------------------------------------------------

/-- A label value as an index: its sign is extended to 64 bits. -/
def LabelValue.index (value : LabelValue) : Nat := value.toInt64.toUInt64.toNat

/-- Notes the new number of a sample. Nothing if the map has no place for it. -/
def noteNumber (map : List (Option LabelValue)) (item : Nat × LabelValue) :
    Option (List (Option LabelValue)) :=
  if item.1 < map.length then some (map.set item.1 (some item.2)) else none

def sampleMap (count : Nat) (numbering : List (Nat × LabelValue)) :
    Option (List (Option LabelValue)) :=
  numbering.foldlM noteNumber (List.replicate count none)

theorem index_of_isSampleIndex {count : Nat} {value : LabelValue}
    (h : Block.isSampleIndex count value = true) : value.index = value.toInt.toNat := by
  rw [Block.isSampleIndex_iff] at h
  have hle : 0 ≤ value.toInt64 := by
    rw [Int64.le_iff_toInt_le, Int32.toInt_toInt64]
    exact h.1
  rw [LabelValue.index, Int64.toNat_toUInt64_of_le hle, Int64.toNatClampNeg,
    Int32.toInt_toInt64]

/-- Every number finds its place, and then the map and the list give the same. -/
theorem exists_foldlM_noteNumber {numbering : List (Nat × LabelValue)}
    {map : List (Option LabelValue)} (hdistinct : (numbering.map Prod.fst).Nodup)
    (hrange : ∀ item ∈ numbering, item.1 < map.length) :
    ∃ filled, numbering.foldlM noteNumber map = some filled ∧
      ∀ i, filled[i]? = map[i]?.map fun before => (numbering.lookup i).or before := by
  induction numbering generalizing map with
  | nil => exact ⟨map, rfl, fun i => by simp⟩
  | cons item rest ih =>
    obtain ⟨hnew, hdistinct⟩ := List.nodup_cons.mp hdistinct
    obtain ⟨hitem, hrange⟩ := List.forall_mem_cons.mp hrange
    have hrest : ∀ other ∈ rest, other.1 < (map.set item.1 (some item.2)).length := by
      simpa using hrange
    obtain ⟨filled, hfilled, hget⟩ := ih hdistinct hrest
    refine ⟨filled, ?_, fun i => ?_⟩
    · rw [List.foldlM_cons, noteNumber, if_pos hitem]
      exact hfilled
    · obtain ⟨old, new⟩ := item
      rw [hget, List.lookup_cons]
      by_cases h : i = old
      · subst h
        have hnone : rest.lookup i = none := List.lookup_eq_none_iff.mpr fun pair hmem => by
          have hne : i ≠ pair.1 := by
            intro h
            exact hnew (List.mem_map.mpr ⟨pair, hmem, h.symm⟩)
          simpa using hne
        simp [hnone, hitem]
      · have hne : (i == old) = false := beq_false_of_ne h
        rw [List.getElem?_set_ne (Ne.symm h)]
        simp [hne]

namespace Block

/-- The map for some kept samples can be filled in, and every gradient can be renumbered
by it: it has a place for each sample that an entry refers to, and what is noted there is
what the entry gets. -/
structure RenumbersBy (kept : List Nat) (numbering : List (Nat × LabelValue))
    (map : List (Option LabelValue)) (block : Block) : Prop where
  numbers : renumbering kept = .ok numbering
  filled : sampleMap block.samples.length numbering = some map
  reads : ∀ item ∈ block.gradients.toList, ∀ entry ∈ item.2.samples.entries,
    ∃ sample rest new, entry = sample :: rest ∧ map[sample.index]? = some new ∧
      renumber numbering entry = new.map (· :: rest)

theorem exists_renumbersBy {block : Block} {kept : List Nat} (hblock : block.Valid)
    (hcount : block.samples.length ≤ 0x80000000)
    (hkept : kept.Sublist (List.range block.samples.length)) :
    ∃ numbering map, block.RenumbersBy kept numbering map := by
  have hlength : kept.length ≤ block.samples.length := by simpa using hkept.length_le
  have hfirst : (numbered kept).map Prod.fst = kept := List.map_fst_zip (by simp)
  have hdistinct : ((numbered kept).map Prod.fst).Nodup := by
    rw [hfirst]
    exact List.nodup_range.sublist hkept
  have hrange : ∀ item ∈ numbered kept,
      item.1 < (List.replicate block.samples.length (none : Option LabelValue)).length := by
    intro item hmem
    rw [List.length_replicate]
    exact List.mem_range.mp (hkept.subset (List.of_mem_zip hmem).1)
  obtain ⟨map, hfilled, hget⟩ := exists_foldlM_noteNumber hdistinct hrange
  refine ⟨numbered kept, map, renumbering_ok.mpr ⟨Nat.le_trans hlength hcount, rfl⟩, hfilled, ?_⟩
  intro item hitem entry hentry
  obtain ⟨hfits, hgradient⟩ := hblock.gradient hitem
  have hsample := hfits.samples entry hentry
  cases entry with
  | nil => exact absurd rfl (hgradient.labelled.samples.ne_nil hentry)
  | cons sample rest =>
    have hindex : sample.index = sample.toInt.toNat := index_of_isSampleIndex hsample
    have hlt : sample.toInt.toNat < block.samples.length := sample_lt hsample
    refine ⟨sample, rest, (numbered kept).lookup sample.toInt.toNat, rfl, ?_, rfl⟩
    rw [hindex, hget, List.getElem?_replicate_of_lt hlt, Option.map_some, Option.or_none]

end Block

-- ---------------------------------------------------------------------------
-- Blocks
-- ---------------------------------------------------------------------------

structure Block.SplitEnds (axis : Axis) (groups : List Labels) (block : Block) : Prop where
  succeeds : (∃ parts, block.split axis groups = .ok parts) ↔
    ∀ group ∈ groups, group.names ⊆ (axis.labels block).names
  parts : ∀ parts, block.split axis groups = .ok parts →
    parts.length = groups.length ∧ ∀ part ∈ parts, part.Valid
  fails : ∀ error, block.split axis groups = .error error →
    ∃ name, foreignName? (axis.labels block).names groups = some name ∧
      error = .invalidArgument (.foreignGroupName name axis (axis.labels block).names)
  renumbers : axis = .samples → ∀ group ∈ groups, ∀ kept,
    keptPositions axis (axis.labels block) group = .ok kept →
      ∃ numbering map, block.RenumbersBy kept numbering map

namespace Block

section
variable {block : Block} {axis : Axis} {groups : List Labels} (hblock : block.Valid)
  (hcount : block.samples.length ≤ 0x80000000)
  (hgroups : ∀ group ∈ groups, Labels.ValidNames group.names)
include hblock hcount hgroups

theorem split_eq : block.split axis groups =
    match foreignName? (axis.labels block).names groups with
    | some name => .error (.invalidArgument (.foreignGroupName name axis (axis.labels block).names))
    | none => .ok (groups.map fun group => block.cut axis (axis.kept group block)) := by
  induction groups with
  | nil => rfl
  | cons group rest ih =>
    obtain ⟨hgroup, hrest⟩ := List.forall_mem_cons.mp hgroups
    have ih : rest.mapM (block.part axis) = _ := ih hrest
    rw [split, List.mapM_cons, foreignName?_cons]
    cases h : group.names.find? fun name => !(axis.labels block).names.contains name with
    | some name =>
      rw [part, keptPositions, h]
      rfl
    | none =>
      rw [part_eq hblock hgroup (find?_foreign.mp h) hcount, ih, Option.none_or]
      cases foreignName? (axis.labels block).names rest <;> rfl

theorem splitEnds : block.SplitEnds axis groups where
  succeeds := by
    rw [← foreignName?_eq_none, split_eq hblock hcount hgroups]
    cases foreignName? (axis.labels block).names groups <;> simp
  parts parts h := by
    have hparts := mapM_ok.mp h
    refine ⟨hparts.length_eq.symm, fun part hmem => ?_⟩
    obtain ⟨group, -, hpart⟩ := exists_of_forall₂ hparts hmem
    exact part_valid hblock hpart
  fails error h := by
    rw [split_eq hblock hcount hgroups] at h
    cases hname : foreignName? (axis.labels block).names groups with
    | none =>
      rw [hname] at h
      cases h
    | some name =>
      rw [hname] at h
      cases h
      exact ⟨name, rfl, rfl⟩
  renumbers haxis group _ kept hkept := by
    subst haxis
    exact exists_renumbersBy hblock hcount (keptPositions_sublist hkept)

end

end Block

-- ---------------------------------------------------------------------------
-- Tensors
-- ---------------------------------------------------------------------------

structure Tensor.SplitEnds (axis : Axis) (groups : List Labels) (tensor : Tensor) : Prop where
  succeeds : (∃ parts, tensor.split axis groups = .ok parts) ↔
    ∀ block ∈ tensor.blocks, ∀ group ∈ groups, group.names ⊆ (axis.labels block).names
  parts : ∀ parts, tensor.split axis groups = .ok parts →
    parts.length = groups.length ∧ ∀ part ∈ parts, part.keys = tensor.keys ∧ part.Valid
  fails : ∀ error, tensor.split axis groups = .error error → ∃ block ∈ tensor.blocks,
    ∃ name, foreignName? (axis.labels block).names groups = some name ∧
      error = .invalidArgument (.foreignGroupName name axis (axis.labels block).names)

namespace Tensor

section
variable {tensor : Tensor} {axis : Axis} {groups : List Labels} (htensor : tensor.Valid)
  (hcounts : ∀ block ∈ tensor.blocks, block.samples.length ≤ 0x80000000)
  (hgroups : ∀ group ∈ groups, Labels.ValidNames group.names)
include htensor hcounts hgroups

theorem exists_split_of_names
    (hnames : ∀ block ∈ tensor.blocks, ∀ group ∈ groups, group.names ⊆ (axis.labels block).names) :
    ∃ parts, tensor.split axis groups = .ok parts := by
  refine exists_split fun group hgroup => ?_
  exact exists_part_of_names htensor (hgroups group hgroup)
    (fun block hblock => hnames block hblock group hgroup) hcounts

/-- The first block is the first to be asked, and the names of the others are its names. -/
theorem split_foreign {block : Block} (hblock : block ∈ tensor.blocks) {name : String}
    (hname : foreignName? (axis.labels block).names groups = some name) :
    tensor.split axis groups =
      .error (.invalidArgument (.foreignGroupName name axis (axis.labels block).names)) := by
  cases hblocks : tensor.blocks with
  | nil =>
    rw [hblocks] at hblock
    cases hblock
  | cons first rest =>
    have hfirst : first ∈ tensor.blocks := by simp [hblocks]
    rw [(htensor.agree block hblock first hfirst).names_labels] at hname ⊢
    rw [split, hblocks, List.mapM_cons,
      Block.split_eq (htensor.blocks first hfirst) (hcounts first hfirst) hgroups, hname]
    rfl

theorem splitEnds : tensor.SplitEnds axis groups where
  succeeds := by
    refine ⟨?_, exists_split_of_names htensor hcounts hgroups⟩
    rintro ⟨parts, hparts⟩ block hblock
    refine foreignName?_eq_none.mp (Option.eq_none_iff_forall_ne_some.mpr fun name hname => ?_)
    rw [split_foreign htensor hcounts hgroups hblock hname] at hparts
    cases hparts
  parts parts h := by
    have hparts := split_ok.mp h
    refine ⟨hparts.length_eq.symm, fun part hmem => ?_⟩
    obtain ⟨group, -, hpart⟩ := exists_of_forall₂ hparts hmem
    have hvalid := part_valid htensor hpart
    obtain ⟨blocks, -, rfl⟩ := (part_ok htensor.count htensor.agree).mp hpart
    exact ⟨rfl, hvalid⟩
  fails error h := by
    by_cases hnames : ∀ block ∈ tensor.blocks,
        foreignName? (axis.labels block).names groups = none
    · obtain ⟨parts, hparts⟩ := exists_split_of_names htensor hcounts hgroups
        fun block hblock => foreignName?_eq_none.mp (hnames block hblock)
      rw [hparts] at h
      cases h
    · obtain ⟨block, hblock, hforeign⟩ := not_forall₂.mp hnames
      obtain ⟨name, hname⟩ := Option.ne_none_iff_exists'.mp hforeign
      rw [split_foreign htensor hcounts hgroups hblock hname] at h
      cases h
      exact ⟨block, hblock, name, hname, rfl⟩

end

end Tensor

theorem split_ends {axis : Axis} {groups : List Labels}
    (hgroups : ∀ group ∈ groups, Labels.ValidNames group.names) :
    (∀ block : Block, block.Valid → block.samples.length ≤ 0x80000000 →
      block.SplitEnds axis groups) ∧
    (∀ tensor : Tensor, tensor.Valid →
      (∀ block ∈ tensor.blocks, block.samples.length ≤ 0x80000000) →
        tensor.SplitEnds axis groups) :=
  ⟨fun _ hblock hcount => Block.splitEnds hblock hcount hgroups,
    fun _ htensor hcounts => Tensor.splitEnds htensor hcounts hgroups⟩

/-- The samples have no species, so the second group makes the split fail. -/
theorem split_ends_perAtom :
    let groups : List Labels := [⟨["system"], [[1]]⟩, ⟨["atom", "species"], [[0, 6]]⟩]
    (∀ group ∈ groups, Labels.ValidNames group.names) ∧
      Block.perAtomRows.Valid ∧ Block.perAtomRows.samples.length ≤ 0x80000000 ∧
      Block.perAtomRows.SplitEnds .samples groups ∧
      Tensor.perAtomTensor.Valid ∧
      (∀ block ∈ Tensor.perAtomTensor.blocks, block.samples.length ≤ 0x80000000) ∧
      Tensor.perAtomTensor.SplitEnds .samples groups := by
  intro groups
  have hgroups : ∀ group ∈ groups, Labels.ValidNames group.names := by
    have hsystem : Labels.ValidNames ["system"] := ⟨by decide, by decide, by decide⟩
    have hspecies : Labels.ValidNames ["atom", "species"] := ⟨by decide, by decide, by decide⟩
    simp [groups, hsystem, hspecies]
  have hcount : Block.perAtomRows.samples.length ≤ 0x80000000 := by decide
  have htensor : Tensor.perAtomTensor.Valid := Archive.valid_of_record rfl
  have hcounts : ∀ block ∈ Tensor.perAtomTensor.blocks, block.samples.length ≤ 0x80000000 := by
    simp [Tensor.perAtomTensor, column, Rows.length]
  have hends : (∀ block : Block, _ → _ → block.SplitEnds .samples groups) ∧ _ :=
    split_ends hgroups
  obtain ⟨hblocks, htensors⟩ := hends
  exact ⟨hgroups, Block.perAtomRows_valid, hcount, hblocks _ Block.perAtomRows_valid hcount,
    htensor, hcounts, htensors _ htensor hcounts⟩

end BlockTensor
