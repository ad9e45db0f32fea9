import BlockTensor.Proofs.Built
import BlockTensor.Proofs.Split.Lines

/-!
# Splitting by unique metadata

The entries of an axis fall into classes by their projections onto some columns.
Unique metadata list the classes, and a group of one of them keeps the entries
of that class. So splitting a tensor by each of its unique metadata takes it
apart: every line of every block, and every row of its gradients along the
samples, is in exactly one part, and no part is empty.
-/

namespace BlockTensor

theorem flatMap_of_forall₂ {α β γ : Type} {R : α → β → Prop} {f : β → List γ} {g : α → List γ}
    {items : List α} {results : List β} (h : List.Forall₂ R items results)
    (hfg : ∀ a b, R a b → f b = g a) : results.flatMap f = items.flatMap g := by
  induction h with
  | nil => rfl
  | cons hab _ ih => rw [List.flatMap_cons, List.flatMap_cons, hfg _ _ hab, ih]

def Labels.singletons (labels : Labels) : List Labels :=
  labels.entries.map fun entry => ⟨labels.names, [entry]⟩

theorem Labels.keeps_singleton {labels : Labels} {names : List String} {key entry : Entry} :
    labels.keeps ⟨names, [key]⟩ entry = decide (labels.projection names entry = key) := by
  rw [Bool.eq_iff_iff, keeps, contains_iff, List.mem_singleton, decide_eq_true_eq]

-- ---------------------------------------------------------------------------
-- Blocks
-- ---------------------------------------------------------------------------

/-- The parts of a block share its lines among them and, along the samples, the
rows of each of its gradients. -/
structure Block.Partition (axis : Axis) (block : Block) (parts : List Block) : Prop where
  parameters : ∀ part ∈ parts, part.gradients.parameters = block.gradients.parameters
  lines : (parts.flatMap axis.lines).Perm (axis.lines block)
  gradientRows : axis = .samples → ∀ parameter,
    (parts.flatMap fun part => part.gradientRows parameter).Perm (block.gradientRows parameter)

namespace Block

section
variable {block part : Block} {axis : Axis} {group : Labels}

theorem parameters_part (h : block.part axis group = .ok part) :
    part.gradients.parameters = block.gradients.parameters := by
  obtain ⟨_, _, _, items, hpart, -, -, hitems⟩ := part_assembles h
  obtain ⟨-, -, rfl⟩ := assemble_ok.mp hpart
  exact Gradients.parameters_ofList (hitems.imp fun _ _ hitem => hitem.1)

theorem map_fst_lines (h : block.Valid) :
    (axis.lines block).map Prod.fst = (axis.labels block).entries :=
  List.map_fst_zip (Nat.le_of_eq (Axis.length_slices axis h.labelled.axes))

/-- The samples that the rows of a gradient refer to are samples of the block. -/
theorem sample_of_mem_gradientRows (hblock : block.Valid) {parameter : String} {row : GradientRow}
    (hmem : row ∈ block.gradientRows parameter) :
    ∃ entry ∈ block.samples.entries, row.sample = some entry := by
  unfold gradientRows at hmem
  split at hmem
  · cases hmem
  next gradient hfind =>
    obtain ⟨line, hline, rfl⟩ := List.mem_map.mp hmem
    obtain ⟨hfits, -⟩ := hblock.gradient (Gradients.mem_of_find? hfind)
    have hlt := sample_lt (hfits.samples line.1 (List.of_mem_zip hline).1)
    exact ⟨_, List.getElem_mem hlt, List.getElem?_eq_getElem hlt⟩

end

theorem partition_of_parts {block : Block} {axis : Axis} {names : List String} {keys : List Entry}
    {parts : List Block} (hblock : block.Valid) (hnames : Labels.ValidNames names)
    (hsubset : names ⊆ (axis.labels block).names) (hkeys : keys.Nodup)
    (hcover : ∀ entry ∈ (axis.labels block).entries,
      (axis.labels block).projection names entry ∈ keys)
    (hparts : List.Forall₂ (fun key part => block.part axis ⟨names, [key]⟩ = .ok part) keys parts) :
    block.Partition axis parts where
  parameters part hmem := by
    obtain ⟨_, -, hpart⟩ := exists_of_forall₂ hparts hmem
    exact parameters_part hpart
  lines := by
    rw [flatMap_of_forall₂ hparts fun _ _ => lines_part hblock hnames hsubset]
    simp only [Labels.keeps_singleton]
    refine perm_flatMap_filter _ hkeys fun line hmem => hcover line.1 ?_
    rw [← map_fst_lines hblock]
    exact List.mem_map_of_mem hmem
  gradientRows haxis parameter := by
    subst haxis
    -- A row belongs to the class of the sample that it refers to.
    have hrows : ((keys.map some).flatMap fun key => (block.gradientRows parameter).filter
        fun row => row.sample.map (block.samples.projection names) = key).Perm _ :=
      perm_flatMap_filter _ (hkeys.map fun _ _ => Option.some.inj) fun row hmem => by
        obtain ⟨entry, hentry, hsample⟩ := sample_of_mem_gradientRows hblock hmem
        rw [hsample]
        exact List.mem_map_of_mem (hcover entry hentry)
    rw [List.flatMap_map] at hrows
    rw [flatMap_of_forall₂ hparts fun _ _ hpart =>
      gradientRows_part hblock hnames hsubset hpart parameter]
    refine .trans (.of_eq (List.flatMap_congr fun key _ => List.filter_congr fun row _ => ?_)) hrows
    cases row.sample <;> simp [Labels.keeps_singleton]

end Block

-- ---------------------------------------------------------------------------
-- Tensors
-- ---------------------------------------------------------------------------

/-- The parts of a tensor have its keys and share each of its blocks among them,
and none of them is empty along the axis. -/
structure Tensor.Partition (axis : Axis) (tensor : Tensor) (parts : List Tensor) : Prop where
  keys : ∀ part ∈ parts, part.keys = tensor.keys ∧ part.blocks.length = tensor.blocks.length
  blocks : List.Forall₂ (Block.Partition axis) tensor.blocks
    (columnsOf tensor.blocks.length (parts.map fun part => part.blocks))
  nonempty : ∀ part ∈ parts, ∃ block ∈ part.blocks, (axis.labels block).entries ≠ []

namespace Tensor

theorem exists_part_of_names {tensor : Tensor} {axis : Axis} {group : Labels}
    (htensor : tensor.Valid) (hgroup : Labels.ValidNames group.names)
    (hnames : ∀ block ∈ tensor.blocks, group.names ⊆ (axis.labels block).names)
    (hcount : ∀ block ∈ tensor.blocks, block.samples.length ≤ 0x80000000) :
    ∃ part, tensor.part axis group = .ok part := by
  have hparts : ∀ block ∈ tensor.blocks, ∃ part, block.part axis group = .ok part :=
    fun block hmem => ⟨_, Block.part_eq (htensor.blocks block hmem) hgroup (hnames block hmem)
      (hcount block hmem)⟩
  obtain ⟨blocks, hblocks⟩ := exists_forall₂ hparts
  exact ⟨_, (part_ok htensor.count htensor.agree).mpr ⟨blocks, hblocks, rfl⟩⟩

section
variable {tensor : Tensor} {axis : Axis} {names : List String} (htensor : tensor.Valid)
  (hnames : Labels.ValidNames names)
  (hsubset : ∀ block ∈ tensor.blocks, names ⊆ (axis.labels block).names)
include htensor hnames hsubset

theorem exists_part (hcount : ∀ block ∈ tensor.blocks, block.samples.length ≤ 0x80000000)
    (key : Entry) : ∃ part, tensor.part axis ⟨names, [key]⟩ = .ok part :=
  exists_part_of_names htensor hnames hsubset hcount

/-- The parts of distinct keys are a partition if every projection is one of them
and none is spare. -/
theorem partition_of_parts {keys : List Entry} {parts : List Tensor} (hkeys : keys.Nodup)
    (hcover : ∀ entry, entry ∈ keys ↔ entry ∈ axis.projections names tensor.blocks)
    (hparts : List.Forall₂ (fun key part => tensor.part axis ⟨names, [key]⟩ = .ok part) keys
      parts) : tensor.Partition axis parts := by
  have hrows := hparts.imp fun _ _ hpart => (part_ok htensor.count htensor.agree).mp hpart
  refine ⟨fun part hmem => ?_, ?_, fun part hmem => ?_⟩
  · obtain ⟨key, -, blocks, hblocks, rfl⟩ := exists_of_forall₂ hrows hmem
    exact ⟨rfl, hblocks.length_eq.symm⟩
  · have hcolumns := forall₂_columnsOf (List.forall₂_map_right_iff.mpr
      (hrows.imp fun _ part hrow => show List.Forall₂ _ tensor.blocks part.blocks by
        obtain ⟨blocks, hblocks, rfl⟩ := hrow
        exact hblocks))
    refine ((List.forall₂_and_left _ _).mpr ⟨fun block hblock => hblock, hcolumns⟩).imp ?_
    rintro block column ⟨hblock, hcolumn⟩
    refine Block.partition_of_parts (htensor.blocks block hblock) hnames (hsubset block hblock)
      hkeys (fun entry hentry => (hcover _).mpr ?_) hcolumn
    exact List.mem_flatMap.mpr ⟨block, hblock, List.mem_map_of_mem hentry⟩
  · obtain ⟨key, hkey, blocks, hblocks, rfl⟩ := exists_of_forall₂ hrows hmem
    obtain ⟨block, hblock, hprojected⟩ := List.mem_flatMap.mp ((hcover key).mp hkey)
    obtain ⟨entry, hentry, rfl⟩ := List.mem_map.mp hprojected
    obtain ⟨part, hpart, hmade⟩ := exists_of_forall₂ hblocks.flip hblock
    refine ⟨part, hpart, List.ne_nil_of_mem (a := entry) ?_⟩
    -- The entry that the key was projected from is in the part of its block.
    rw [← Block.map_fst_lines (htensor.blocks block hblock)] at hentry
    obtain ⟨line, hline, rfl⟩ := List.mem_map.mp hentry
    have hkept : line ∈ axis.lines part := by
      rw [Block.lines_part (htensor.blocks block hblock) hnames (hsubset block hblock) hmade]
      exact List.mem_filter.mpr ⟨hline, by rw [Labels.keeps_singleton, decide_eq_true rfl]⟩
    exact (List.of_mem_zip hkept).1

end

theorem split_unique {tensor : Tensor} {axis : Axis} {names : List String} (htensor : tensor.Valid)
    (hblocks : tensor.blocks ≠ [])
    (hcount : ∀ block ∈ tensor.blocks, block.samples.length ≤ 0x80000000)
    (hne : names ≠ []) (hdistinct : names.Nodup)
    (hnames : ∀ block ∈ tensor.blocks, names ⊆ (axis.labels block).names) :
    ∃ unique parts, tensor.uniqueMetadata axis names none = .ok unique ∧
      tensor.split axis unique.singletons = .ok parts ∧ tensor.Partition axis parts := by
  obtain ⟨block, hmem⟩ := List.exists_mem_of_ne_nil _ hblocks
  have hvalid := (Axis.labels_valid axis (htensor.blocks block hmem)).validNames hne hdistinct
    (hnames block hmem)
  have hunique := Axis.uniqueRows_ok hvalid hnames
  obtain ⟨parts, hparts⟩ := exists_forall₂ fun key
    (_ : key ∈ (Rows.unique ⟨names, axis.projections names tensor.blocks⟩).entries) =>
      exists_part htensor hvalid hnames hcount key
  refine ⟨_, parts, hunique, split_ok.mpr (List.forall₂_map_left_iff.mpr hparts), ?_⟩
  exact partition_of_parts htensor hvalid hnames
    (Rows.unique_valid (Axis.projections_valid hvalid)).distinct (fun _ => Rows.mem_unique) hparts

/-- Three atoms of two systems, out of order, and gradient rows for all of them. -/
def perAtomTensor : Tensor :=
  let atoms : Labels := ⟨["system", "atom"], [[1, 0], [0, 0], [1, 1]]⟩
  let moved : Labels := ⟨["sample", "atom"], [[2, 0], [0, 1], [1, 0], [2, 1]]⟩
  let gradient := column moved [.one, .zero, .one, .invalid] .nil
  ⟨.single, [column atoms [.one, .zero, .invalid] (.cons "positions" gradient .nil)]⟩

theorem split_unique_perAtom : perAtomTensor.Valid ∧
    perAtomTensor.uniqueMetadata .samples ["system"] none = .ok ⟨["system"], [[0], [1]]⟩ ∧
    ∃ parts, perAtomTensor.split .samples [⟨["system"], [[0]]⟩, ⟨["system"], [[1]]⟩] = .ok parts ∧
      perAtomTensor.Partition .samples parts := by
  have hvalid : perAtomTensor.Valid := by
    have hmade : (Archive.TensorRecord.ofTensor perAtomTensor).tensor = .ok perAtomTensor := rfl
    exact Archive.tensor_valid hmade
  have hsystems : perAtomTensor.uniqueMetadata .samples ["system"] none =
    .ok ⟨["system"], [[0], [1]]⟩ := rfl
  have hsplit : ∃ unique parts,
      perAtomTensor.uniqueMetadata .samples ["system"] none = .ok unique ∧ _ ∧ _ :=
    split_unique hvalid (by simp [perAtomTensor]) (by simp [perAtomTensor, column, Rows.length])
      (by simp) (by simp) (by simp [perAtomTensor, column, Axis.labels])
  obtain ⟨unique, parts, hunique, hsplit, hparts⟩ := hsplit
  rw [hsystems] at hunique
  cases hunique
  exact ⟨hvalid, hsystems, parts, hsplit, hparts⟩

end Tensor

end BlockTensor
