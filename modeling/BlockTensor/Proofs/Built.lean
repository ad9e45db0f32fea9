import BlockTensor.Proofs.Archive.Records
import BlockTensor.Proofs.LayerLaws

/-!
# What can be built

`Built` is the closure of nothing under the public operations: whatever any
finite sequence of them gives, each applied to earlier results and to arbitrary
names, values, scalars, layers and bytes. Arrays come from outside; all that is
known of one is that it is valid, which is what an array library promises.

Everything built is valid (`Built.valid`), and every valid block and tensor can
be built, so validity is exactly what the operations keep.
-/

namespace BlockTensor

inductive Object where
  | rows (rows : Rows)
  | labels (labels : Labels)
  | block (block : Block)
  | tensor (tensor : Tensor)

def Object.Valid : Object → Prop
  | .rows r => r.Valid
  | .labels l => l.Valid
  | .block b => b.Valid
  | .tensor t => t.Valid

inductive Built : Object → Prop
  -- rows
  | rowsOfFlat {names : List String} {values : List LabelValue} {rows : Rows} :
      Rows.ofFlat names values = .ok rows → Built (.rows rows)
  | rowsOfLabels {labels : Labels} : Built (.labels labels) → Built (.rows labels.toRows)
  | select {names : List String} {rows projected : Rows} : Built (.rows rows) →
      rows.select names = .ok projected → Built (.rows projected)
  -- labels
  | ofEntries {names : List String} {entries : List Entry} {labels : Labels} :
      Labels.ofEntries names entries = .ok labels → Built (.labels labels)
  | ofFlat {names : List String} {values : List LabelValue} {labels : Labels} :
      Labels.ofFlat names values = .ok labels → Built (.labels labels)
  | empty {names : List String} {labels : Labels} : Labels.empty names = .ok labels →
      Built (.labels labels)
  | single : Built (.labels .single)
  | range {name : String} {n : Nat} {labels : Labels} : Labels.range name n = .ok labels →
      Built (.labels labels)
  | ofRows {rows : Rows} {labels : Labels} : Built (.rows rows) → Labels.ofRows rows = .ok labels →
      Built (.labels labels)
  | unique {rows : Rows} : Built (.rows rows) → Built (.labels rows.unique)
  | sorted {labels : Labels} : Built (.labels labels) → Built (.labels labels.sorted)
  | union {left right labels : Labels} : Built (.labels left) → Built (.labels right) →
      left.union right = .ok labels → Built (.labels labels)
  | intersection {left right labels : Labels} : Built (.labels left) → Built (.labels right) →
      left.intersection right = .ok labels → Built (.labels labels)
  | samples {block : Block} : Built (.block block) → Built (.labels block.samples)
  | component {block : Block} {labels : Labels} : Built (.block block) →
      labels ∈ block.components → Built (.labels labels)
  | properties {block : Block} : Built (.block block) → Built (.labels block.properties)
  | keys {tensor : Tensor} : Built (.tensor tensor) → Built (.labels tensor.keys)
  | uniqueOfBlock {block : Block} {axis : Axis} {names : List String} {parameter : Option String}
      {labels : Labels} : Built (.block block) →
      block.uniqueMetadata axis names parameter = .ok labels → Built (.labels labels)
  | uniqueOfTensor {tensor : Tensor} {axis : Axis} {names : List String}
      {parameter : Option String} {labels : Labels} : Built (.tensor tensor) →
      tensor.uniqueMetadata axis names parameter = .ok labels → Built (.labels labels)
  -- blocks
  | block {values : Values} {samples : Labels} {components : List Labels} {properties : Labels}
      {block : Block} : values.Valid → Built (.labels samples) →
      (∀ component ∈ components, Built (.labels component)) → Built (.labels properties) →
      Block.make values samples components properties = .ok block → Built (.block block)
  | addGradient {block gradient result : Block} {parameter : String} : Built (.block block) →
      Built (.block gradient) → block.addGradient parameter gradient = .ok result →
      Built (.block result)
  | gradient {block : Block} {item : String × Block} : Built (.block block) →
      item ∈ block.gradients.toList → Built (.block item.2)
  | splitBlock {block part : Block} {axis : Axis} {groups : List Labels} {parts : List Block} :
      Built (.block block) → (∀ group ∈ groups, Built (.labels group)) →
      block.split axis groups = .ok parts → part ∈ parts → Built (.block part)
  | blockOf {tensor : Tensor} {block : Block} : Built (.tensor tensor) → block ∈ tensor.blocks →
      Built (.block block)
  -- tensors
  | tensor {keys : Labels} {blocks : List Block} {tensor : Tensor} : Built (.labels keys) →
      (∀ block ∈ blocks, Built (.block block)) → Tensor.make keys blocks = .ok tensor →
      Built (.tensor tensor)
  | split {tensor part : Tensor} {axis : Axis} {groups : List Labels} {parts : List Tensor} :
      Built (.tensor tensor) → (∀ group ∈ groups, Built (.labels group)) →
      tensor.split axis groups = .ok parts → part ∈ parts → Built (.tensor part)
  | add {left right result : Tensor} : Built (.tensor left) → Built (.tensor right) →
      left.add right = .ok result → Built (.tensor result)
  | subtract {left right result : Tensor} : Built (.tensor left) → Built (.tensor right) →
      left.subtract right = .ok result → Built (.tensor result)
  | multiply {scalar : Double} {tensor result : Tensor} : Built (.tensor tensor) →
      tensor.multiply scalar = .ok result → Built (.tensor result)
  | addScalar {scalar : Double} {tensor result : Tensor} : Built (.tensor tensor) →
      tensor.addScalar scalar = .ok result → Built (.tensor result)
  | subtractScalar {scalar : Double} {tensor result : Tensor} : Built (.tensor tensor) →
      tensor.subtractScalar scalar = .ok result → Built (.tensor result)
  | zerosLike {tensor result : Tensor} : Built (.tensor tensor) → tensor.zerosLike = .ok result →
      Built (.tensor result)
  | uniform {draw : Nat → List String → Nat → Float} {tensor result : Tensor} :
      Built (.tensor tensor) → tensor.uniformFrom draw = .ok result → Built (.tensor result)
  | forward {keys : Labels} {layers : List Layer} {given : Option (List Labels)}
      {map : KeyedLayers} {tensor result : Tensor} : Built (.labels keys) →
      (∀ all, given = some all → ∀ properties ∈ all, Built (.labels properties)) →
      KeyedLayers.make keys layers given = .ok map → Built (.tensor tensor) →
      map.forward tensor = .ok result → Built (.tensor result)
  | load {dtype : DType} {limit : UInt64} {bytes : Bytes} {tensor : Tensor} :
      Archive.load dtype limit bytes = .ok tensor → Built (.tensor tensor)
  | loadFile {dtype : DType} {limit : UInt64} {file : Archive.File} {tensor : Tensor} :
      Archive.loadFile dtype limit file = .ok tensor → Built (.tensor tensor)

-- ---------------------------------------------------------------------------
-- Everything built is valid
-- ---------------------------------------------------------------------------

theorem Axis.uniqueRows_valid {axis : Axis} {names : List String} {blocks : List Block}
    {labels : Labels} (h : axis.uniqueRows names blocks = .ok labels) : labels.Valid := by
  simp only [uniqueRows, bind_ok, pure_ok] at h
  obtain ⟨_, -, projections, -, rows, hrows, rfl⟩ := h
  exact Rows.unique_valid (Rows.ofFlat_valid hrows).1

theorem KeyedLayers.make_eq {keys : Labels} {layers : List Layer} {given : Option (List Labels)}
    {map : KeyedLayers} (h : make keys layers given = .ok map) : map = ⟨keys, layers, given⟩ := by
  simp only [make, bind_ok, ensure_ok] at h
  obtain ⟨_, -, h⟩ := h
  cases given with
  | none => exact (pure_ok.mp h).symm
  | some all =>
    obtain ⟨_, -, h⟩ := bind_ok.mp h
    exact (pure_ok.mp h).symm

theorem Built.valid {object : Object} (h : Built object) : object.Valid := by
  induction h with
  | rowsOfFlat h => exact (Rows.ofFlat_valid h).1
  | rowsOfLabels _ ih => exact Labels.Valid.rows ih
  | select _ h _ => exact (Rows.select_valid h).1
  | ofEntries h => exact (Labels.ofEntries_ok.mp h).1
  | ofFlat h => exact (Labels.ofFlat_valid h).1
  | empty h => exact (Labels.ofFlat_valid h).1
  | single => exact Labels.single_valid
  | range h => exact Labels.range_valid h
  | ofRows _ h ih => exact Labels.ofRows_valid ih h
  | unique _ ih => exact Rows.unique_valid ih
  | sorted _ ih => exact Rows.unique_valid (Labels.Valid.rows ih)
  | union _ _ h ihl ihr => exact Labels.union_valid ihl ihr h
  | intersection _ _ h ihl _ => exact Labels.intersection_valid ihl h
  | samples _ ih => exact (Block.Valid.labelled ih).samples
  | component _ hmem ih => exact (Block.Valid.labelled ih).components _ hmem
  | properties _ ih => exact (Block.Valid.labelled ih).properties
  | keys _ ih => exact Tensor.Valid.keys ih
  | uniqueOfBlock _ h _ =>
    obtain ⟨targets, -, h⟩ := bind_ok.mp h
    exact Axis.uniqueRows_valid h
  | uniqueOfTensor _ h _ =>
    obtain ⟨targets, -, h⟩ := bind_ok.mp h
    exact Axis.uniqueRows_valid h
  | block hvalues _ _ _ h ihs ihc ihp => exact Block.make_valid hvalues ihs ihc ihp h
  | addGradient _ _ h ihb ihg => exact Block.addGradient_valid ihb ihg h
  | gradient _ hmem ih => exact (Block.Valid.gradient ih hmem).2
  | splitBlock _ _ h hmem ih _ => exact Block.split_valid ih h hmem
  | blockOf _ hmem ih => exact Tensor.Valid.blocks ih _ hmem
  | tensor _ _ h ihk ihb => exact Tensor.make_valid ihk ihb h
  | split _ _ h hmem ih _ => exact Tensor.split_valid ih h hmem
  | add _ _ h ihl _ => exact Tensor.add_valid ihl h
  | subtract _ _ h ihl _ => exact Tensor.subtract_valid ihl h
  | multiply _ h ih => exact Tensor.mapValues_valid (Values.keepsLayout_mulScalar _) ih h
  | addScalar _ h ih => exact Tensor.addScalar_valid ih h
  | subtractScalar _ h ih => exact Tensor.addScalar_valid ih h
  | zerosLike _ h ih => exact Tensor.mapValues_valid Values.keepsLayout_zeroed ih h
  | uniform _ h ih => exact Tensor.uniformFrom_valid ih h
  | forward _ _ hmap _ h _ ihg iht =>
    cases KeyedLayers.make_eq hmap
    exact KeyedLayers.forward_valid iht ihg h
  | load h => exact Archive.load_valid h
  | loadFile h => exact Archive.loadFile_valid h

-- ---------------------------------------------------------------------------
-- Everything valid can be built
-- ---------------------------------------------------------------------------

theorem Built.of_labels {labels : Labels} (h : labels.Valid) : Built (.labels labels) :=
  .ofFlat (Labels.ofFlat_flat h)

theorem Built.attachAll {parent result : Block} {items : List (String × Block)}
    (hparent : Built (.block parent)) (hitems : ∀ item ∈ items, Built (.block item.2))
    (h : parent.attachAll items = .ok result) : Built (.block result) := by
  induction items generalizing parent with
  | nil =>
    rw [Block.attachAll, List.foldlM_nil, pure_ok] at h
    exact h ▸ hparent
  | cons item rest ih =>
    rw [Block.attachAll, List.foldlM_cons, bind_ok] at h
    obtain ⟨next, hnext, h⟩ := h
    exact ih (.addGradient hparent (hitems item List.mem_cons_self) hnext)
      (fun other hmem => hitems other (List.mem_cons_of_mem _ hmem)) h

theorem Built.of_block {block : Block} (h : block.Valid) : Built (.block block) := by
  induction block with
  | step block ih =>
    have own := h.labelled
    -- The block without gradients first, then its gradients one by one.
    obtain ⟨parent, hparent, hattach⟩ := bind_ok.mp h.assemble
    refine .attachAll ?_ (fun item hmem => ih item hmem (h.gradient hmem).2) hattach
    exact .block own.values (.of_labels own.samples)
      (fun component hmem => .of_labels (own.components component hmem))
      (.of_labels own.properties) hparent

theorem Built.of_tensor {tensor : Tensor} (h : tensor.Valid) : Built (.tensor tensor) :=
  .tensor (.of_labels h.keys) (fun block hmem => .of_block (h.blocks block hmem)) h.make

-- ---------------------------------------------------------------------------
-- Blocks and tensors
-- ---------------------------------------------------------------------------

theorem valid_of_built : (∀ block, Built (.block block) → block.Valid) ∧
    ∀ tensor, Built (.tensor tensor) → tensor.Valid :=
  ⟨fun _ h => h.valid, fun _ h => h.valid⟩

def column (samples : Labels) (data : List Double) (gradients : Gradients) : Block :=
  ⟨.float64 ⟨[samples.length, 1], data⟩, samples, [], .single, gradients⟩

def counted (n : Nat) : Labels := ⟨["sample"], (List.range n).map fun i => [Int32.ofNat i]⟩

def flatColumn (data : List Double) : Block :=
  let samples := counted data.length
  column samples data (.cons "positions" (column samples data .nil) .nil)

/-- A column whose gradient has a gradient. -/
def nestedColumn (data : List Double) : Block :=
  let samples := counted data.length
  let inner := column samples data .nil
  let outer := column samples data (.cons "strain" inner .nil)
  column samples data (.cons "positions" outer .nil)

def nestedTensor : Tensor :=
  ⟨⟨["key"], [[3], [-1]]⟩, [nestedColumn [.one, .invalid], nestedColumn []]⟩

theorem nestedTensor_valid : nestedTensor.Valid := by
  have h : (Archive.TensorRecord.ofTensor nestedTensor).tensor = .ok nestedTensor := rfl
  exact Archive.tensor_valid h

theorem valid_of_built_nested : Built (.block (nestedColumn [])) ∧ (nestedColumn []).Valid ∧
    Built (.tensor nestedTensor) ∧ nestedTensor.Valid := by
  have htensor : Built (.tensor nestedTensor) := .of_tensor nestedTensor_valid
  have hblock : Built (.block (nestedColumn [])) :=
    .blockOf htensor (List.mem_cons_of_mem _ List.mem_cons_self)
  exact ⟨hblock, valid_of_built.1 _ hblock, htensor, valid_of_built.2 _ htensor⟩

end BlockTensor
