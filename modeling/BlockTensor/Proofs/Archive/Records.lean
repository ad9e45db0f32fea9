import BlockTensor.Archive.Basic
import BlockTensor.Proofs.TensorLaws

/-!
# Records and tensors

Whatever a record holds, the tensor it gives is valid: `block_ok` shows a
record as an assembly, and the constructors check the rest. The other way
round, a valid tensor is what the constructors make of its own record, so no
check refuses it. Bytes enter as records, so loading gives valid tensors.
-/

namespace BlockTensor.Archive

/-- Block records are built from the records of their gradients up. -/
@[induction_eliminator] theorem BlockRecord.induction {P : BlockRecord → Prop}
    (step : ∀ record : BlockRecord, (∀ item ∈ record.gradients.toList, P item.2) → P record)
    (record : BlockRecord) : P record := by
  refine BlockRecord.rec (motive_1 := P)
    (motive_2 := fun gradients => ∀ item ∈ gradients.toList, P item.2) ?_ ?_ ?_ record
  · exact fun _ _ _ _ _ ih => step _ ih
  · exact fun _ hmem => nomatch hmem
  · exact fun _ _ _ hgradient hrest => List.forall_mem_cons.mpr ⟨hgradient, hrest⟩

@[induction_eliminator] theorem GradientRecords.induction {P : GradientRecords → Prop}
    (nil : P .nil)
    (cons : ∀ parameter gradient rest, P rest → P (.cons parameter gradient rest))
    (gradients : GradientRecords) : P gradients := by
  refine GradientRecords.rec (motive_1 := fun _ => True) (motive_2 := P) ?_ nil ?_ gradients
  · exact fun _ _ _ _ _ _ => trivial
  · exact fun parameter gradient rest _ ih => cons parameter gradient rest ih

theorem GradientRecords.ofList_toList (gradients : GradientRecords) :
    ofList gradients.toList = gradients := by
  induction gradients with
  | nil => rfl
  | cons _ _ _ ih => simp [ofList, toList, ih]

theorem GradientRecords.length_toList (gradients : GradientRecords) :
    gradients.toList.length = gradients.length := by
  induction gradients with
  | nil => rfl
  | cons _ _ _ ih => simp [toList, length, ih]

theorem GradientRecords.toList_ofGradients (gradients : Gradients) :
    (ofGradients gradients).toList =
      gradients.toList.map fun item => (item.1, BlockRecord.ofBlock item.2) := by
  induction gradients with
  | nil => rfl
  | cons _ _ _ ih => simp [ofGradients, toList, Gradients.toList, ih]

theorem BlockRecord.values_ofBlock (block : Block) : (ofBlock block).values = block.values := by
  cases block
  rfl

theorem BlockRecord.toList_gradients_ofBlock (block : Block) : (ofBlock block).gradients.toList =
    block.gradients.toList.map fun item => (item.1, ofBlock item.2) := by
  cases block
  exact GradientRecords.toList_ofGradients _

-- ---------------------------------------------------------------------------
-- From records to tensors
-- ---------------------------------------------------------------------------

theorem attachTo_eq (gradients : GradientRecords) (parent : Block) :
    gradients.attachTo parent = gradients.toList.foldlM
      (fun parent item => do parent.addGradient item.1 (← item.2.block)) parent := by
  induction gradients generalizing parent with
  | nil => rfl
  | cons _ _ _ ih =>
    simp only [GradientRecords.attachTo, GradientRecords.toList, List.foldlM_cons, ih, bind_assoc]

theorem block_ok {record : BlockRecord} {result : Block} :
    record.block = .ok result ↔ ∃ values components samples properties items,
      record.values.checked = .ok values ∧
      List.Forall₂ (fun r c => LabelsRecord.labels r = .ok c) record.components components ∧
      record.samples.labels = .ok samples ∧ record.properties.labels = .ok properties ∧
      List.Forall₂ (Block.Rebuilds fun item => item.2.block) record.gradients.toList items ∧
      Block.assemble values samples components properties items = .ok result := by
  cases record with
  | mk values samples components properties gradients =>
    simp only [BlockRecord.block, Block.assemble, bind_ok, mapM_ok, attachTo_eq,
      Block.foldlM_rebuild_ok]
    constructor
    · rintro ⟨array, harray, made, hmade, axis, haxis, last, hlast, start, hstart, items, hitems,
        hresult⟩
      exact ⟨array, made, axis, last, items, harray, hmade, haxis, hlast, hitems, start, hstart,
        hresult⟩
    · rintro ⟨array, made, axis, last, items, harray, hmade, haxis, hlast, hitems, start, hstart,
        hresult⟩
      exact ⟨array, harray, made, hmade, axis, haxis, last, hlast, start, hstart, items, hitems,
        hresult⟩

theorem labels_valid {record : LabelsRecord} {labels : Labels} (h : record.labels = .ok labels) :
    labels.Valid :=
  (Labels.ofFlat_valid h).1

theorem block_valid {record : BlockRecord} {result : Block} (h : record.block = .ok result) :
    result.Valid := by
  induction record generalizing result with
  | step record ih =>
    obtain ⟨values, components, samples, properties, items, hvalues, hcomponents, hsamples,
      hproperties, hitems, hresult⟩ := block_ok.mp h
    refine Block.assemble_rebuilt_valid (Values.checked_ok.mp hvalues).2 (labels_valid hsamples)
      (fun component hmem => ?_) (labels_valid hproperties) (fun old hold _ hnew => ?_) hitems
      hresult
    · obtain ⟨_, -, hcomponent⟩ := exists_of_forall₂ hcomponents hmem
      exact labels_valid hcomponent
    · exact ih old hold hnew

theorem tensor_valid {record : TensorRecord} {tensor : Tensor} (h : record.tensor = .ok tensor) :
    tensor.Valid := by
  simp only [TensorRecord.tensor, bind_ok, mapM_ok] at h
  obtain ⟨blocks, hblocks, keys, hkeys, hmake⟩ := h
  exact Tensor.make_mapM_valid (labels_valid hkeys) (fun _ _ _ hblock => block_valid hblock)
    hblocks hmake

/-- A tensor that its record makes again is valid; of a fixed tensor this is seen by
evaluation. -/
theorem valid_of_record {tensor : Tensor}
    (h : (TensorRecord.ofTensor tensor).tensor = .ok tensor) : tensor.Valid :=
  tensor_valid h

theorem parts_of_tensor {record : TensorRecord} {tensor : Tensor}
    (h : record.tensor = .ok tensor) :
    record.keys.labels = .ok tensor.keys ∧
      List.Forall₂ (fun r block => BlockRecord.block r = .ok block) record.blocks tensor.blocks := by
  simp only [TensorRecord.tensor, Tensor.make, bind_ok, mapM_ok, pure_ok] at h
  obtain ⟨blocks, hblocks, keys, hkeys, _, -, _, -, rfl⟩ := h
  exact ⟨hkeys, hblocks⟩

-- ---------------------------------------------------------------------------
-- From tensors to records and back
-- ---------------------------------------------------------------------------

theorem labels_ofLabels {labels : Labels} (h : labels.Valid) :
    (LabelsRecord.ofLabels labels).labels = .ok labels :=
  Labels.ofFlat_flat h

theorem forall₂_map_self {α β : Type} {R : β → α → Prop} {f : α → β} {items : List α}
    (h : ∀ item ∈ items, R (f item) item) : List.Forall₂ R (items.map f) items := by
  rw [List.forall₂_map_left_iff, List.forall₂_same]
  exact h

theorem block_ofBlock {block : Block} (h : block.Valid) :
    (BlockRecord.ofBlock block).block = .ok block := by
  induction block with
  | step block ih =>
    have own := h.labelled
    have hitems : List.Forall₂ (Block.Rebuilds fun item => item.2.block)
        (BlockRecord.ofBlock block).gradients.toList block.gradients.toList := by
      rw [BlockRecord.toList_gradients_ofBlock]
      exact forall₂_map_self fun item hmem => ⟨rfl, ih item hmem (h.gradient hmem).2⟩
    refine block_ok.mpr ⟨block.values, block.components, block.samples, block.properties,
      block.gradients.toList, ?_, ?_, ?_, ?_, hitems, h.assemble⟩ <;> cases block
    · exact Values.checked_ok.mpr ⟨rfl, own.values⟩
    · exact forall₂_map_self fun component hmem => labels_ofLabels (own.components component hmem)
    · exact labels_ofLabels own.samples
    · exact labels_ofLabels own.properties

theorem tensor_ofTensor {tensor : Tensor} (h : tensor.Valid) :
    (TensorRecord.ofTensor tensor).tensor = .ok tensor := by
  simp only [TensorRecord.tensor, TensorRecord.ofTensor, bind_ok, mapM_ok]
  exact ⟨tensor.blocks, forall₂_map_self fun block hmem => block_ofBlock (h.blocks block hmem),
    tensor.keys, labels_ofLabels h.keys, h.make⟩

-- ---------------------------------------------------------------------------
-- Nothing is dropped
-- ---------------------------------------------------------------------------

theorem ofLabels_of_labels {record : LabelsRecord} {labels : Labels}
    (h : record.labels = .ok labels) : LabelsRecord.ofLabels labels = record := by
  obtain ⟨-, hnames, hflat⟩ := Labels.ofFlat_valid h
  rw [LabelsRecord.ofLabels, hnames, hflat]

theorem map_eq_of_forall₂ {α β : Type} {R : α → β → Prop} {f : β → α} {items : List α}
    {results : List β} (h : List.Forall₂ R items results)
    (hf : ∀ item ∈ items, ∀ result, R item result → f result = item) : results.map f = items := by
  induction h with
  | nil => rfl
  | cons hitem _ ih =>
    obtain ⟨hfirst, hrest⟩ := List.forall_mem_cons.mp hf
    rw [List.map_cons, hfirst _ hitem, ih hrest]

theorem ofBlock_of_block {record : BlockRecord} {block : Block} (h : record.block = .ok block) :
    BlockRecord.ofBlock block = record := by
  induction record generalizing block with
  | step record ih =>
    obtain ⟨values, components, samples, properties, items, hvalues, hcomponents, hsamples,
      hproperties, hitems, hresult⟩ := block_ok.mp h
    obtain ⟨-, -, rfl⟩ := Block.assemble_ok.mp hresult
    have hgradients : (GradientRecords.ofGradients (.ofList items)) = record.gradients := by
      rw [← GradientRecords.ofList_toList (.ofGradients _), GradientRecords.toList_ofGradients,
        Gradients.toList_ofList, ← GradientRecords.ofList_toList record.gradients]
      refine congrArg _ (map_eq_of_forall₂ hitems fun item hmem new hnew => ?_)
      rw [← hnew.1, ih item hmem hnew.2]
    rw [BlockRecord.ofBlock, ← (Values.checked_ok.mp hvalues).1, ofLabels_of_labels hsamples,
      map_eq_of_forall₂ hcomponents fun _ _ _ => ofLabels_of_labels,
      ofLabels_of_labels hproperties, hgradients]
    cases record
    rfl

theorem ofTensor_of_tensor {record : TensorRecord} {tensor : Tensor}
    (h : record.tensor = .ok tensor) : TensorRecord.ofTensor tensor = record := by
  obtain ⟨hkeys, hblocks⟩ := parts_of_tensor h
  rw [TensorRecord.ofTensor, ofLabels_of_labels hkeys,
    map_eq_of_forall₂ hblocks fun _ _ _ => ofBlock_of_block]

-- ---------------------------------------------------------------------------
-- Loading
-- ---------------------------------------------------------------------------

theorem decode_valid {dtype : DType} {payload : Bytes} {tensor : Tensor}
    (h : decode dtype payload = .ok tensor) : tensor.Valid := by
  unfold decode at h
  split at h
  · cases h
  · simp only [bind_ok, mapError_ok] at h
    obtain ⟨_, -, h⟩ := h
    exact tensor_valid h

theorem load_valid {dtype : DType} {limit : UInt64} {bytes : Bytes} {tensor : Tensor}
    (h : load dtype limit bytes = .ok tensor) : tensor.Valid := by
  simp only [load, bind_ok] at h
  obtain ⟨payload, -, _, -, h⟩ := h
  exact decode_valid h

theorem loadFile_valid {dtype : DType} {limit : UInt64} {file : File} {tensor : Tensor}
    (h : loadFile dtype limit file = .ok tensor) : tensor.Valid := by
  cases file with
  | none => cases h
  | some bytes =>
    obtain ⟨_, -, h⟩ := bind_ok.mp h
    exact load_valid h

end BlockTensor.Archive
