import BlockTensor.Proofs.Archive.ReadBack
import BlockTensor.Proofs.Built

/-!
# Saving and loading

What is saved is loaded again, bit by bit. A block is read back by induction on
the nesting of its gradients (`readsBack_block`). The written length bounds the
depth of the nesting, so the reader never runs out of depth; a limit is a 64-bit
word, so no saved payload is too long for the counts in it. The record that was
read gives the tensor because the constructors accept a valid tensor again.
-/

namespace BlockTensor

-- ---------------------------------------------------------------------------
-- Element types
-- ---------------------------------------------------------------------------

theorem Gradients.haveDType_iff {dtype : DType} {gradients : Gradients} :
    gradients.HaveDType dtype ↔ ∀ item ∈ gradients.toList, item.2.HasDType dtype := by
  induction gradients with
  | nil => simp [HaveDType, toList]
  | cons _ _ _ ih => simp [HaveDType, toList, ih]

theorem Block.hasDType_iff {dtype : DType} {block : Block} :
    block.HasDType dtype ↔ block.values.dtype = dtype ∧
      ∀ item ∈ block.gradients.toList, item.2.HasDType dtype := by
  cases block
  simp only [HasDType, Gradients.haveDType_iff]

namespace Archive

-- ---------------------------------------------------------------------------
-- Blocks
-- ---------------------------------------------------------------------------

def writeGradient (item : String × BlockRecord) : Bytes :=
  writeText item.1 ++ writeBlock item.2

theorem writeGradients_eq (gradients : GradientRecords) :
    writeGradients gradients = gradients.toList.flatMap writeGradient := by
  induction gradients with
  | nil => rfl
  | cons _ _ _ ih =>
    simp only [writeGradients, GradientRecords.toList, List.flatMap_cons, writeGradient, ih]

theorem writeBlock_eq (record : BlockRecord) :
    writeBlock record = writeValues record.values ++ writeLabels record.samples ++
      writeList writeLabels record.components ++ writeLabels record.properties ++
      writeList writeGradient record.gradients.toList := by
  cases record
  simp only [writeBlock, writeGradients_eq, writeList, GradientRecords.length_toList,
    List.append_assoc]

theorem length_writeBlock_pos (record : BlockRecord) : 0 < (writeBlock record).length := by
  have hpos := length_writeLabels_pos record.samples
  rw [writeBlock_eq]
  simp only [List.length_append]
  omega

theorem length_writeGradient_pos (item : String × BlockRecord) :
    0 < (writeGradient item).length := by
  have hpos := length_writeText_pos item.1
  simp only [writeGradient, List.length_append]
  omega

theorem length_writeBlock_le (parameter : String) (record : BlockRecord) :
    (writeBlock record).length ≤ (writeGradient (parameter, record)).length := by
  simp only [writeGradient, List.length_append]
  omega

theorem length_writeGradient_lt {record : BlockRecord} {item : String × BlockRecord}
    (hmem : item ∈ record.gradients.toList) :
    (writeGradient item).length < (writeBlock record).length := by
  have hle := length_write_le_writeList writeGradient hmem
  have hpos := length_writeLabels_pos record.samples
  rw [writeBlock_eq]
  simp only [List.length_append]
  omega

theorem readsBack_gradient {read : Reader BlockRecord} {item : String × BlockRecord}
    (hlength : (writeGradient item).length < wordLimit)
    (h : ReadsBack read writeBlock item.2) : ReadsBack (readGradient read) writeGradient item := by
  intro rest
  have htext : ReadsBack readText writeText item.1 := by
    refine readsBack_text ?_
    simp only [writeGradient, List.length_append] at hlength
    omega
  simp only [readGradient, writeGradient, List.append_assoc, Option.bind_eq_bind]
  rw [htext, Option.bind_some, h, Option.bind_some]

theorem readsBack_blockRecord {dtype : DType} {depth : Nat} {record : BlockRecord}
    (hlength : (writeBlock record).length < wordLimit)
    (hvalues : (writeValues record.values).length < wordLimit →
      ReadsBack (readValues dtype) writeValues record.values)
    (hgradients : ∀ item ∈ record.gradients.toList,
      ReadsBack (readGradient (readBlock dtype depth)) writeGradient item) :
    ReadsBack (readBlock dtype (depth + 1)) writeBlock record := by
  intro rest
  rw [writeBlock_eq] at hlength ⊢
  simp only [List.length_append] at hlength
  have hcomponents : ReadsBack (readList readLabels) (writeList writeLabels) record.components := by
    refine readsBack_list (fun component hmem => readsBack_labels ?_)
      (fun component _ => length_writeLabels_pos component) (by omega)
    have hle := length_write_le_writeList writeLabels hmem
    omega
  have hitems : ReadsBack (readList (readGradient (readBlock dtype depth)))
      (writeList writeGradient) record.gradients.toList :=
    readsBack_list hgradients (fun item _ => length_writeGradient_pos item) (by omega)
  simp only [readBlock, List.append_assoc, Option.bind_eq_bind]
  rw [hvalues (by omega), Option.bind_some, readsBack_labels (by omega), Option.bind_some,
    hcomponents, Option.bind_some, readsBack_labels (by omega), Option.bind_some, hitems,
    Option.bind_some, GradientRecords.ofList_toList]
  cases record
  rfl

/-- The written length bounds the nesting of gradients. -/
theorem readsBack_block {dtype : DType} {block : Block} (hvalid : block.Valid)
    (hdtype : block.HasDType dtype) {depth : Nat}
    (hdepth : (writeBlock (.ofBlock block)).length ≤ depth)
    (hlength : (writeBlock (.ofBlock block)).length < wordLimit) :
    ReadsBack (readBlock dtype depth) writeBlock (.ofBlock block) := by
  induction block generalizing depth with
  | step block ih =>
    obtain ⟨hvalues, hgradients⟩ := Block.hasDType_iff.mp hdtype
    have hpos := length_writeBlock_pos (.ofBlock block)
    obtain ⟨depth, rfl⟩ : ∃ n, depth = n + 1 := ⟨depth - 1, by omega⟩
    -- One depth goes to the block itself; its gradients are strictly shorter
    -- than it is, so what is left still bounds their lengths.
    refine readsBack_blockRecord hlength (fun hshort => ?_) (fun item hmem => ?_)
    · rw [BlockRecord.values_ofBlock] at hshort ⊢
      exact hvalues ▸ readsBack_values hvalid.labelled.values hshort
    · have hlt := length_writeGradient_lt hmem
      rw [BlockRecord.toList_gradients_ofBlock] at hmem
      obtain ⟨old, hold, rfl⟩ := List.mem_map.mp hmem
      have hle := length_writeBlock_le old.1 (.ofBlock old.2)
      exact readsBack_gradient (by omega)
        (ih old hold (hvalid.gradient hold).2 (hgradients old hold) (by omega) (by omega))

-- ---------------------------------------------------------------------------
-- Tensors
-- ---------------------------------------------------------------------------

theorem readsBack_tensor {dtype : DType} {tensor : Tensor} (hvalid : tensor.Valid)
    (hdtype : tensor.HasDType dtype)
    (hlength : (writeTensor (.ofTensor tensor)).length < wordLimit) :
    ReadsBack (readTensor dtype) writeTensor (.ofTensor tensor) := by
  intro rest
  simp only [writeTensor, TensorRecord.ofTensor, List.length_append] at hlength
  have hblocks {depth : Nat} (hdepth : (writeList writeBlock
      (tensor.blocks.map BlockRecord.ofBlock)).length ≤ depth) :
      ReadsBack (readList (readBlock dtype depth)) (writeList writeBlock)
        (tensor.blocks.map BlockRecord.ofBlock) := by
    refine readsBack_list (fun record hmem => ?_) (fun record _ => length_writeBlock_pos record)
      (by omega)
    have hle := length_write_le_writeList writeBlock hmem
    obtain ⟨block, hblock, rfl⟩ := List.mem_map.mp hmem
    exact readsBack_block (hvalid.blocks block hblock) (hdtype block hblock) (by omega) (by omega)
  simp only [readTensor, writeTensor, TensorRecord.ofTensor, List.append_assoc,
    Option.bind_eq_bind]
  rw [readsBack_labels (by omega), Option.bind_some,
    hblocks (by simp only [List.length_append]; omega), Option.bind_some]

-- ---------------------------------------------------------------------------
-- Archives
-- ---------------------------------------------------------------------------

theorem payloadOf_header (dtype : DType) (payload : Bytes) :
    payloadOf dtype (header dtype ++ payload) = .ok payload := by
  have hlength : headerLength ≤ (header dtype ++ payload).length := by
    rw [List.length_append]
    exact Nat.le_add_right _ _
  cases dtype <;> simp only [payloadOf, bind_ok, ensure_ok, pure_ok]
  · exact ⟨(), hlength, (), rfl, (), rfl, _, rfl, (), rfl, rfl⟩
  · exact ⟨(), hlength, (), rfl, (), rfl, _, rfl, (), rfl, rfl⟩

theorem save_ok {dtype : DType} {limit : UInt64} {tensor : Tensor} {bytes : Bytes} :
    save dtype limit tensor = .ok bytes ↔
      (writeTensor (.ofTensor tensor)).length ≤ limit.toNat ∧
        bytes = header dtype ++ writeTensor (.ofTensor tensor) := by
  simp only [save, checkSize, bind_ok, ensure_ok, pure_ok]
  constructor
  · rintro ⟨_, hlength, rfl⟩
    exact ⟨hlength, rfl⟩
  · rintro ⟨hlength, rfl⟩
    exact ⟨(), hlength, rfl⟩

theorem decode_writeTensor {dtype : DType} {tensor : Tensor} (hvalid : tensor.Valid)
    (hdtype : tensor.HasDType dtype)
    (hlength : (writeTensor (.ofTensor tensor)).length < wordLimit) :
    decode dtype (writeTensor (.ofTensor tensor)) = .ok tensor := by
  have hread := readsBack_tensor hvalid hdtype hlength []
  rw [List.append_nil] at hread
  simp only [decode, hread, bind_ok, ensure_ok, mapError_ok]
  exact ⟨(), trivial, tensor_ofTensor hvalid⟩

theorem load_of_save {dtype : DType} {limit : UInt64} {tensor : Tensor} {bytes : Bytes}
    (htensor : Built (.tensor tensor)) (hdtype : tensor.HasDType dtype)
    (h : save dtype limit tensor = .ok bytes) : load dtype limit bytes = .ok tensor := by
  have hvalid : tensor.Valid := htensor.valid
  obtain ⟨hlength, rfl⟩ := save_ok.mp h
  have hlimit : limit.toNat < wordLimit := limit.toNat_lt
  simp only [load, checkSize, payloadOf_header, bind_ok, ensure_ok]
  exact ⟨_, rfl, (), hlength, decode_writeTensor hvalid hdtype (by omega)⟩

theorem load_of_save_nested : Built (.tensor nestedTensor) ∧ nestedTensor.HasDType .float64 ∧
    ∃ bytes, save .float64 1000 nestedTensor = .ok bytes ∧
      load .float64 1000 bytes = .ok nestedTensor := by
  have hbuilt : Built (.tensor nestedTensor) := .of_tensor nestedTensor_valid
  have hdtype : nestedTensor.HasDType .float64 := by
    simp [Tensor.HasDType, nestedTensor, nestedColumn, counted, column, Block.HasDType,
      Gradients.HaveDType, Values.dtype]
  have hlength : (writeTensor (.ofTensor nestedTensor)).length ≤ UInt64.toNat 1000 := by
    decide +kernel
  have hsave : save .float64 1000 nestedTensor = _ := save_ok.mpr ⟨hlength, rfl⟩
  exact ⟨hbuilt, hdtype, _, hsave, load_of_save hbuilt hdtype hsave⟩

end Archive

end BlockTensor
