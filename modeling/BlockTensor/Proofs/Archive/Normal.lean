import BlockTensor.Proofs.Archive.Forms
import BlockTensor.Proofs.Archive.Header

/-!
# Saving what was loaded

Loading accepts longer forms of integers, so different archives may hold one
tensor. Saving that tensor again gives the shortest of them: whatever is loaded
can be saved under the same limit, in no more bytes, and loading and saving
change nothing from then on. An archive that was saved is the
shortest one already.
-/

namespace BlockTensor.Archive

section
variable {dtype : DType} {limit : UInt64} {bytes payload : Bytes} {tensor : Tensor}

theorem decode_ok : decode dtype payload = .ok tensor ↔
    ∃ record, readTensor dtype payload = some (record, []) ∧ record.tensor = .ok tensor := by
  unfold decode
  split
  next hnone => simp [hnone]
  next record rest hsome =>
    simp only [hsome, Option.some.injEq, Prod.mk.injEq, bind_ok, ensure_ok, mapError_ok]
    constructor
    · rintro ⟨_, hrest, htensor⟩
      exact ⟨record, ⟨rfl, hrest⟩, htensor⟩
    · rintro ⟨_, ⟨rfl, hrest⟩, htensor⟩
      exact ⟨(), hrest, htensor⟩

theorem load_ok : load dtype limit bytes = .ok tensor ↔ ∃ payload, bytes = header dtype ++ payload ∧
    payload.length ≤ limit.toNat ∧ decode dtype payload = .ok tensor := by
  simp only [load, checkSize, bind_ok, ensure_ok, payloadOf_ok]
  constructor
  · rintro ⟨payload, hbytes, _, hlength, hdecode⟩
    exact ⟨payload, hbytes, hlength, hdecode⟩
  · rintro ⟨payload, hbytes, hlength, hdecode⟩
    exact ⟨payload, hbytes, (), hlength, hdecode⟩

/-- A payload that is read whole holds the record of its tensor, in a form that
is no shorter than the written one. -/
theorem written_of_decode (h : decode dtype payload = .ok tensor) :
    tensor.HasDType dtype ∧ (writeTensor (.ofTensor tensor)).length ≤ payload.length := by
  obtain ⟨record, hread, htensor⟩ := decode_ok.mp h
  obtain ⟨taken, hpayload, hdtype, hform⟩ := takes_tensor dtype hread
  rw [ofTensor_of_tensor htensor, hpayload, List.append_nil]
  exact ⟨hdtype tensor htensor, hform.shortest⟩

theorem header_inj {dtype' : DType} {payload' : Bytes}
    (h : header dtype ++ payload = header dtype' ++ payload') :
    dtype = dtype' ∧ payload = payload' := by
  obtain ⟨hheader, hpayload⟩ := List.append_inj h (by cases dtype <;> cases dtype' <;> rfl)
  have htag : tag dtype = tag dtype' := congrArg (·.getLastD 0) hheader
  exact ⟨by cases dtype <;> cases dtype' <;> first | rfl | exact absurd htag (by decide), hpayload⟩

theorem load_written (hvalid : tensor.Valid) (hdtype : tensor.HasDType dtype)
    (hlength : (writeTensor (.ofTensor tensor)).length ≤ limit.toNat) :
    load dtype limit (header dtype ++ writeTensor (.ofTensor tensor)) = .ok tensor := by
  have hlimit : limit.toNat < wordLimit := limit.toNat_lt
  exact load_ok.mpr ⟨_, rfl, hlength, decode_writeTensor hvalid hdtype (by omega)⟩

theorem save_of_load (h : load dtype limit bytes = .ok tensor) :
    ∃ saved, save dtype limit tensor = .ok saved ∧ saved.length ≤ bytes.length ∧
      load dtype limit saved = .ok tensor ∧
      load dtype limit saved >>= save dtype limit = .ok saved ∧
      ∀ (dtype' : DType) (limit' : UInt64) (source : Tensor), Built (.tensor source) →
        source.HasDType dtype' → save dtype' limit' source = .ok bytes → saved = bytes := by
  have hvalid := load_valid h
  obtain ⟨payload, rfl, hpayload, hdecode⟩ := load_ok.mp h
  obtain ⟨hdtype, hshortest⟩ := written_of_decode hdecode
  have hlength := Nat.le_trans hshortest hpayload
  have hsave : save dtype limit tensor = .ok _ := save_ok.mpr ⟨hlength, rfl⟩
  have hload := load_written hvalid hdtype hlength
  refine ⟨_, hsave, ?_, hload, ?_, fun dtype' limit' source hbuilt hsource h' => ?_⟩
  · rw [List.length_append, List.length_append]
    omega
  · rw [hload]
    exact hsave
  · -- An archive has one header and one payload, so the source is the tensor.
    obtain ⟨hlength', hbytes⟩ := save_ok.mp h'
    obtain ⟨rfl, rfl⟩ := header_inj hbytes
    have hword : limit'.toNat < wordLimit := limit'.toNat_lt
    have hsame := decode_writeTensor hbuilt.valid hsource (by omega)
    rw [hdecode] at hsame
    cases hsame
    rfl

end

theorem hasDType_nestedTensor : nestedTensor.HasDType .float64 := by
  simp [Tensor.HasDType, nestedTensor, nestedColumn, counted, column, Block.HasDType,
    Gradients.HaveDType, Values.dtype]

def savedNested : Bytes := header .float64 ++ writeTensor (.ofTensor nestedTensor)

theorem save_nestedTensor : save .float64 1000 nestedTensor = .ok savedNested :=
  save_ok.mpr ⟨by decide +kernel, rfl⟩

/-- An archive of `nestedTensor` that spends three bytes on the number of blocks. -/
def longNested : Bytes :=
  header .float64 ++ (writeLabels (.ofLabels nestedTensor.keys) ++ ([251, 2, 0] ++
    (nestedTensor.blocks.map BlockRecord.ofBlock).flatMap writeBlock))

set_option maxRecDepth 20000 in
theorem load_longNested : load .float64 1000 longNested = .ok nestedTensor := by
  rfl

theorem save_of_load_nested :
    (load .float64 1000 longNested = .ok nestedTensor ∧
      ∃ saved, save .float64 1000 nestedTensor = .ok saved ∧ saved.length ≤ longNested.length ∧
        load .float64 1000 saved = .ok nestedTensor) ∧
    load .float64 1000 savedNested = .ok nestedTensor ∧
      save .float64 1000 nestedTensor = .ok savedNested := by
  have hsaved : load .float64 1000 savedNested = .ok nestedTensor :=
    load_written nestedTensor_valid hasDType_nestedTensor (by decide +kernel)
  obtain ⟨short, hshort, hle, hload, -⟩ := save_of_load load_longNested
  obtain ⟨same, hsame, -, -, -, hown⟩ := save_of_load hsaved
  rw [hown _ _ _ (.of_tensor nestedTensor_valid) hasDType_nestedTensor save_nestedTensor] at hsame
  exact ⟨⟨load_longNested, short, hshort, hle, hload⟩, hsaved, hsame⟩

end BlockTensor.Archive
