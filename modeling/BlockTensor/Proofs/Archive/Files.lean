import BlockTensor.Proofs.Archive.Framing

/-!
# Archives in files

A file holds the bytes of one archive and nothing else. Loading it checks its
size before the header, loading from memory checks the payload after the header,
so the two can name different faults; they differ in nothing else
(`LoadsAlike`). A file is written only by a save that succeeds, and then holds
what the same limit loads again (`SavesAlike`).
-/

namespace BlockTensor.Archive

/-- Loading a file that holds `bytes`, beside loading the bytes themselves. -/
structure LoadsAlike (dtype : DType) (limit : UInt64) (bytes : Bytes) : Prop where
  accepts : ∀ tensor,
    loadFile dtype limit (some bytes) = .ok tensor ↔ load dtype limit bytes = .ok tensor
  /-- Bytes without a whole header count as an empty payload here. -/
  fits : bytes.length - headerLength ≤ limit.toNat →
    loadFile dtype limit (some bytes) = load dtype limit bytes
  exceeds : limit.toNat < bytes.length - headerLength →
    loadFile dtype limit (some bytes) =
        .error (.payloadTooLarge (bytes.length - headerLength) limit) ∧
      ((∃ fault position, payloadOf dtype bytes = .error fault ∧ position < headerLength ∧
          fault.IsAt position ∧ load dtype limit bytes = .error fault) ∨
        load dtype limit bytes = .error (.payloadTooLarge (bytes.length - headerLength) limit))

structure SavesAlike (dtype : DType) (limit : UInt64) (tensor : Tensor) (file : File) : Prop where
  written : ∀ new, saveFile dtype limit tensor file = (.ok (), new) ↔
    ∃ bytes, save dtype limit tensor = .ok bytes ∧ new = some bytes
  kept : ∀ fault new, saveFile dtype limit tensor file = (.error fault, new) ↔
    save dtype limit tensor = .error fault ∧ new = file
  fault : ∀ fault, save dtype limit tensor = .error fault →
    ∃ size, limit.toNat < size ∧ fault = .payloadTooLarge size limit
  loads : ∀ new, saveFile dtype limit tensor file = (.ok (), new) →
    loadFile dtype limit new = .ok tensor

section
variable {dtype : DType} {limit : UInt64} {bytes : Bytes} {tensor : Tensor} {file : File}

-- ---------------------------------------------------------------------------
-- Loading
-- ---------------------------------------------------------------------------

theorem loadFile_of_fits (h : bytes.length - headerLength ≤ limit.toNat) :
    loadFile dtype limit (some bytes) = load dtype limit bytes := by
  rw [loadFile, checkSize, ensure_of h]
  rfl

theorem loadFile_of_exceeds (h : limit.toNat < bytes.length - headerLength) :
    loadFile dtype limit (some bytes) =
      .error (.payloadTooLarge (bytes.length - headerLength) limit) := by
  rw [loadFile, checkSize, ensure_of_not (Nat.not_le.mpr h)]
  rfl

theorem isAt_of_payloadOf {fault : Fault} (hlength : headerLength ≤ bytes.length)
    (h : payloadOf dtype bytes = .error fault) :
    ∃ position, position < headerLength ∧ fault.IsAt position := by
  obtain ⟨first, second, last, payload, hfirst, hsecond, rfl⟩ := exists_fields hlength
  by_cases hmagic : first = magic
  · subst hmagic
    by_cases hversion : second = Varint.littleEndian 4 version
    · subst hversion
      have hlast : last ≠ tag dtype := by
        rintro rfl
        have hheader := payloadOf_header dtype payload
        rw [header, List.append_assoc, List.append_assoc, List.singleton_append, h] at hheader
        cases hheader
      obtain ⟨_, hother, hplace⟩ := payloadOf_other_tag hlast
      cases h.symm.trans hother
      exact ⟨8, by decide, hplace⟩
    · cases h.symm.trans (payloadOf_other_version hsecond hversion)
      exact ⟨4, by decide, Nat.le_refl _, by decide⟩
  · cases h.symm.trans (payloadOf_other_magic hfirst hsecond hmagic)
    exact ⟨0, by decide, Nat.zero_lt_succ _⟩

theorem load_of_exceeds (dtype : DType) (h : limit.toNat < bytes.length - headerLength) :
    (∃ fault position, payloadOf dtype bytes = .error fault ∧ position < headerLength ∧
        fault.IsAt position ∧ load dtype limit bytes = .error fault) ∨
      load dtype limit bytes = .error (.payloadTooLarge (bytes.length - headerLength) limit) := by
  cases hpayload : payloadOf dtype bytes with
  | error fault =>
    obtain ⟨position, hposition, hplace⟩ := isAt_of_payloadOf (by omega) hpayload
    refine .inl ⟨fault, position, rfl, hposition, hplace, ?_⟩
    rw [load, hpayload]
    rfl
  | ok payload =>
    obtain rfl := payloadOf_ok.mp hpayload
    have hlength : (header dtype ++ payload).length - headerLength = payload.length := by
      rw [List.length_append, length_header, Nat.add_sub_cancel_left]
    rw [hlength] at h ⊢
    right
    rw [load_payload, checkSize, ensure_of_not (Nat.not_le.mpr h)]
    rfl

theorem loadsAlike (dtype : DType) (limit : UInt64) (bytes : Bytes) :
    LoadsAlike dtype limit bytes where
  accepts tensor := by
    by_cases h : bytes.length - headerLength ≤ limit.toNat
    · rw [loadFile_of_fits h]
    · rw [loadFile_of_exceeds (Nat.not_le.mp h)]
      obtain ⟨_, _, -, -, -, hload⟩ | hload := load_of_exceeds dtype (Nat.not_le.mp h)
      · simp [hload]
      · simp [hload]
  fits := loadFile_of_fits
  exceeds h := ⟨loadFile_of_exceeds h, load_of_exceeds dtype h⟩

-- ---------------------------------------------------------------------------
-- Saving
-- ---------------------------------------------------------------------------

theorem saveFile_ok {new : File} : saveFile dtype limit tensor file = (.ok (), new) ↔
    ∃ bytes, save dtype limit tensor = .ok bytes ∧ new = some bytes := by
  unfold saveFile
  cases save dtype limit tensor <;> simp [eq_comm]

theorem saveFile_error {fault : Fault} {new : File} :
    saveFile dtype limit tensor file = (.error fault, new) ↔
      save dtype limit tensor = .error fault ∧ new = file := by
  unfold saveFile
  cases save dtype limit tensor <;> simp [eq_comm]

theorem save_error {fault : Fault} (h : save dtype limit tensor = .error fault) :
    ∃ size, limit.toNat < size ∧ fault = .payloadTooLarge size limit := by
  by_cases hsize : (writeTensor (.ofTensor tensor)).length ≤ limit.toNat
  · cases h.symm.trans (save_ok.mpr ⟨hsize, rfl⟩)
  · refine ⟨_, Nat.not_le.mp hsize, ?_⟩
    simp only [save, checkSize, ensure_of_not hsize] at h
    cases h
    rfl

theorem load_saved (hvalid : tensor.Valid) (hdtype : tensor.HasDType dtype)
    (h : save dtype limit tensor = .ok bytes) : loadFile dtype limit (some bytes) = .ok tensor := by
  obtain ⟨hsize, rfl⟩ := save_ok.mp h
  exact ((loadsAlike dtype limit _).accepts tensor).mpr (load_written hvalid hdtype hsize)

theorem files_agree (dtype : DType) (limit : UInt64) :
    (∀ bytes, LoadsAlike dtype limit bytes) ∧
      ∀ tensor, Built (.tensor tensor) → tensor.HasDType dtype →
        ∀ file, SavesAlike dtype limit tensor file := by
  refine ⟨loadsAlike dtype limit, fun tensor hbuilt hdtype file => ?_⟩
  refine ⟨fun new => saveFile_ok, fun fault new => saveFile_error, fun fault => save_error, ?_⟩
  intro new hnew
  obtain ⟨bytes, hsave, rfl⟩ := saveFile_ok.mp hnew
  exact load_saved hbuilt.valid hdtype hsave

/-- With a limit of 3 the file of `savedNested` is too large, and a header that is
wrong as well goes unnoticed. -/
theorem files_agree_nested : Built (.tensor nestedTensor) ∧ nestedTensor.HasDType .float64 ∧
    LoadsAlike .float32 3 savedNested ∧ SavesAlike .float64 1000 nestedTensor none ∧
    saveFile .float64 1000 nestedTensor none = (.ok (), some savedNested) ∧
    loadFile .float64 1000 (some savedNested) = .ok nestedTensor := by
  have hbuilt : Built (.tensor nestedTensor) := .of_tensor nestedTensor_valid
  have hsaves := (files_agree .float64 1000).2 nestedTensor hbuilt hasDType_nestedTensor none
  have hwritten := (hsaves.written _).mpr ⟨_, save_nestedTensor, rfl⟩
  exact ⟨hbuilt, hasDType_nestedTensor, (files_agree .float32 3).1 savedNested, hsaves, hwritten,
    hsaves.loads _ hwritten⟩

end

end BlockTensor.Archive
