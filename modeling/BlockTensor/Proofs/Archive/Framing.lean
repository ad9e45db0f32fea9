import BlockTensor.Proofs.Archive.Normal

/-!
# Where an archive ends

An archive says where it ends. Cut short it is malformed, since what a reader
takes of the front it would take of the whole archive too, and leave the rest.
Bytes after its end are counted as trailing, unless they make the payload
exceed the limit. The header is checked byte by byte.
-/

namespace BlockTensor.Archive

structure Framed (dtype : DType) (limit : UInt64) (bytes : Bytes) : Prop where
  shorter : ∀ front, front <+: bytes → front ≠ bytes → load dtype limit front =
    .error (if front.length < headerLength then .truncated front.length else .malformed)
  longer : ∀ more, more ≠ [] → load dtype limit (bytes ++ more) =
    .error (if limit.toNat < (bytes ++ more).length - headerLength then
      .payloadTooLarge ((bytes ++ more).length - headerLength) limit
    else .trailingBytes more.length)
  header : ∀ position byte, position < headerLength → bytes[position]? ≠ some byte →
    ∃ fault, load dtype limit (bytes.set position byte) = .error fault ∧ fault.IsAt position

section
variable {dtype : DType} {limit : UInt64} {bytes payload : Bytes} {tensor : Tensor}

theorem length_header (dtype : DType) : (header dtype).length = headerLength := rfl

theorem load_truncated (h : bytes.length < headerLength) :
    load dtype limit bytes = .error (.truncated bytes.length) := by
  rw [load, payloadOf, ensure_of_not (by omega)]
  rfl

theorem load_payload (dtype : DType) (limit : UInt64) (payload : Bytes) :
    load dtype limit (header dtype ++ payload) = (do
      checkSize limit payload.length
      decode dtype payload) := by
  rw [load, payloadOf_header]
  rfl

-- ---------------------------------------------------------------------------
-- Fewer bytes
-- ---------------------------------------------------------------------------

/-- A reader that accepts the front of a payload leaves what comes after it. -/
theorem decode_of_cut {cut lost : Bytes} {record : TensorRecord} (hlost : lost ≠ [])
    (hread : readTensor dtype (cut ++ lost) = some (record, [])) :
    decode dtype cut = .error .malformed := by
  cases h : readTensor dtype cut with
  | none => simp only [decode, h]
  | some result =>
    obtain ⟨other, rest⟩ := result
    obtain ⟨taken, rfl, -, hform⟩ := takes_tensor dtype h
    rw [List.append_assoc, hform.reads] at hread
    have hnil : rest ++ lost = [] := congrArg Prod.snd (Option.some.inj hread)
    exact absurd (List.append_eq_nil_iff.mp hnil).2 hlost

theorem load_of_proper_prefix {front : Bytes} {record : TensorRecord}
    (hlength : payload.length ≤ limit.toNat) (hread : readTensor dtype payload = some (record, []))
    (hfront : front <+: header dtype ++ payload) (hne : front ≠ header dtype ++ payload) :
    load dtype limit front =
      .error (if front.length < headerLength then .truncated front.length else .malformed) := by
  split
  next hshort => exact load_truncated hshort
  next hlong =>
    have hheader : header dtype <+: front := List.prefix_of_prefix_length_le
      (List.prefix_append ..) hfront (by rw [length_header]; omega)
    obtain ⟨cut, rfl⟩ := hheader
    obtain ⟨lost, rfl⟩ := (List.prefix_append_right_inj _).mp hfront
    have hlost : lost ≠ [] := by
      rintro rfl
      exact hne (by rw [List.append_nil])
    rw [List.length_append] at hlength
    rw [load_payload, checkSize, ensure_of (by omega)]
    exact decode_of_cut hlost hread

-- ---------------------------------------------------------------------------
-- More bytes
-- ---------------------------------------------------------------------------

theorem decode_append {more : Bytes} {record : TensorRecord} (hmore : more ≠ [])
    (hread : readTensor dtype (payload ++ more) = some (record, more)) :
    decode dtype (payload ++ more) = .error (.trailingBytes more.length) := by
  simp only [decode, hread, ensure_of_not hmore]
  rfl

theorem load_append {more : Bytes} {record : TensorRecord} (hmore : more ≠ [])
    (hread : readTensor dtype (payload ++ more) = some (record, more)) :
    load dtype limit (header dtype ++ payload ++ more) =
      .error (if limit.toNat < (header dtype ++ payload ++ more).length - headerLength then
        .payloadTooLarge ((header dtype ++ payload ++ more).length - headerLength) limit
      else .trailingBytes more.length) := by
  have hlength : (header dtype ++ payload ++ more).length - headerLength =
      (payload ++ more).length := by
    simp only [List.length_append, length_header]
    omega
  rw [hlength, List.append_assoc, load_payload, checkSize]
  split
  next hlarge =>
    rw [ensure_of_not (by omega)]
    rfl
  next hsmall =>
    rw [ensure_of (by omega)]
    exact decode_append hmore hread

-- ---------------------------------------------------------------------------
-- Saved archives
-- ---------------------------------------------------------------------------

theorem framed_of_save (htensor : Built (.tensor tensor)) (hdtype : tensor.HasDType dtype)
    (h : save dtype limit tensor = .ok bytes) : Framed dtype limit bytes := by
  obtain ⟨hlength, rfl⟩ := save_ok.mp h
  have hlimit : limit.toNat < wordLimit := limit.toNat_lt
  have hreads := readsBack_tensor htensor.valid hdtype (by omega)
  have hwhole := hreads []
  rw [List.append_nil] at hwhole
  refine ⟨fun front => load_of_proper_prefix hlength hwhole,
    fun more hmore => load_append hmore (hreads more), fun position byte hposition hne => ?_⟩
  obtain ⟨fault, hfault, hplace⟩ := payloadOf_set_error hposition hne
  refine ⟨fault, ?_, hplace⟩
  rw [load, hfault]
  rfl

theorem framed_of_save_nested : Built (.tensor nestedTensor) ∧ nestedTensor.HasDType .float64 ∧
    save .float64 1000 nestedTensor = .ok savedNested ∧ Framed .float64 1000 savedNested := by
  have hbuilt : Built (.tensor nestedTensor) := .of_tensor nestedTensor_valid
  exact ⟨hbuilt, hasDType_nestedTensor, save_nestedTensor,
    framed_of_save hbuilt hasDType_nestedTensor save_nestedTensor⟩

end

end BlockTensor.Archive
