import BlockTensor.Proofs.Archive.RoundTrip

/-!
# The header of an archive

A header is nine bytes in three fields, which are read in order. `payloadOf_ok`
says that one header is accepted for each element type and that what follows it
is the payload. Any other byte in one of the nine places is a fault of the field
that it is in (`payloadOf_set_error`).
-/

namespace BlockTensor

theorem Varint.ofLittleEndian_inj {left right : Bytes} (hlength : left.length = right.length)
    (h : ofLittleEndian left = ofLittleEndian right) : left = right := by
  induction left generalizing right with
  | nil => exact (List.length_eq_zero_iff.mp hlength.symm).symm
  | cons byte rest ih =>
    cases right with
    | nil => cases hlength
    | cons byte' rest' =>
      have hlt : byte.toNat < 256 := byte.toNat_lt
      have hlt' : byte'.toNat < 256 := byte'.toNat_lt
      simp only [ofLittleEndian] at h
      have hbyte : byte = byte' := UInt8.toNat_inj.mp (by omega)
      rw [hbyte, ih (by simpa using hlength) (by omega)]

namespace Archive

-- ---------------------------------------------------------------------------
-- Fields
-- ---------------------------------------------------------------------------

section
variable {dtype : DType} {first second payload : Bytes} {last : UInt8}

theorem payloadOf_fields (hfirst : first.length = 4) (hsecond : second.length = 4) :
    payloadOf dtype (first ++ (second ++ last :: payload)) = (do
      ensure (first = magic) (.badMagic first)
      ensure (Varint.ofLittleEndian second = version)
        (.unsupportedVersion (Varint.ofLittleEndian second))
      let found ← dtypeOfTag last
      ensure (found = dtype) (.dtypeMismatch dtype found)
      pure payload) := by
  have hlength : headerLength ≤ (first ++ (second ++ last :: payload)).length := by
    simp only [headerLength, List.length_append, List.length_cons]
    omega
  have hdrop : (first ++ (second ++ last :: payload)).drop 8 = last :: payload := by
    rw [← List.append_assoc, List.drop_left' (by rw [List.length_append]; omega)]
  have hpayload : (first ++ (second ++ last :: payload)).drop headerLength = payload := by
    rw [show headerLength = 8 + 1 from rfl, ← List.drop_drop, hdrop, List.drop_one, List.tail_cons]
  simp only [payloadOf, ensure, hlength, ↓reduceIte, List.take_left' hfirst,
    List.drop_left' hfirst, List.take_left' hsecond, hdrop, List.headD_cons, hpayload]
  rfl

theorem exists_fields {bytes : Bytes} (h : headerLength ≤ bytes.length) :
    ∃ first second last payload, first.length = 4 ∧ second.length = 4 ∧
      bytes = first ++ (second ++ last :: payload) := by
  have hlength : 9 ≤ bytes.length := h
  obtain ⟨last, payload, hlast⟩ : ∃ last payload, bytes.drop 8 = last :: payload := by
    refine List.exists_cons_of_ne_nil fun hnil => ?_
    have hshort := List.drop_eq_nil_iff.mp hnil
    omega
  refine ⟨bytes.take 4, (bytes.drop 4).take 4, last, payload, ?_, ?_, ?_⟩
  · rw [List.length_take]
    omega
  · rw [List.length_take, List.length_drop]
    omega
  · rw [← hlast, ← List.drop_drop (i := 4) (j := 4), List.take_append_drop, List.take_append_drop]

theorem dtypeOfTag_ok {tag : UInt8} : dtypeOfTag tag = .ok dtype ↔ tag = Archive.tag dtype := by
  unfold dtypeOfTag
  split
  next h => cases dtype <;> simp [h, Archive.tag]
  next hne =>
    split
    next h => cases dtype <;> simp [h, Archive.tag]
    next hne' => cases dtype <;> simp [hne, hne', Archive.tag]

theorem payloadOf_ok {bytes : Bytes} :
    payloadOf dtype bytes = .ok payload ↔ bytes = header dtype ++ payload := by
  constructor
  · intro h
    have hlength : headerLength ≤ bytes.length := by
      simp only [payloadOf, bind_ok, ensure_ok] at h
      exact h.choose_spec.1
    obtain ⟨first, second, last, rest, hfirst, hsecond, rfl⟩ := exists_fields hlength
    simp only [payloadOf_fields hfirst hsecond, bind_ok, ensure_ok, dtypeOfTag_ok, pure_ok] at h
    obtain ⟨_, rfl, _, hversion, _, rfl, _, rfl, rfl⟩ := h
    have hsame : second = Varint.littleEndian 4 version := by
      refine Varint.ofLittleEndian_inj (hsecond.trans (Varint.length_littleEndian ..).symm) ?_
      rw [hversion, Varint.ofLittleEndian_littleEndian (by decide)]
    rw [hsame, header, List.append_assoc, List.append_assoc, List.singleton_append]
  · rintro rfl
    exact payloadOf_header dtype payload

end

-- ---------------------------------------------------------------------------
-- Changed bytes
-- ---------------------------------------------------------------------------

/-- Whether a fault is what a wrong byte at `position` of a header gives. -/
def Fault.IsAt (position : Nat) : Fault → Prop
  | badMagic _ => position < 4
  | unsupportedVersion _ => 4 ≤ position ∧ position < 8
  | unknownTag _ | dtypeMismatch _ _ => position = 8
  | _ => False

theorem set_ne {bytes : Bytes} {position : Nat} {byte : UInt8} (hposition : position < bytes.length)
    (hne : bytes[position]? ≠ some byte) : bytes.set position byte ≠ bytes := by
  intro h
  rw [← h, List.getElem?_set_self hposition] at hne
  exact hne rfl

section
variable {dtype : DType} {payload : Bytes}

/-- Of the fields before the last one, only their lengths are checked again. -/
theorem payloadOf_other_tag {byte : UInt8} (hne : byte ≠ tag dtype) :
    ∃ fault, payloadOf dtype (magic ++ (Varint.littleEndian 4 version ++ byte :: payload)) =
      .error fault ∧ fault.IsAt 8 := by
  have hversion : Varint.ofLittleEndian (Varint.littleEndian 4 version) = version := rfl
  rw [payloadOf_fields rfl rfl, ensure_of rfl, ensure_of hversion]
  cases h : dtypeOfTag byte with
  | ok found =>
    have hfound : found ≠ dtype := by
      rintro rfl
      exact hne (dtypeOfTag_ok.mp h)
    refine ⟨.dtypeMismatch dtype found, ?_, rfl⟩
    show (do ensure (found = dtype) (Fault.dtypeMismatch dtype found); pure payload) = _
    rw [ensure_of_not hfound]
    rfl
  | error fault =>
    refine ⟨fault, rfl, ?_⟩
    unfold dtypeOfTag at h
    split at h
    · cases h
    · split at h
      · cases h
      · cases h
        rfl

theorem payloadOf_other_version {changed : Bytes} {last : UInt8} (hlength : changed.length = 4)
    (hne : changed ≠ Varint.littleEndian 4 version) :
    payloadOf dtype (magic ++ (changed ++ last :: payload)) =
      .error (.unsupportedVersion (Varint.ofLittleEndian changed)) := by
  -- The bytes of a number are given by the number.
  have hversion : Varint.ofLittleEndian changed ≠ version := fun heq =>
    hne (Varint.ofLittleEndian_inj hlength heq)
  rw [payloadOf_fields rfl hlength, ensure_of rfl, ensure_of_not hversion]
  rfl

theorem payloadOf_other_magic {changed second : Bytes} {last : UInt8} (hlength : changed.length = 4)
    (hsecond : second.length = 4) (hne : changed ≠ magic) :
    payloadOf dtype (changed ++ (second ++ last :: payload)) = .error (.badMagic changed) := by
  rw [payloadOf_fields hlength hsecond, ensure_of_not hne]
  rfl

theorem payloadOf_set_error {position : Nat} {byte : UInt8} (hposition : position < headerLength)
    (hne : (header dtype ++ payload)[position]? ≠ some byte) :
    ∃ fault, payloadOf dtype ((header dtype ++ payload).set position byte) = .error fault ∧
      fault.IsAt position := by
  have hmagic : magic.length = 4 := rfl
  have hversion : (Varint.littleEndian 4 version).length = 4 := rfl
  have hheader : header dtype ++ payload =
      magic ++ (Varint.littleEndian 4 version ++ tag dtype :: payload) := by
    rw [header, List.append_assoc, List.append_assoc, List.singleton_append]
  rw [hheader, List.getElem?_append, hmagic] at hne
  rw [hheader, List.set_append, hmagic]
  split
  next h =>
    rw [if_pos h] at hne
    exact ⟨_, payloadOf_other_magic List.length_set hversion (set_ne h hne), h⟩
  next h =>
    rw [if_neg h, List.getElem?_append, hversion] at hne
    rw [List.set_append, hversion]
    split
    next h' =>
      rw [if_pos h'] at hne
      exact ⟨_, payloadOf_other_version List.length_set (set_ne h' hne), by omega, by omega⟩
    next h' =>
      have hlast : position = 8 := by
        have hlt : position < 9 := hposition
        omega
      subst hlast
      rw [if_neg h'] at hne
      exact payloadOf_other_tag fun heq => hne (congrArg some heq.symm)

end

end Archive

end BlockTensor
