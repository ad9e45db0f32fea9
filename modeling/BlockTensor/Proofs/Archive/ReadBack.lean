import BlockTensor.Archive.Payload
import BlockTensor.Proofs.ArrayLaws
import Mathlib.Algebra.Group.Nat.Defs

/-!
# What a writer writes is read back

`ReadsBack read write a` says that `read` gives `a` and exactly the bytes that
follow what `write` wrote. It holds of every part of a payload that is not too
large: counts are 64-bit words, so a list may not be longer than one can count.
Every item takes at least one byte, and so the length of what was written
bounds every count in it.
-/

namespace BlockTensor

namespace Varint

-- ---------------------------------------------------------------------------
-- Integers
-- ---------------------------------------------------------------------------

theorem length_littleEndian (width n : Nat) : (littleEndian width n).length = width := by
  induction width generalizing n with
  | zero => rfl
  | succ width ih => simp [littleEndian, ih]

theorem ofLittleEndian_littleEndian {width n : Nat} (h : n < 256 ^ width) :
    ofLittleEndian (littleEndian width n) = n := by
  induction width generalizing n with
  | zero =>
    have hzero : n = 0 := by simpa using h
    rw [hzero]
    rfl
  | succ width ih =>
    rw [Nat.pow_succ] at h
    have hbyte : (UInt8.ofNat (n % 256)).toNat = n % 256 :=
      UInt8.toNat_ofNat_of_lt' (Nat.mod_lt _ (by decide))
    rw [littleEndian, ofLittleEndian, hbyte, ih (by omega)]
    omega

theorem readFixed?_littleEndian {width n : Nat} (h : n < 256 ^ width) (rest : Bytes) :
    readFixed? width (littleEndian width n ++ rest) = some (n, rest) := by
  have hlength := length_littleEndian width n
  rw [readFixed?, List.take_left' hlength, List.drop_left' hlength]
  simp only [hlength, ↓reduceIte, ofLittleEndian_littleEndian h]

def Width.limit : Width → Nat
  | word32 => 0x100000000
  | word64 => wordLimit

theorem read?_write {width : Width} {n : Nat} (h : n < width.limit) (rest : Bytes) :
    read? width (write n ++ rest) = some (n, rest) := by
  have hword : n < 256 ^ 8 := by
    cases width with
    | word32 => exact Nat.lt_trans h (by decide)
    | word64 => exact h
  unfold write
  split
  next hn =>
    have hbyte : (UInt8.ofNat n).toNat = n :=
      UInt8.toNat_ofNat_of_lt' (Nat.lt_trans hn (by decide))
    have hsmall : UInt8.ofNat n < 251 := UInt8.lt_iff_toNat_lt.mpr (by rw [hbyte]; exact hn)
    simp [read?, hsmall, hbyte]
  next =>
    split
    next hn =>
      simp [read?, readFixed?_littleEndian (show n < 256 ^ 2 by omega)]
    next =>
      split
      next hn =>
        simp [read?, readFixed?_littleEndian (show n < 256 ^ 4 by omega)]
      next hn =>
        -- The widest marker, which a reader of 32-bit words refuses.
        cases width with
        | word32 => exact absurd h hn
        | word64 => simp [read?, readFixed?_littleEndian hword]

theorem length_write_pos (n : Nat) : 0 < (write n).length := by
  unfold write
  split
  · simp
  · split
    · simp
    · split <;> simp

theorem unzigzag_zigzag (value : Int) : unzigzag (zigzag value) = value := by
  unfold unzigzag zigzag
  split <;> split <;> omega

end Varint

namespace Archive

def ReadsBack {α : Type} (read : Reader α) (write : α → Bytes) (a : α) : Prop :=
  ∀ rest, read (write a ++ rest) = some (a, rest)

theorem readsBack_count {n : Nat} (h : n < wordLimit) :
    ReadsBack (Varint.read? .word64) Varint.write n := by
  have hlimit : n < Varint.Width.word64.limit := h
  exact Varint.read?_write hlimit

-- ---------------------------------------------------------------------------
-- Lists and texts
-- ---------------------------------------------------------------------------

section
variable {α : Type} {read : Reader α} {write : α → Bytes} {items : List α}

theorem readMany_flatMap (h : ∀ item ∈ items, ReadsBack read write item) (rest : Bytes) :
    readMany read items.length (items.flatMap write ++ rest) = some (items, rest) := by
  induction items with
  | nil => rfl
  | cons item others ih =>
    have hitem := h item List.mem_cons_self
    have hothers := ih fun other hmem => h other (List.mem_cons_of_mem _ hmem)
    simp only [List.length_cons, List.flatMap_cons, List.append_assoc, readMany]
    simp [hitem (others.flatMap write ++ rest), hothers]

theorem length_le_flatMap (h : ∀ item ∈ items, 0 < (write item).length) :
    items.length ≤ (items.flatMap write).length := by
  induction items with
  | nil => simp
  | cons item rest ih =>
    have hitem := h item List.mem_cons_self
    have hrest := ih fun other hmem => h other (List.mem_cons_of_mem _ hmem)
    simp only [List.length_cons, List.flatMap_cons, List.length_append]
    omega

theorem length_write_le_writeList (write : α → Bytes) {item : α} (hmem : item ∈ items) :
    (write item).length ≤ (writeList write items).length := by
  obtain ⟨before, after, rfl⟩ := List.append_of_mem hmem
  simp only [writeList, List.flatMap_append, List.flatMap_cons, List.length_append]
  omega

theorem readsBack_list (h : ∀ item ∈ items, ReadsBack read write item)
    (hpos : ∀ item ∈ items, 0 < (write item).length)
    (hlength : (writeList write items).length < wordLimit) :
    ReadsBack (readList read) (writeList write) items := by
  intro rest
  have hcount : items.length < wordLimit := by
    have hle := length_le_flatMap hpos
    simp only [writeList, List.length_append] at hlength
    omega
  simp only [readList, writeList, List.append_assoc, Option.bind_eq_bind]
  rw [readsBack_count hcount, Option.bind_some]
  exact readMany_flatMap h rest

end

theorem length_toUTF8 (text : String) : text.toUTF8.data.toList.length = text.utf8ByteSize := by
  rw [Array.length_toList]
  rfl

theorem fromUTF8?_toUTF8 (text : String) : String.fromUTF8? text.toUTF8 = some text :=
  dif_pos text.isValidUTF8

theorem length_writeText (text : String) :
    (writeText text).length = (Varint.write text.utf8ByteSize).length + text.utf8ByteSize := by
  rw [writeText, List.length_append, length_toUTF8]

theorem length_writeText_pos (text : String) : 0 < (writeText text).length := by
  have hpos := Varint.length_write_pos text.utf8ByteSize
  rw [length_writeText]
  omega

theorem readsBack_text {text : String} (h : (writeText text).length < wordLimit) :
    ReadsBack readText writeText text := by
  intro rest
  have hcount : text.utf8ByteSize < wordLimit := by
    rw [length_writeText] at h
    omega
  have hlength := length_toUTF8 text
  simp only [readText, writeText, List.append_assoc, Option.bind_eq_bind]
  rw [readsBack_count hcount, Option.bind_some, List.take_left' hlength, List.drop_left' hlength,
    if_pos hlength, Array.toArray_toList, fromUTF8?_toUTF8, Option.bind_some]

-- ---------------------------------------------------------------------------
-- Labels
-- ---------------------------------------------------------------------------

theorem readsBack_labelValue (value : LabelValue) :
    ReadsBack readLabelValue writeLabelValue value := by
  intro rest
  have hle := value.le_toInt
  have hlt := value.toInt_lt
  have hnumber : Varint.zigzag value.toInt < Varint.Width.word32.limit := by
    simp only [Varint.zigzag, Varint.Width.limit]
    split <;> omega
  simp only [readLabelValue, writeLabelValue, Option.bind_eq_bind]
  rw [Varint.read?_write hnumber, Option.bind_some, Varint.unzigzag_zigzag, Int32.ofInt_toInt]

theorem readsBack_labels {record : LabelsRecord} (h : (writeLabels record).length < wordLimit) :
    ReadsBack readLabels writeLabels record := by
  intro rest
  simp only [writeLabels, List.length_append] at h
  have hnames : ReadsBack (readList readText) (writeList writeText) record.names := by
    refine readsBack_list (fun name hmem => readsBack_text ?_)
      (fun name _ => length_writeText_pos name) (by omega)
    have hname := length_write_le_writeList writeText hmem
    omega
  have hvalues : ReadsBack (readList readLabelValue) (writeList writeLabelValue) record.values :=
    readsBack_list (fun value _ => readsBack_labelValue value)
      (fun _ _ => Varint.length_write_pos _) (by omega)
  simp only [readLabels, writeLabels, List.append_assoc, Option.bind_eq_bind]
  rw [hnames, Option.bind_some, hvalues, Option.bind_some]

theorem length_writeLabels_pos (record : LabelsRecord) : 0 < (writeLabels record).length := by
  have hpos := Varint.length_write_pos record.names.length
  simp only [writeLabels, writeList, List.length_append]
  omega

-- ---------------------------------------------------------------------------
-- Arrays
-- ---------------------------------------------------------------------------

theorem readsBack_single (x : Single) : ReadsBack readSingle writeSingle x := by
  intro rest
  have hbits : x.bits.toNat < 256 ^ 4 := x.bits.toNat_lt
  simp only [readSingle, writeSingle, Option.bind_eq_bind]
  rw [Varint.readFixed?_littleEndian hbits, Option.bind_some, UInt32.ofNat_toNat]

theorem readsBack_double (x : Double) : ReadsBack readDouble writeDouble x := by
  intro rest
  have hbits : x.bits.toNat < 256 ^ 8 := x.bits.toNat_lt
  simp only [readDouble, writeDouble, Option.bind_eq_bind]
  rw [Varint.readFixed?_littleEndian hbits, Option.bind_some, UInt64.ofNat_toNat]

theorem readsBack_shape {shape : List Nat} (hlengths : ∀ length ∈ shape, length < wordLimit)
    (h : (writeList Varint.write shape).length < wordLimit) :
    ReadsBack (readList (Varint.read? .word64)) (writeList Varint.write) shape :=
  readsBack_list (fun length hmem => readsBack_count (hlengths length hmem))
    (fun length _ => Varint.length_write_pos length) h

theorem readsBack_values {values : Values} (hvalid : values.Valid)
    (h : (writeValues values).length < wordLimit) :
    ReadsBack (readValues values.dtype) writeValues values := by
  intro rest
  have hlimit : sizeLimit < wordLimit := by decide
  have hlengths : ∀ length ∈ values.shape, length < wordLimit :=
    fun length hmem => Nat.lt_trans (hvalid.length_lt hmem) hlimit
  cases values with
  | float32 a =>
    simp only [writeValues, List.length_append] at h
    have hshape := readsBack_shape (show ∀ length ∈ a.shape, length < wordLimit from hlengths)
      (by omega)
    have hdata : ReadsBack (readList readSingle) (writeList writeSingle) a.data :=
      readsBack_list (fun x _ => readsBack_single x)
        (fun x _ => by rw [writeSingle, Varint.length_littleEndian]; decide) (by omega)
    simp only [readValues, writeValues, Values.dtype, List.append_assoc, Option.bind_eq_bind]
    rw [hshape, Option.bind_some, hdata, Option.bind_some]
  | float64 a =>
    simp only [writeValues, List.length_append] at h
    have hshape := readsBack_shape (show ∀ length ∈ a.shape, length < wordLimit from hlengths)
      (by omega)
    have hdata : ReadsBack (readList readDouble) (writeList writeDouble) a.data :=
      readsBack_list (fun x _ => readsBack_double x)
        (fun x _ => by rw [writeDouble, Varint.length_littleEndian]; decide) (by omega)
    simp only [readValues, writeValues, Values.dtype, List.append_assoc, Option.bind_eq_bind]
    rw [hshape, Option.bind_some, hdata, Option.bind_some]

end Archive

end BlockTensor
