import BlockTensor.Proofs.Archive.RoundTrip

/-!
# The bytes that a reader accepts

Integers have longer forms, so a reader accepts more than what is written. A
form of a value are bytes from which it is read whatever follows them, and no
form is shorter than the written one (`IsForm`). Every reader takes a form off
the front of its input and leaves the rest alone (`Takes`). Of a whole payload
this says two things: writing again what was read never takes more bytes, and
reading does not look past the last byte that it takes.
-/

namespace BlockTensor

namespace Varint

theorem ofLittleEndian_lt (bytes : Bytes) : ofLittleEndian bytes < 256 ^ bytes.length := by
  induction bytes with
  | nil => exact Nat.one_pos
  | cons byte rest ih =>
    have hbyte : byte.toNat < 256 := byte.toNat_lt
    rw [ofLittleEndian, List.length_cons, Nat.pow_succ]
    omega

theorem readFixed?_ok {width n : Nat} {bytes rest : Bytes} :
    readFixed? width bytes = some (n, rest) ↔
      ∃ taken, taken.length = width ∧ bytes = taken ++ rest ∧ n = ofLittleEndian taken := by
  simp only [readFixed?]
  constructor
  · intro h
    split at h
    next hlength =>
      cases h
      exact ⟨_, hlength, (List.take_append_drop ..).symm, rfl⟩
    next => cases h
  · rintro ⟨taken, hlength, rfl, rfl⟩
    rw [List.take_left' hlength, List.drop_left' hlength, if_pos hlength]

theorem length_write (n : Nat) : (write n).length =
    if n < 251 then 1 else if n < 0x10000 then 3 else if n < 0x100000000 then 5 else 9 := by
  unfold write
  split
  · rfl
  · split
    · rw [List.length_cons, length_littleEndian]
    · split <;> rw [List.length_cons, length_littleEndian]

end Varint

namespace Archive

-- ---------------------------------------------------------------------------
-- Forms
-- ---------------------------------------------------------------------------

/-- `read` gives `a` from `taken` and leaves alone what follows, and writing `a`
takes no more bytes. -/
structure IsForm {α : Type} (read : Reader α) (write : α → Bytes) (a : α) (taken : Bytes) :
    Prop where
  reads : ∀ rest, read (taken ++ rest) = some (a, rest)
  shortest : (write a).length ≤ taken.length

/-- Whatever `read` gives stands in the relation `P` to the bytes that it took. -/
def Takes {α : Type} (read : Reader α) (P : α → Bytes → Prop) : Prop :=
  ∀ ⦃bytes a rest⦄, read bytes = some (a, rest) → ∃ taken, bytes = taken ++ rest ∧ P a taken

section
variable {α β γ : Type} {first : Reader α} {second : Reader β}

theorem takes_map {both : Reader β} {f : α → β} {write : β → Bytes} {P : α → Bytes → Prop}
    (hboth : ∀ bytes, both bytes = (first bytes).bind fun (a, bytes) => some (f a, bytes))
    (hreads : ∀ {a taken}, P a taken → ∀ rest, first (taken ++ rest) = some (a, rest))
    (hwrite : ∀ {a taken}, P a taken → (write (f a)).length ≤ taken.length)
    (h : Takes first P) : Takes both (IsForm both write) := by
  intro bytes b rest hb
  rw [hboth, Option.bind_eq_some_iff] at hb
  obtain ⟨⟨a, _⟩, ha, hb⟩ := hb
  cases hb
  obtain ⟨taken, rfl, hP⟩ := h ha
  refine ⟨taken, rfl, fun rest => ?_, hwrite hP⟩
  rw [hboth, hreads hP, Option.bind_some]

section
variable {both : Reader γ} {f : α → β → γ} (hboth : ∀ bytes, both bytes =
  (first bytes).bind fun (a, bytes) => (second bytes).bind fun (b, bytes) => some (f a b, bytes))
include hboth

theorem takes_pair {P : α → Bytes → Prop} {Q : β → Bytes → Prop} (hfirst : Takes first P)
    (hsecond : Takes second Q) : Takes both fun c taken =>
      ∃ a b left right, c = f a b ∧ taken = left ++ right ∧ P a left ∧ Q b right := by
  intro bytes c rest hc
  simp only [hboth, Option.bind_eq_some_iff, Prod.exists] at hc
  obtain ⟨a, _, ha, b, _, hb, hc⟩ := hc
  cases hc
  obtain ⟨left, rfl, hP⟩ := hfirst ha
  obtain ⟨right, rfl, hQ⟩ := hsecond hb
  exact ⟨left ++ right, (List.append_assoc ..).symm, a, b, left, right, rfl, rfl, hP, hQ⟩

theorem isForm_pair {writeFirst : α → Bytes} {writeSecond : β → Bytes} {write : γ → Bytes} {a : α}
    {b : β} {left right : Bytes} (hwrite : write (f a b) = writeFirst a ++ writeSecond b)
    (hleft : IsForm first writeFirst a left) (hright : IsForm second writeSecond b right) :
    IsForm both write (f a b) (left ++ right) where
  reads rest := by
    simp only [hboth, List.append_assoc, hleft.reads, Option.bind_some, hright.reads]
  shortest := by
    rw [hwrite, List.length_append, List.length_append]
    exact Nat.add_le_add hleft.shortest hright.shortest

end

end

-- ---------------------------------------------------------------------------
-- Integers
-- ---------------------------------------------------------------------------

theorem takes_fixed (width : Nat) : Takes (Varint.readFixed? width)
    (IsForm (Varint.readFixed? width) (Varint.littleEndian width)) := by
  intro bytes n rest h
  obtain ⟨taken, hlength, rfl, rfl⟩ := Varint.readFixed?_ok.mp h
  refine ⟨taken, rfl, fun rest => Varint.readFixed?_ok.mpr ⟨taken, hlength, rfl, rfl⟩, ?_⟩
  rw [Varint.length_littleEndian]
  exact Nat.le_of_eq hlength.symm

theorem takes_marked {width : Varint.Width} {size n : Nat} {marker : UInt8} {bytes rest : Bytes}
    (hread : ∀ rest, Varint.read? width (marker :: rest) = Varint.readFixed? size rest)
    (hlimit : 256 ^ size ≤ width.limit)
    (hwrite : ∀ n < 256 ^ size, (Varint.write n).length ≤ size + 1)
    (h : Varint.readFixed? size bytes = some (n, rest)) :
    ∃ taken, marker :: bytes = taken ++ rest ∧ n < width.limit ∧
      IsForm (Varint.read? width) Varint.write n taken := by
  obtain ⟨taken, hlength, rfl, rfl⟩ := Varint.readFixed?_ok.mp h
  have hlt := hlength ▸ Varint.ofLittleEndian_lt taken
  refine ⟨marker :: taken, rfl, Nat.lt_of_lt_of_le hlt hlimit, fun rest => ?_, ?_⟩
  · rw [List.cons_append, hread]
    exact Varint.readFixed?_ok.mpr ⟨taken, hlength, rfl, rfl⟩
  · rw [List.length_cons, hlength]
    exact hwrite _ hlt

theorem takes_varint (width : Varint.Width) : Takes (Varint.read? width) fun n taken =>
    n < width.limit ∧ IsForm (Varint.read? width) Varint.write n taken := by
  intro bytes n rest h
  have hlimit : 256 ^ 4 ≤ width.limit := by cases width <;> decide
  cases bytes with
  | nil => cases h
  | cons marker bytes =>
    simp only [Varint.read?] at h
    split at h
    next hsmall =>
      cases h
      have hlt : marker.toNat < 251 := UInt8.lt_iff_toNat_lt.mp hsmall
      refine ⟨[marker], rfl, by omega, fun rest => by simp [Varint.read?, hsmall], ?_⟩
      rw [Varint.length_write, if_pos hlt]
      exact Nat.le_refl 1
    next =>
      split at h
      next heq =>
        subst heq
        refine takes_marked (fun _ => rfl) (by omega) (fun n hn => ?_) h
        rw [Varint.length_write]
        split_ifs <;> omega
      next =>
        split at h
        next heq =>
          subst heq
          refine takes_marked (fun _ => rfl) hlimit (fun n hn => ?_) h
          rw [Varint.length_write]
          split_ifs <;> omega
        next =>
          split at h
          next heq =>
            obtain ⟨rfl, rfl⟩ := heq
            refine takes_marked (fun _ => rfl) (Nat.le_refl _) (fun n hn => ?_) h
            rw [Varint.length_write]
            split_ifs <;> omega
          next => cases h

theorem takes_count :
    Takes (Varint.read? .word64) (IsForm (Varint.read? .word64) Varint.write) := by
  intro bytes n rest h
  obtain ⟨taken, hbytes, -, hform⟩ := takes_varint .word64 h
  exact ⟨taken, hbytes, hform⟩

-- ---------------------------------------------------------------------------
-- Lists and texts
-- ---------------------------------------------------------------------------

section
variable {α : Type} {read : Reader α} {write : α → Bytes} {items : List α}

theorem takes_many {P : α → Bytes → Prop} (h : Takes read P) {count : Nat} {bytes rest : Bytes}
    (hmany : readMany read count bytes = some (items, rest)) :
    ∃ pieces, items.length = count ∧ bytes = pieces.flatten ++ rest ∧
      List.Forall₂ P items pieces := by
  induction count generalizing bytes items with
  | zero =>
    cases hmany
    exact ⟨[], rfl, rfl, .nil⟩
  | succ count ih =>
    simp only [readMany, Option.bind_eq_bind, Option.bind_eq_some_iff, Prod.exists] at hmany
    obtain ⟨item, bytes', hitem, others, _, hothers, hmany⟩ := hmany
    cases hmany
    obtain ⟨taken, rfl, hP⟩ := h hitem
    obtain ⟨pieces, rfl, rfl, hpieces⟩ := ih hothers
    exact ⟨taken :: pieces, rfl, by simp, .cons hP hpieces⟩

theorem takes_list {P : α → Bytes → Prop} (h : Takes read P) :
    Takes (readList read) fun items taken => ∃ head pieces, taken = head ++ pieces.flatten ∧
      IsForm (Varint.read? .word64) Varint.write items.length head ∧
      List.Forall₂ P items pieces := by
  intro bytes items rest hlist
  simp only [readList, Option.bind_eq_bind, Option.bind_eq_some_iff, Prod.exists] at hlist
  obtain ⟨count, bytes', hcount, hitems⟩ := hlist
  obtain ⟨head, rfl, hhead⟩ := takes_count hcount
  obtain ⟨pieces, rfl, rfl, hpieces⟩ := takes_many h hitems
  exact ⟨head ++ pieces.flatten, (List.append_assoc ..).symm, head, pieces, rfl, hhead, hpieces⟩

theorem isForm_many {pieces : List Bytes} (h : List.Forall₂ (IsForm read write) items pieces) :
    (∀ rest, readMany read items.length (pieces.flatten ++ rest) = some (items, rest)) ∧
      (items.flatMap write).length ≤ pieces.flatten.length := by
  induction h with
  | nil => exact ⟨fun _ => rfl, Nat.le_refl _⟩
  | @cons item taken items pieces hitem _ ih =>
    obtain ⟨hreads, hshortest⟩ := ih
    constructor
    · intro rest
      simp [readMany, hitem.reads, hreads]
    · have hfirst := hitem.shortest
      simp only [List.flatMap_cons, List.flatten_cons, List.length_append]
      omega

theorem isForm_list {head : Bytes} {pieces : List Bytes}
    (hcount : IsForm (Varint.read? .word64) Varint.write items.length head)
    (hitems : List.Forall₂ (IsForm read write) items pieces) :
    IsForm (readList read) (writeList write) items (head ++ pieces.flatten) where
  reads rest := by
    simp only [readList, Option.bind_eq_bind]
    rw [List.append_assoc, hcount.reads, Option.bind_some]
    exact (isForm_many hitems).1 rest
  shortest := by
    have hhead := hcount.shortest
    have hrest := (isForm_many hitems).2
    simp only [writeList, List.length_append]
    omega

theorem takes_forms (h : Takes read (IsForm read write)) :
    Takes (readList read) (IsForm (readList read) (writeList write)) := by
  intro bytes items rest hlist
  obtain ⟨_, hbytes, head, pieces, rfl, hcount, hitems⟩ := takes_list h hlist
  exact ⟨_, hbytes, isForm_list hcount hitems⟩

end

theorem toUTF8_of_fromUTF8? {bytes : ByteArray} {text : String}
    (h : String.fromUTF8? bytes = some text) : text.toUTF8 = bytes := by
  simp only [String.fromUTF8?] at h
  split at h
  next =>
    cases h
    rfl
  next => cases h

theorem takes_text : Takes readText (IsForm readText writeText) := by
  intro bytes text rest h
  simp only [readText, Option.bind_eq_bind, Option.bind_eq_some_iff, Prod.exists] at h
  obtain ⟨count, bytes', hcount, h⟩ := h
  obtain ⟨head, rfl, hhead⟩ := takes_count hcount
  split at h
  next hlength =>
    obtain ⟨text, htext, h⟩ := Option.bind_eq_some_iff.mp h
    cases h
    have hwritten := toUTF8_of_fromUTF8? htext
    refine ⟨head ++ bytes'.take count, by simp, fun rest => ?_, ?_⟩
    · simp only [readText, Option.bind_eq_bind, List.append_assoc]
      rw [hhead.reads, Option.bind_some, List.take_left' hlength, List.drop_left' hlength,
        if_pos hlength, htext, Option.bind_some]
    · have hsize : text.utf8ByteSize = count := by
        rw [← length_toUTF8, hwritten, hlength]
      have hshortest := hhead.shortest
      rw [length_writeText, hsize, List.length_append, hlength]
      omega
  next => cases h

-- ---------------------------------------------------------------------------
-- Labels
-- ---------------------------------------------------------------------------

theorem zigzag_unzigzag (n : Nat) : Varint.zigzag (Varint.unzigzag n) = n := by
  unfold Varint.zigzag Varint.unzigzag
  split <;> split <;> omega

theorem takes_labelValue : Takes readLabelValue (IsForm readLabelValue writeLabelValue) := by
  refine takes_map (f := fun n => Int32.ofInt (Varint.unzigzag n)) (fun _ => rfl)
    (fun h => h.2.reads) (fun {n taken} h => ?_) (takes_varint .word32)
  obtain ⟨hlimit, hform⟩ := h
  have hvalue : (Int32.ofInt (Varint.unzigzag n)).toInt = Varint.unzigzag n := by
    have hn : n < 0x100000000 := hlimit
    refine Int32.toInt_ofInt_of_le ?_ ?_ <;> unfold Varint.unzigzag <;> split <;> omega
  rw [writeLabelValue, hvalue, zigzag_unzigzag]
  exact hform.shortest

theorem takes_labels : Takes readLabels (IsForm readLabels writeLabels) := by
  intro bytes record rest h
  obtain ⟨_, hbytes, names, values, left, right, rfl, rfl, hnames, hvalues⟩ :=
    takes_pair (fun _ => rfl) (takes_forms takes_text) (takes_forms takes_labelValue) h
  exact ⟨_, hbytes, isForm_pair (fun _ => rfl) rfl hnames hvalues⟩

-- ---------------------------------------------------------------------------
-- Arrays
-- ---------------------------------------------------------------------------

theorem takes_single : Takes readSingle (IsForm readSingle writeSingle) := by
  refine takes_map (f := fun n => ⟨UInt32.ofNat n⟩) (fun _ => rfl) IsForm.reads (fun h => ?_)
    (takes_fixed 4)
  simpa only [writeSingle, Varint.length_littleEndian] using h.shortest

theorem takes_double : Takes readDouble (IsForm readDouble writeDouble) := by
  refine takes_map (f := fun n => ⟨UInt64.ofNat n⟩) (fun _ => rfl) IsForm.reads (fun h => ?_)
    (takes_fixed 8)
  simpa only [writeDouble, Varint.length_littleEndian] using h.shortest

theorem takes_values (dtype : DType) : Takes (readValues dtype) fun values taken =>
    values.dtype = dtype ∧ IsForm (readValues dtype) writeValues values taken := by
  intro bytes values rest h
  cases dtype with
  | float32 =>
    obtain ⟨_, hbytes, shape, data, left, right, rfl, rfl, hshape, hdata⟩ :=
      takes_pair (f := fun shape data => Values.float32 ⟨shape, data⟩) (fun _ => rfl)
        (takes_forms takes_count) (takes_forms takes_single) h
    exact ⟨_, hbytes, rfl, isForm_pair (f := fun shape data => Values.float32 ⟨shape, data⟩)
      (fun _ => rfl) rfl hshape hdata⟩
  | float64 =>
    obtain ⟨_, hbytes, shape, data, left, right, rfl, rfl, hshape, hdata⟩ :=
      takes_pair (f := fun shape data => Values.float64 ⟨shape, data⟩) (fun _ => rfl)
        (takes_forms takes_count) (takes_forms takes_double) h
    exact ⟨_, hbytes, rfl, isForm_pair (f := fun shape data => Values.float64 ⟨shape, data⟩)
      (fun _ => rfl) rfl hshape hdata⟩

-- ---------------------------------------------------------------------------
-- Blocks
-- ---------------------------------------------------------------------------

/-- What is known of bytes from which a block was read. Every level of
gradients takes a byte, so their number bounds the depth that is needed. -/
structure BlockForm (dtype : DType) (record : BlockRecord) (taken : Bytes) : Prop where
  hasDType : ∀ block, record.block = .ok block → block.HasDType dtype
  form : ∀ depth, taken.length ≤ depth → IsForm (readBlock dtype depth) writeBlock record taken

theorem hasDType_of_block {dtype : DType} {record : BlockRecord} {block : Block}
    (hvalues : record.values.dtype = dtype)
    (hgradients : ∀ item ∈ record.gradients.toList, ∀ gradient,
      item.2.block = .ok gradient → gradient.HasDType dtype)
    (h : record.block = .ok block) : block.HasDType dtype := by
  obtain ⟨values, _, _, _, items, hchecked, -, -, -, hitems, hassemble⟩ := block_ok.mp h
  obtain ⟨-, -, rfl⟩ := Block.assemble_ok.mp hassemble
  obtain ⟨rfl, -⟩ := Values.checked_ok.mp hchecked
  refine Block.hasDType_iff.mpr ⟨hvalues, fun item hmem => ?_⟩
  rw [Gradients.toList_ofList] at hmem
  obtain ⟨old, hold, -, hnew⟩ := exists_of_forall₂ hitems hmem
  exact hgradients old hold _ hnew

/-- What is known of each of several stretches of bytes, and that none is longer
than all of them together. -/
theorem forall₂_length_le {α : Type} {P : α → Bytes → Prop} {items : List α} {pieces : List Bytes}
    {bound : Nat} (h : List.Forall₂ P items pieces) (hbound : pieces.flatten.length ≤ bound) :
    List.Forall₂ (fun item taken => P item taken ∧ taken.length ≤ bound) items pieces := by
  induction h with
  | nil => exact .nil
  | cons hitem _ ih =>
    rw [List.flatten_cons, List.length_append] at hbound
    exact .cons ⟨hitem, by omega⟩ (ih (by omega))

def GradientForm (dtype : DType) (item : String × BlockRecord) (taken : Bytes) : Prop :=
  ∃ left right, taken = left ++ right ∧ IsForm readText writeText item.1 left ∧
    BlockForm dtype item.2 right

theorem takes_gradient {dtype : DType} {read : Reader BlockRecord}
    (h : Takes read (BlockForm dtype)) : Takes (readGradient read) (GradientForm dtype) := by
  intro bytes item rest hitem
  obtain ⟨taken, hbytes, _, _, left, right, rfl, htaken, hleft, hright⟩ :=
    takes_pair (f := Prod.mk) (fun _ => rfl) takes_text h hitem
  exact ⟨taken, hbytes, left, right, htaken, hleft, hright⟩

theorem GradientForm.isForm {dtype : DType} {item : String × BlockRecord} {taken : Bytes}
    (h : GradientForm dtype item taken) {depth : Nat} (hdepth : taken.length ≤ depth) :
    IsForm (readGradient (readBlock dtype depth)) writeGradient item taken := by
  obtain ⟨left, right, rfl, hleft, hright⟩ := h
  rw [List.length_append] at hdepth
  exact isForm_pair (f := Prod.mk) (fun _ => rfl) rfl hleft (hright.form depth (by omega))

section
variable {dtype : DType} {record : BlockRecord} {first second third fourth fifth : Bytes}

theorem isForm_block {depth : Nat}
    (hvalues : IsForm (readValues dtype) writeValues record.values first)
    (hsamples : IsForm readLabels writeLabels record.samples second)
    (hcomponents : IsForm (readList readLabels) (writeList writeLabels) record.components third)
    (hproperties : IsForm readLabels writeLabels record.properties fourth)
    (hgradients : IsForm (readList (readGradient (readBlock dtype depth)))
      (writeList writeGradient) record.gradients.toList fifth) :
    IsForm (readBlock dtype (depth + 1)) writeBlock record
      (first ++ (second ++ (third ++ (fourth ++ fifth)))) where
  reads rest := by
    simp only [readBlock, List.append_assoc, Option.bind_eq_bind]
    rw [hvalues.reads, Option.bind_some, hsamples.reads, Option.bind_some, hcomponents.reads,
      Option.bind_some, hproperties.reads, Option.bind_some, hgradients.reads, Option.bind_some,
      GradientRecords.ofList_toList]
    cases record
    rfl
  shortest := by
    have hfirst := hvalues.shortest
    have hsecond := hsamples.shortest
    have hthird := hcomponents.shortest
    have hfourth := hproperties.shortest
    have hfifth := hgradients.shortest
    rw [writeBlock_eq]
    simp only [List.length_append]
    omega

end

theorem takes_block (dtype : DType) (depth : Nat) :
    Takes (readBlock dtype depth) (BlockForm dtype) := by
  induction depth with
  | zero =>
    intro bytes record rest h
    cases h
  | succ depth ih =>
    intro bytes record rest h
    simp only [readBlock, Option.bind_eq_bind, Option.bind_eq_some_iff, Prod.exists] at h
    obtain ⟨values, _, hvalues, samples, _, hsamples, components, _, hcomponents, properties, _,
      hproperties, gradients, _, hgradients, h⟩ := h
    cases h
    obtain ⟨first, rfl, hdtype, hfirst⟩ := takes_values dtype hvalues
    obtain ⟨second, rfl, hsecond⟩ := takes_labels hsamples
    obtain ⟨third, rfl, hthird⟩ := takes_forms takes_labels hcomponents
    obtain ⟨fourth, rfl, hfourth⟩ := takes_labels hproperties
    obtain ⟨_, rfl, head, pieces, rfl, hcount, hitems⟩ := takes_list (takes_gradient ih) hgradients
    refine ⟨first ++ (second ++ (third ++ (fourth ++ (head ++ pieces.flatten)))),
      by simp only [List.append_assoc], fun block hblock => ?_, fun limit hlimit => ?_⟩
    · refine hasDType_of_block hdtype (fun item hmem => ?_) hblock
      rw [GradientRecords.toList_ofList] at hmem
      obtain ⟨_, -, _, _, -, -, hform⟩ := exists_of_forall₂ hitems.flip hmem
      exact hform.hasDType
    · -- The count of the gradients takes a byte, so one depth less is enough for them.
      have hpos := Varint.length_write_pos gradients.length
      have hhead := hcount.shortest
      simp only [List.length_append] at hlimit
      obtain ⟨limit, rfl⟩ : ∃ n, limit = n + 1 := ⟨limit - 1, by omega⟩
      have hforms := (forall₂_length_le hitems (show _ ≤ limit by omega)).imp
        fun _ _ hitem => hitem.1.isForm hitem.2
      rw [← GradientRecords.toList_ofList gradients] at hcount hforms
      exact isForm_block hfirst hsecond hthird hfourth (isForm_list hcount hforms)

-- ---------------------------------------------------------------------------
-- Tensors
-- ---------------------------------------------------------------------------

theorem takes_tensor (dtype : DType) : Takes (readTensor dtype) fun record taken =>
    (∀ tensor, record.tensor = .ok tensor → tensor.HasDType dtype) ∧
      IsForm (readTensor dtype) writeTensor record taken := by
  intro bytes record rest h
  simp only [readTensor, Option.bind_eq_bind, Option.bind_eq_some_iff, Prod.exists] at h
  obtain ⟨keys, _, hkeys, blocks, _, hblocks, h⟩ := h
  cases h
  obtain ⟨first, rfl, hfirst⟩ := takes_labels hkeys
  obtain ⟨_, rfl, head, pieces, rfl, hcount, hitems⟩ := takes_list (takes_block dtype _) hblocks
  refine ⟨first ++ (head ++ pieces.flatten), by simp only [List.append_assoc],
    fun tensor htensor => ?_, ?_⟩
  · obtain ⟨-, hmade⟩ := parts_of_tensor htensor
    intro block hblock
    obtain ⟨old, hold, hnew⟩ := exists_of_forall₂ hmade hblock
    obtain ⟨_, -, hform⟩ := exists_of_forall₂ hitems.flip hold
    exact hform.hasDType block hnew
  · have hforms {depth : Nat} (hdepth : pieces.flatten.length ≤ depth) :=
      isForm_list hcount ((forall₂_length_le hitems hdepth).imp fun _ _ h => h.1.form depth h.2)
    constructor
    · intro rest
      simp only [readTensor, List.append_assoc, Option.bind_eq_bind]
      rw [hfirst.reads, Option.bind_some, ← List.append_assoc head, (hforms ?_).reads,
        Option.bind_some]
      simp only [List.length_append]
      omega
    · have hkeys := hfirst.shortest
      have hblocks := (hforms (Nat.le_refl _)).shortest
      simp only [writeTensor, List.length_append] at hblocks ⊢
      omega

end Archive

end BlockTensor
