import BlockTensor.Block.Values
import BlockTensor.Proofs.ArrayLaws
import BlockTensor.Proofs.Attach
import BlockTensor.Proofs.LabelLaws
import BlockTensor.Tensor.Arithmetic

/-!
# Valid blocks are kept

`valid_iff` opens `Block.Valid` by one level and `assemble_valid` closes it
again: a block assembled from valid parts is valid. Each operation on blocks
has one lemma that shows it as an assembly (`mapArrays_ok`, `add_ok`,
`keepSamples_ok`, `keepProperties_ok`); that its results are valid follows by
induction on the nesting of gradients. `withValues` alone copies gradients
past the checks, and needs the element type kept.
-/

namespace BlockTensor.Block

-- ---------------------------------------------------------------------------
-- One level
-- ---------------------------------------------------------------------------

structure Labelled (block : Block) : Prop where
  values : block.values.Valid
  samples : block.samples.Valid
  components : ∀ c ∈ block.components, c.Valid
  properties : block.properties.Valid
  axes : AxesFit block.values.shape block.samples block.components block.properties

theorem valid_iff {block : Block} :
    block.Valid ↔ block.Labelled ∧ block.gradients.parameters.Nodup ∧
      "values" ∉ block.gradients.parameters ∧
      ∀ item ∈ block.gradients.toList, block.Fits item.2 ∧ item.2.Valid := by
  cases block with
  | mk values samples components properties gradients =>
    simp only [Valid, Gradients.allValid_iff]
    constructor
    · rintro ⟨hvalues, hsamples, hcomponents, hproperties, haxes, hdistinct, hreserved, hfits, hall⟩
      exact ⟨⟨hvalues, hsamples, hcomponents, hproperties, haxes⟩, hdistinct, hreserved,
        fun item hmem => ⟨hfits item hmem, hall item hmem⟩⟩
    · rintro ⟨⟨hvalues, hsamples, hcomponents, hproperties, haxes⟩, hdistinct, hreserved, hall⟩
      exact ⟨hvalues, hsamples, hcomponents, hproperties, haxes, hdistinct, hreserved,
        fun item hmem => (hall item hmem).1, fun item hmem => (hall item hmem).2⟩

theorem Valid.labelled {block : Block} (h : block.Valid) : block.Labelled := (valid_iff.mp h).1

theorem Valid.distinct {block : Block} (h : block.Valid) : block.gradients.parameters.Nodup :=
  (valid_iff.mp h).2.1

theorem Valid.gradient {block : Block} (h : block.Valid) {item : String × Block}
    (hmem : item ∈ block.gradients.toList) : block.Fits item.2 ∧ item.2.Valid :=
  (valid_iff.mp h).2.2.2 item hmem

theorem assemble_valid {values : Values} {samples : Labels} {components : List Labels}
    {properties : Labels} {items : List (String × Block)} {result : Block}
    (hvalues : values.Valid) (hsamples : samples.Valid) (hcomponents : ∀ c ∈ components, c.Valid)
    (hproperties : properties.Valid) (hitems : ∀ item ∈ items, item.2.Valid)
    (h : assemble values samples components properties items = .ok result) : result.Valid := by
  obtain ⟨haxes, haccepts, rfl⟩ := assemble_ok.mp h
  rw [valid_iff]
  simp only [Gradients.parameters_eq_map_toList, Gradients.toList_ofList]
  exact ⟨⟨hvalues, hsamples, hcomponents, hproperties, haxes⟩, haccepts.distinct,
    haccepts.reserved, fun item hmem =>
      ⟨fits_with_gradients.mpr (haccepts.fits item hmem), hitems item hmem⟩⟩

theorem assemble_rebuilt_valid {α ε : Type} {f : String × α → Except ε Block} {values : Values}
    {samples : Labels} {components : List Labels} {properties : Labels} {olds : List (String × α)}
    {items : List (String × Block)} {result : Block} (hvalues : values.Valid)
    (hsamples : samples.Valid) (hcomponents : ∀ c ∈ components, c.Valid)
    (hproperties : properties.Valid) (hf : ∀ old ∈ olds, ∀ new, f old = .ok new → new.Valid)
    (hitems : List.Forall₂ (Rebuilds f) olds items)
    (h : assemble values samples components properties items = .ok result) : result.Valid := by
  refine assemble_valid hvalues hsamples hcomponents hproperties (fun item hmem => ?_) h
  obtain ⟨old, hold, -, hnew⟩ := exists_of_forall₂ hitems hmem
  exact hf old hold _ hnew

/-- Valid gradients are accepted by their own parent, before it has any. -/
theorem Valid.assemble {block : Block} (h : block.Valid) :
    assemble block.values block.samples block.components block.properties
      block.gradients.toList = .ok block := by
  obtain ⟨hlabelled, hdistinct, hreserved, hgradients⟩ := valid_iff.mp h
  cases block
  rw [Gradients.parameters_eq_map_toList] at hdistinct hreserved
  exact assemble_ok.mpr ⟨hlabelled.axes, ⟨hdistinct, hreserved, by simp [Gradients.parameters],
    fun item hmem => fits_with_gradients.mp (hgradients item hmem).1⟩,
    by rw [Gradients.ofList_toList]⟩

theorem make_valid {values : Values} {samples : Labels} {components : List Labels}
    {properties : Labels} {block : Block} (hvalues : values.Valid) (hsamples : samples.Valid)
    (hcomponents : ∀ c ∈ components, c.Valid) (hproperties : properties.Valid)
    (h : make values samples components properties = .ok block) : block.Valid := by
  obtain ⟨haxes, rfl⟩ := make_ok.mp h
  rw [valid_iff]
  exact ⟨⟨hvalues, hsamples, hcomponents, hproperties, haxes⟩, by simp [Gradients.parameters],
    by simp [Gradients.parameters], by simp [Gradients.toList]⟩

theorem addGradient_valid {block gradient result : Block} {parameter : String}
    (hblock : block.Valid) (hgradient : gradient.Valid)
    (h : block.addGradient parameter gradient = .ok result) : result.Valid := by
  obtain ⟨hreserved, hnew, hfits, rfl⟩ := addGradient_ok.mp h
  obtain ⟨⟨hvalues, hsamples, hcomponents, hproperties, haxes⟩, hdistinct, hvaluesName, hall⟩ :=
    valid_iff.mp hblock
  rw [valid_iff]
  simp only [Gradients.parameters_eq_map_toList, Gradients.toList_push, List.map_append,
    List.map_cons, List.map_nil] at hdistinct hvaluesName hnew ⊢
  refine ⟨⟨hvalues, hsamples, hcomponents, hproperties, haxes⟩, ?_, ?_, ?_⟩
  · exact List.nodup_append.mpr ⟨hdistinct, by simp, by
      rintro a ha b hb rfl
      exact hnew (List.mem_singleton.mp hb ▸ ha)⟩
  · simpa [hvaluesName] using Ne.symm hreserved
  · intro item hmem
    rcases List.mem_append.mp hmem with hmem | hmem
    · exact ⟨fits_with_gradients.mpr (hall item hmem).1, (hall item hmem).2⟩
    · rw [List.mem_singleton.mp hmem]
      exact ⟨fits_with_gradients.mpr hfits, hgradient⟩

-- ---------------------------------------------------------------------------
-- New values
-- ---------------------------------------------------------------------------

section
variable {f : List String → Values → Except Error Values} {path : List String}

theorem mapOnto_eq (gradients : Gradients) (parent : Block) :
    gradients.mapOnto f path parent = gradients.toList.foldlM (fun parent item => do
      parent.addGradient item.1 (← item.2.mapArrays f (item.1 :: path))) parent := by
  induction gradients generalizing parent with
  | nil => rfl
  | cons _ _ _ ih =>
    simp only [Gradients.mapOnto, Gradients.toList, List.foldlM_cons, ih, bind_assoc]

theorem mapArrays_ok {block result : Block} :
    block.mapArrays f path = .ok result ↔ ∃ values items, f path block.values = .ok values ∧
      List.Forall₂ (Rebuilds fun item => item.2.mapArrays f (item.1 :: path))
        block.gradients.toList items ∧
      assemble values block.samples block.components block.properties items = .ok result := by
  cases block with
  | mk values samples components properties gradients =>
    simp only [mapArrays, assemble, bind_ok, mapOnto_eq, foldlM_rebuild_ok]
    constructor
    · rintro ⟨new, hnew, made, hmade, items, hitems, hresult⟩
      exact ⟨new, items, hnew, hitems, made, hmade, hresult⟩
    · rintro ⟨new, items, hnew, hitems, made, hmade, hresult⟩
      exact ⟨new, hnew, made, hmade, items, hitems, hresult⟩

theorem mapArrays_valid (hf : ∀ path a b, a.Valid → f path a = .ok b → b.Valid)
    {block result : Block} (hblock : block.Valid) (h : block.mapArrays f path = .ok result) :
    result.Valid := by
  induction block generalizing path result with
  | step block ih =>
    obtain ⟨values, items, hvalues, hitems, hresult⟩ := mapArrays_ok.mp h
    have own := hblock.labelled
    exact assemble_rebuilt_valid (hf _ _ _ own.values hvalues) own.samples own.components
      own.properties (fun old hold _ hnew => ih old hold (hblock.gradient hold).2 hnew) hitems
      hresult

end

/-- Gradients are copied unchecked; they fit the new values because the element
type is the old one. -/
theorem withValues_valid {block result : Block} {values : Values} (hblock : block.Valid)
    (hvalues : values.Valid) (hdtype : values.dtype = block.values.dtype)
    (h : block.withValues values = .ok result) : result.Valid := by
  simp only [withValues, bind_ok, make_ok, pure_ok] at h
  obtain ⟨_, ⟨haxes, rfl⟩, rfl⟩ := h
  obtain ⟨own, hdistinct, hreserved, hgradients⟩ := valid_iff.mp hblock
  refine valid_iff.mpr ⟨⟨hvalues, own.samples, own.components, own.properties, haxes⟩,
    hdistinct, hreserved, fun item hmem => ⟨?_, (hgradients item hmem).2⟩⟩
  obtain ⟨hitem, hfirst, hsamples, hproperties, hcomponents⟩ := (hgradients item hmem).1
  exact ⟨hitem.trans hdtype.symm, hfirst, hsamples, hproperties, hcomponents⟩

-- ---------------------------------------------------------------------------
-- Sums
-- ---------------------------------------------------------------------------

theorem addOnto_eq (gradients : Gradients) (other parent : Block) :
    gradients.addOnto other parent = gradients.toList.foldlM
      (fun parent item => do
        parent.addGradient item.1 (← (other.gradient item.1 >>= item.2.add))) parent := by
  induction gradients generalizing parent with
  | nil => rfl
  | cons _ _ _ ih =>
    simp only [Gradients.addOnto, Gradients.toList, List.foldlM_cons, ih, bind_assoc]

theorem gradient_ok {block gradient : Block} {parameter : String} :
    block.gradient parameter = .ok gradient ↔ block.gradients.find? parameter = some gradient := by
  unfold Block.gradient
  split <;> simp_all

theorem add_ok {block other result : Block} :
    block.add other = .ok result ↔ ∃ values items, block.values.add other.values = .ok values ∧
      List.Forall₂ (Rebuilds fun item => other.gradient item.1 >>= item.2.add)
        block.gradients.toList items ∧
      assemble values block.samples block.components block.properties items = .ok result := by
  cases block with
  | mk values samples components properties gradients =>
    simp only [add, assemble, bind_ok, addOnto_eq, foldlM_rebuild_ok]
    constructor
    · rintro ⟨new, hnew, made, hmade, items, hitems, hresult⟩
      exact ⟨new, items, hnew, hitems, made, hmade, hresult⟩
    · rintro ⟨new, items, hnew, hitems, made, hmade, hresult⟩
      exact ⟨new, hnew, made, hmade, items, hitems, hresult⟩

theorem add_valid {block other result : Block} (hblock : block.Valid)
    (h : block.add other = .ok result) : result.Valid := by
  induction block generalizing other result with
  | step block ih =>
    obtain ⟨values, items, hvalues, hitems, hresult⟩ := add_ok.mp h
    have own := hblock.labelled
    refine assemble_rebuilt_valid (Values.add_valid hvalues).1 own.samples own.components
      own.properties (fun old hold new hnew => ?_) hitems hresult
    -- `other` gives numbers only, so nothing is asked of its gradient.
    obtain ⟨gradient, -, hnew⟩ := bind_ok.mp hnew
    exact ih old hold (hblock.gradient hold).2 hnew

-- ---------------------------------------------------------------------------
-- Parts along an axis
-- ---------------------------------------------------------------------------

theorem keepSamples_ok {block result : Block} {kept : List Nat} :
    block.keepSamples kept = .ok result ↔ ∃ samples values numbering items,
      block.samples.entriesAt kept = .ok samples ∧ block.values.select 0 kept = .ok values ∧
      renumbering kept = .ok numbering ∧
      List.Forall₂ (Rebuilds fun item => item.2.keepGradientSamples numbering block.properties)
        block.gradients.toList items ∧
      assemble values samples block.components block.properties items = .ok result := by
  simp only [keepSamples, assemble, bind_ok, make_ok, foldlM_rebuild_ok]
  constructor
  · rintro ⟨samples, hsamples, values, hvalues, made, ⟨hmade, rfl⟩, numbering, hnumbering, items,
      hitems, hresult⟩
    exact ⟨samples, values, numbering, items, hsamples, hvalues, hnumbering, hitems, _,
      ⟨hmade, rfl⟩, hresult⟩
  · rintro ⟨samples, values, numbering, items, hsamples, hvalues, hnumbering, hitems, made,
      ⟨hmade, rfl⟩, hresult⟩
    exact ⟨samples, hsamples, values, hvalues, _, ⟨hmade, rfl⟩, numbering, hnumbering, items,
      hitems, hresult⟩

theorem keepProperties_ok {block result : Block} {kept : List Nat} :
    block.keepProperties kept = .ok result ↔ ∃ properties values items,
      block.properties.entriesAt kept = .ok properties ∧ block.values.keepLast kept = .ok values ∧
      List.Forall₂ (Rebuilds fun item => item.2.keepGradientProperties kept properties)
        block.gradients.toList items ∧
      assemble values block.samples block.components properties items = .ok result := by
  simp only [keepProperties, assemble, bind_ok, foldlM_rebuild_ok]
  constructor
  · rintro ⟨properties, hproperties, values, hvalues, made, hmade, items, hitems, hresult⟩
    exact ⟨properties, values, items, hproperties, hvalues, hitems, made, hmade, hresult⟩
  · rintro ⟨properties, values, items, hproperties, hvalues, hitems, made, hmade, hresult⟩
    exact ⟨properties, hproperties, values, hvalues, made, hmade, items, hitems, hresult⟩

theorem keepGradientSamples_ok {numbering : List (Nat × LabelValue)} {properties : Labels}
    {gradient result : Block} :
    gradient.keepGradientSamples numbering properties = .ok result ↔ ∃ samples values,
      Labels.ofFlat gradient.samples.names
        (gradient.samples.entries.filterMap (renumber numbering)).flatten = .ok samples ∧
      gradient.values.select 0 (positionsWhere (fun entry => (renumber numbering entry).isSome)
        gradient.samples.entries) = .ok values ∧
      AxesFit values.shape samples gradient.components properties ∧
      result = ⟨values, samples, gradient.components, properties, .nil⟩ := by
  simp only [keepGradientSamples, bind_ok, make_ok]
  constructor
  · rintro ⟨samples, hsamples, values, hvalues, haxes, rfl⟩
    exact ⟨samples, values, hsamples, hvalues, haxes, rfl⟩
  · rintro ⟨samples, values, hsamples, hvalues, haxes, rfl⟩
    exact ⟨samples, hsamples, values, hvalues, haxes, rfl⟩

theorem keepGradientProperties_ok {kept : List Nat} {properties : Labels}
    {gradient result : Block} :
    gradient.keepGradientProperties kept properties = .ok result ↔ ∃ values,
      gradient.values.keepLast kept = .ok values ∧
      AxesFit values.shape gradient.samples gradient.components properties ∧
      result = ⟨values, gradient.samples, gradient.components, properties, .nil⟩ := by
  simp only [keepGradientProperties, bind_ok, make_ok]

theorem keepGradientSamples_valid {gradient result : Block} {properties : Labels}
    {numbering : List (Nat × LabelValue)} (hgradient : gradient.Valid)
    (hproperties : properties.Valid)
    (h : gradient.keepGradientSamples numbering properties = .ok result) : result.Valid := by
  obtain ⟨samples, values, hsamples, hvalues, hmade⟩ := keepGradientSamples_ok.mp h
  exact make_valid (Values.select_valid hvalues).1 (Labels.ofFlat_valid hsamples).1
    hgradient.labelled.components hproperties (make_ok.mpr hmade)

theorem keepGradientProperties_valid {gradient result : Block} {properties : Labels}
    {kept : List Nat} (hgradient : gradient.Valid) (hproperties : properties.Valid)
    (h : gradient.keepGradientProperties kept properties = .ok result) : result.Valid := by
  obtain ⟨values, hvalues, hmade⟩ := keepGradientProperties_ok.mp h
  exact make_valid (Values.select_valid hvalues).1 hgradient.labelled.samples
    hgradient.labelled.components hproperties (make_ok.mpr hmade)

theorem part_valid {block result : Block} {axis : Axis} {group : Labels} (hblock : block.Valid)
    (h : block.part axis group = .ok result) : result.Valid := by
  have own := hblock.labelled
  simp only [part, bind_ok] at h
  obtain ⟨kept, -, h⟩ := h
  cases axis with
  | samples =>
    obtain ⟨samples, values, numbering, items, hsamples, hvalues, -, hitems, hresult⟩ :=
      keepSamples_ok.mp h
    refine assemble_rebuilt_valid (Values.select_valid hvalues).1 (Labels.entriesAt_valid hsamples)
      own.components own.properties (fun old hold new hnew => ?_) hitems hresult
    exact keepGradientSamples_valid (hblock.gradient hold).2 own.properties hnew
  | properties =>
    obtain ⟨properties, values, items, hproperties, hvalues, hitems, hresult⟩ :=
      keepProperties_ok.mp h
    have hkept := Labels.entriesAt_valid hproperties
    refine assemble_rebuilt_valid (Values.select_valid hvalues).1 own.samples own.components hkept
      (fun old hold new hnew => ?_) hitems hresult
    exact keepGradientProperties_valid (hblock.gradient hold).2 hkept hnew

theorem split_valid {block part : Block} {axis : Axis} {groups : List Labels}
    {parts : List Block} (hblock : block.Valid) (h : block.split axis groups = .ok parts)
    (hmem : part ∈ parts) : part.Valid := by
  obtain ⟨group, -, hpart⟩ := exists_of_forall₂ (mapM_ok.mp h) hmem
  exact part_valid hblock hpart

end BlockTensor.Block
