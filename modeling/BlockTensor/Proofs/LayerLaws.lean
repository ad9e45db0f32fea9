import BlockTensor.Layer.Keyed
import BlockTensor.Proofs.TensorLaws

/-!
# Layers give valid tensors

Whatever a layer makes of a valid array is a valid array. Keyed layers rebuild
each block through the checks (`forward_ok`), so their results are valid, for
any layers and any given properties that are labels.
-/

namespace BlockTensor

theorem ofTensor_ok {α : Type} {result : Except Error α} {a : α} :
    ofTensor result = .ok a ↔ result = .ok a := mapError_ok

theorem Affine.forward_valid {layer : Affine} {a b : Dense Double}
    (h : layer.forward a = .ok b) : b.Valid := by
  unfold Affine.forward at h
  split at h
  · cases h
  · simp only [bind_ok, ofTensor_ok] at h
    obtain ⟨_, -, h⟩ := h
    exact (Dense.ofShape_ok.mp h).2

mutual
theorem Layer.forward_valid : (layer : Layer) → {a b : Values} → a.Valid →
    layer.forward a = .ok b → b.Valid
  | .affine layer, .float32 _, _, _, h => by simp [forward] at h
  | .affine layer, .float64 a, _, _, h => by
    simp only [forward, map_ok] at h
    obtain ⟨array, harray, rfl⟩ := h
    exact Affine.forward_valid harray
  | .logistic, a, _, ha, h => by
    simp only [forward, Except.ok.injEq] at h
    exact h ▸ Values.keepsLayout_logistic.valid a ha
  | .chain layers, _, _, ha, h => forwardAll_valid layers ha (by simpa only [forward] using h)
  | .custom apply valid, a, b, _, h => valid a b (by simpa only [forward] using h)

theorem Layer.forwardAll_valid : (layers : List Layer) → {a b : Values} → a.Valid →
    forwardAll layers a = .ok b → b.Valid
  | [], a, _, ha, h => by
    simp only [forwardAll, Except.ok.injEq] at h
    exact h ▸ ha
  | layer :: rest, _, _, ha, h => by
    simp only [forwardAll, bind_ok] at h
    obtain ⟨next, hnext, h⟩ := h
    exact forwardAll_valid rest (layer.forward_valid ha hnext) h
end

namespace KeyedLayers

namespace Assignment

theorem forward_ok {assigned : Assignment} {block result : Block} :
    assigned.forward block = .ok result ↔ ∃ values properties items,
      assigned.layer.forward block.values = .ok values ∧
      assigned.propertiesOf values = .ok properties ∧
      List.Forall₂ (Block.Rebuilds fun item => assigned.forwardGradient properties item.2)
        block.gradients.toList items ∧
      Block.assemble values block.samples block.components properties items = .ok result := by
  -- Errors of the metadata are wrapped on the way, so `foldlM_rebuild_ok` does
  -- not apply as it stands.
  have hfold {properties : Labels} {items : List (String × Block)} {parent : Block} :
      items.foldlM (fun result item => do
        let mapped ← assigned.forwardGradient properties item.2
        ofTensor (result.addGradient item.1 mapped)) parent = .ok result ↔ ∃ news,
      List.Forall₂ (Block.Rebuilds fun item => assigned.forwardGradient properties item.2)
        items news ∧ parent.attachAll news = .ok result := by
    refine Block.foldlM_attach_ok fun parent item result => ?_
    simp only [bind_ok, ofTensor_ok]
    constructor
    · rintro ⟨new, hnew, hresult⟩
      exact ⟨(item.1, new), ⟨rfl, hnew⟩, hresult⟩
    · rintro ⟨⟨parameter, new⟩, ⟨rfl, hnew⟩, hresult⟩
      exact ⟨new, hnew, hresult⟩
  simp only [forward, Block.assemble, bind_ok, ofTensor_ok, hfold]
  constructor
  · rintro ⟨values, hvalues, properties, hproperties, made, hmade, items, hitems, hresult⟩
    exact ⟨values, properties, items, hvalues, hproperties, hitems, made, hmade, hresult⟩
  · rintro ⟨values, properties, items, hvalues, hproperties, hitems, made, hmade, hresult⟩
    exact ⟨values, hvalues, properties, hproperties, made, hmade, items, hitems, hresult⟩

theorem distinct_of_forward {assigned : Assignment} {block image : Block}
    (h : assigned.forward block = .ok image) :
    image.gradients.parameters.Nodup := by
  obtain ⟨_, _, _, -, -, -, himage⟩ := forward_ok.mp h
  exact Block.distinct_of_assemble himage

theorem forwardGradient_ok {assigned : Assignment} {properties : Labels} {gradient result : Block} :
    assigned.forwardGradient properties gradient = .ok result ↔ ∃ values,
      assigned.layer.forward gradient.values = .ok values ∧
      AxesFit values.shape gradient.samples gradient.components properties ∧
      result = ⟨values, gradient.samples, gradient.components, properties, .nil⟩ := by
  simp only [forwardGradient, bind_ok, ofTensor_ok, Block.make_ok]

theorem propertiesOf_valid {assigned : Assignment} {values : Values} {properties : Labels}
    (hgiven : ∀ given, assigned.properties = some given → given.Valid)
    (h : assigned.propertiesOf values = .ok properties) : properties.Valid := by
  unfold propertiesOf at h
  split at h
  next given hsome =>
    cases h
    exact hgiven _ hsome
  next => exact Labels.range_valid h

theorem forwardGradient_valid {assigned : Assignment} {gradient result : Block}
    {properties : Labels} (hgradient : gradient.Valid) (hproperties : properties.Valid)
    (h : assigned.forwardGradient properties gradient = .ok result) : result.Valid := by
  have own := hgradient.labelled
  obtain ⟨values, hvalues, hmade⟩ := forwardGradient_ok.mp h
  exact Block.make_valid (assigned.layer.forward_valid own.values hvalues) own.samples
    own.components hproperties (Block.make_ok.mpr hmade)

theorem forward_valid {assigned : Assignment} {block result : Block} (hblock : block.Valid)
    (hgiven : ∀ given, assigned.properties = some given → given.Valid)
    (h : assigned.forward block = .ok result) : result.Valid := by
  have own := hblock.labelled
  obtain ⟨values, properties, items, hvalues, hproperties, hitems, hresult⟩ := forward_ok.mp h
  have hvalid := propertiesOf_valid hgiven hproperties
  refine Block.assemble_rebuilt_valid (assigned.layer.forward_valid own.values hvalues) own.samples
    own.components hvalid (fun old hold new hnew => ?_) hitems hresult
  exact forwardGradient_valid (hblock.gradient hold).2 hvalid hnew

end Assignment

theorem properties_of_find? {map : KeyedLayers} {key : Entry} {assigned : Assignment}
    (h : map.find? key = some assigned) {given : Labels}
    (hgiven : assigned.properties = some given) :
    ∃ all, map.properties = some all ∧ given ∈ all := by
  simp only [find?, Option.bind_eq_bind, Option.bind_eq_some_iff] at h
  obtain ⟨position, -, layer, -, h⟩ := h
  split at h
  · cases h
    cases hgiven
  next all hall =>
    simp only [Option.bind_eq_some_iff] at h
    obtain ⟨found, hfound, h⟩ := h
    cases h
    cases hgiven
    exact ⟨all, hall, List.mem_of_getElem? hfound⟩

theorem layer_of_find? {map : KeyedLayers} {key : Entry} {assigned : Assignment}
    (h : map.find? key = some assigned) : assigned.layer ∈ map.layers := by
  simp only [find?, Option.bind_eq_bind, Option.bind_eq_some_iff] at h
  obtain ⟨position, -, layer, hlayer, h⟩ := h
  have hmem : layer ∈ map.layers := List.mem_of_getElem? hlayer
  split at h
  · cases h
    exact hmem
  · simp only [Option.bind_eq_some_iff] at h
    obtain ⟨_, -, h⟩ := h
    cases h
    exact hmem

theorem forwardItem_ok {map : KeyedLayers} {item : Entry × Block} {image : Block} :
    map.forwardItem item = .ok image ↔
      ∃ assigned, map.find? item.1 = some assigned ∧ assigned.forward item.2 = .ok image := by
  obtain ⟨key, block⟩ := item
  simp only [forwardItem]
  cases map.find? key <;> simp

theorem forward_ok {map : KeyedLayers} {tensor result : Tensor} :
    map.forward tensor = .ok result ↔ tensor.keys.names = map.keys.names ∧ ∃ images,
      List.Forall₂ (fun item image => map.forwardItem item = .ok image) tensor.items images ∧
      tensor.keys.length = images.length ∧
      (∀ left ∈ images, ∀ right ∈ images, left.Agree right) ∧ result = ⟨tensor.keys, images⟩ := by
  simp only [forward, bind_ok, ensure_ok, mapM_ok, ofTensor_ok]
  have hmake {images : List Block} (himages : List.Forall₂
      (fun item image => map.forwardItem item = .ok image) tensor.items images) :
      Tensor.make tensor.keys images = .ok result ↔ _ := Tensor.make_ok fun image hmem => by
    obtain ⟨item, -, himage⟩ := exists_of_forall₂ himages hmem
    obtain ⟨assigned, -, himage⟩ := forwardItem_ok.mp himage
    exact Assignment.distinct_of_forward himage
  constructor
  · rintro ⟨_, hnames, images, himages, hresult⟩
    exact ⟨hnames, images, himages, (hmake himages).mp hresult⟩
  · rintro ⟨hnames, images, himages, hresult⟩
    exact ⟨(), hnames, images, himages, (hmake himages).mpr hresult⟩

theorem forward_valid {map : KeyedLayers} {tensor result : Tensor} (htensor : tensor.Valid)
    (hgiven : ∀ all, map.properties = some all → ∀ given ∈ all, given.Valid)
    (h : map.forward tensor = .ok result) : result.Valid := by
  obtain ⟨-, images, himages, hcount, hagree, rfl⟩ := forward_ok.mp h
  refine ⟨htensor.keys, hcount, fun image hmem => ?_, hagree⟩
  obtain ⟨item, hitem, himage⟩ := exists_of_forall₂ himages hmem
  obtain ⟨assigned, hfind, himage⟩ := forwardItem_ok.mp himage
  refine Assignment.forward_valid (htensor.blocks _ (List.of_mem_zip hitem).2)
    (fun given hsome => ?_) himage
  obtain ⟨all, hall, hmem⟩ := properties_of_find? hfind hsome
  exact hgiven all hall given hmem

end KeyedLayers

end BlockTensor
