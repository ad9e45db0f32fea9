import BlockTensor.Proofs.Layer.Locality
import BlockTensor.Proofs.Layer.Widths

/-!
# Keyed layers succeed where the widths fit

A layer is asked about the number of properties of its block. Gradients have the
properties of their block, whatever other axes they have, so the layer takes them if it
takes the values (`StandardOn.error_of_forward`). Images of blocks that agree agree, as
their properties are all named alike, and so a whole tensor goes through exactly when
each key has a layer that accepts the width of its block (`forward_widths`).
-/

namespace BlockTensor

-- ---------------------------------------------------------------------------
-- Axes and properties
-- ---------------------------------------------------------------------------

theorem Labels.length_range {name : String} {n : Nat} {labels : Labels}
    (h : range name n = .ok labels) : labels.length = n := by
  obtain ⟨-, -, rfl⟩ := range_ok.mp h
  simp [Rows.length]

namespace AxesFit

variable {shape : List Nat} {samples : Labels} {components : List Labels} {old : Labels}
  (h : AxesFit shape samples components old)
include h

theorem eq_dropLast_append : shape = shape.dropLast ++ [old.length] := by
  rw [h.shape, List.dropLast_concat]

theorem of_dropLast {new : Labels} {shape' : List Nat}
    (hshape : shape' = shape.dropLast ++ [new.length]) : AxesFit shape' samples components new := by
  refine ⟨?_, h.componentNames⟩
  rw [hshape, h.shape, List.dropLast_concat]

end AxesFit

-- ---------------------------------------------------------------------------
-- Blocks
-- ---------------------------------------------------------------------------

namespace Layer

/-- The arrays that a layer makes on its way from a block and its direct gradients are not
too large, and the width of the result is a label value. -/
structure SizesFitOn (layer : Layer) (block : Block) : Prop where
  values : layer.SizesFit block.values.shape.dropLast block.properties.length
  gradients : ∀ item ∈ block.gradients.toList,
    layer.SizesFit item.2.values.shape.dropLast item.2.properties.length
  width : ∀ width, layer.width? block.properties.length = some width → width < 0x80000000

/-- Only the values and the last axis change: the values are what the layer makes of
them, and the properties count their columns. -/
structure Transforms (layer : Layer) (width : Nat) (block image : Block) : Prop where
  values : layer.forward block.values = .ok image.values
  shape : image.values.shape = block.values.shape.dropLast ++ [width]
  samples : image.samples = block.samples
  components : image.components = block.components
  properties : Labels.range "_" width = .ok image.properties

structure TransformsAll (layer : Layer) (width : Nat) (block image : Block) : Prop where
  own : layer.Transforms width block image
  gradients : List.Forall₂ (fun old new => old.1 = new.1 ∧ layer.Transforms width old.2 new.2)
    block.gradients.toList image.gradients.toList

namespace StandardOn

variable {dtype : DType} {layer : Layer} (hlayer : layer.StandardOn dtype) {block : Block}
  (hblock : block.Valid)
include hlayer hblock

theorem exists_width {values : Values} (h : layer.forward block.values = .ok values) :
    ∃ width, layer.width? block.properties.length = some width ∧
      values.shape = block.values.shape.dropLast ++ [width] :=
  hlayer.goesByWidth.shape hblock.labelled.axes.eq_dropLast_append h

section
variable {width : Nat} (hwidth : layer.width? block.properties.length = some width)
include hwidth

theorem shape_forward {values : Values} (h : layer.forward block.values = .ok values) :
    values.shape = block.values.shape.dropLast ++ [width] := by
  obtain ⟨found, hfound, hshape⟩ := hlayer.exists_width hblock h
  rwa [Option.some.inj (hwidth.symm.trans hfound)]

theorem propertiesOf_forward {values : Values} (h : layer.forward block.values = .ok values) :
    (KeyedLayers.Assignment.mk layer none).propertiesOf values = Labels.range "_" width := by
  rw [KeyedLayers.Assignment.propertiesOf, hlayer.shape_forward hblock hwidth h,
    Block.getLastD_append_singleton]

theorem axesFit_forward {values : Values} {properties : Labels}
    (h : layer.forward block.values = .ok values)
    (hproperties : Labels.range "_" width = .ok properties) :
    AxesFit values.shape block.samples block.components properties := by
  refine hblock.labelled.axes.of_dropLast ?_
  rw [hlayer.shape_forward hblock hwidth h, Labels.length_range hproperties]

theorem exists_values (hdtype : block.values.dtype = dtype)
    (hfits : layer.SizesFit block.values.shape.dropLast block.properties.length) :
    ∃ values, layer.forward block.values = .ok values :=
  hlayer.goesByWidth.succeeds hblock.labelled.values hdtype
    hblock.labelled.axes.eq_dropLast_append hfits hwidth

end

theorem transformsAll_of_forward {image : Block}
    (h : (KeyedLayers.Assignment.mk layer none).forward block = .ok image) :
    ∃ width, layer.width? block.properties.length = some width ∧
      layer.TransformsAll width block image := by
  obtain ⟨values, properties, items, hvalues, hproperties, hitems, himage⟩ :=
    KeyedLayers.Assignment.forward_ok.mp h
  obtain ⟨width, hwidth, hshape⟩ := hlayer.exists_width hblock hvalues
  rw [hlayer.propertiesOf_forward hblock hwidth hvalues] at hproperties
  obtain ⟨-, -, rfl⟩ := Block.assemble_ok.mp himage
  refine ⟨width, hwidth, ⟨hvalues, hshape, rfl, rfl, hproperties⟩, ?_⟩
  rw [Gradients.toList_ofList]
  refine List.forall₂_iff_zip.mpr ⟨hitems.length_eq, fun {old new} hmem => ?_⟩
  obtain ⟨hparameter, hnew⟩ := (List.forall₂_iff_zip.mp hitems).2 hmem
  obtain ⟨array, harray, -, heq⟩ := KeyedLayers.Assignment.forwardGradient_ok.mp hnew
  -- A gradient has the properties of its block, so the layer makes it as wide.
  obtain ⟨hfits, hgradient⟩ := hblock.gradient (List.of_mem_zip hmem).1
  have harrayShape := hlayer.shape_forward hgradient (hfits.properties ▸ hwidth) harray
  rw [heq]
  exact ⟨hparameter, harray, harrayShape, rfl, rfl, hproperties⟩

theorem exists_forward (hdtype : block.values.dtype = dtype) (hsizes : layer.SizesFitOn block)
    {width : Nat} (hwidth : layer.width? block.properties.length = some width) :
    ∃ image, (KeyedLayers.Assignment.mk layer none).forward block = .ok image := by
  obtain ⟨values, hvalues⟩ := hlayer.exists_values hblock hwidth hdtype hsizes.values
  obtain ⟨properties, hproperties⟩ : ∃ properties, Labels.range "_" width = .ok properties :=
    ⟨_, Labels.range_ok.mpr ⟨by decide, hsizes.width width hwidth, rfl⟩⟩
  obtain ⟨items, hitems⟩ : ∃ items, List.Forall₂ (Block.Rebuilds fun item =>
      (KeyedLayers.Assignment.mk layer none).forwardGradient properties item.2)
      block.gradients.toList items := by
    refine exists_forall₂ fun item hmem => ?_
    obtain ⟨hfits, hgradient⟩ := hblock.gradient hmem
    have hwidth' : layer.width? item.2.properties.length = some width := hfits.properties ▸ hwidth
    obtain ⟨array, harray⟩ := hlayer.exists_values hgradient hwidth' (hfits.dtype.trans hdtype)
      (hsizes.gradients item hmem)
    have haxes := hlayer.axesFit_forward hgradient hwidth' harray hproperties
    exact ⟨(item.1, ⟨array, item.2.samples, item.2.components, properties, .nil⟩), rfl,
      KeyedLayers.Assignment.forwardGradient_ok.mpr ⟨array, harray, haxes, rfl⟩⟩
  obtain ⟨-, haccepts, -⟩ := Block.assemble_ok.mp hblock.assemble
  have haccepted := KeyedLayers.Assignment.accepts_forward hlayer.standard.rowLocal hvalues
    haccepts hitems
  exact ⟨_, KeyedLayers.Assignment.forward_ok.mpr ⟨values, properties, items, hvalues,
    (hlayer.propertiesOf_forward hblock hwidth hvalues).trans hproperties, hitems,
    Block.assemble_ok.mpr
      ⟨hlayer.axesFit_forward hblock hwidth hvalues hproperties, haccepted, rfl⟩⟩⟩

/-- Gradients never fail on their own: what stops a block stops its values. -/
theorem error_of_forward (hdtype : block.values.dtype = dtype) (hsizes : layer.SizesFitOn block)
    {fault : LayerFault}
    (h : (KeyedLayers.Assignment.mk layer none).forward block = .error fault) :
    layer.forward block.values = .error fault := by
  cases hvalues : layer.forward block.values with
  | error found =>
    simp only [KeyedLayers.Assignment.forward, hvalues] at h
    cases h
    rfl
  | ok values =>
    obtain ⟨width, hwidth, -⟩ := hlayer.exists_width hblock hvalues
    obtain ⟨image, himage⟩ := hlayer.exists_forward hblock hdtype hsizes hwidth
    rw [himage] at h
    cases h

end StandardOn

theorem TransformsAll.gradients_agree {layer : Layer} {width : Nat} {block image : Block}
    (h : layer.TransformsAll width block image) : block.gradients.Agree image.gradients := by
  rw [← Gradients.ofList_toList image.gradients]
  refine Gradients.agree_of_forall₂ (h.gradients.imp fun old new ⟨hparameter, hnew⟩ => ?_)
  exact ⟨hparameter, by rw [hnew.samples]⟩

/-- Whatever layers make of them, blocks that agree still do: all properties are named alike. -/
theorem TransformsAll.agree {layer layer' : Layer} {width width' : Nat}
    {left right image image' : Block} (hleft : layer.TransformsAll width left image)
    (hright : layer'.TransformsAll width' right image') (h : left.Agree right) :
    image.Agree image' where
  sampleNames := by rw [hleft.own.samples, hright.own.samples, h.sampleNames]
  componentNames := by
    have hnames := h.componentNames
    simp only [Block.componentNames] at hnames ⊢
    rw [hleft.own.components, hright.own.components, hnames]
  propertyNames := by
    obtain ⟨-, -, hproperties⟩ := Labels.range_ok.mp hleft.own.properties
    obtain ⟨-, -, hproperties'⟩ := Labels.range_ok.mp hright.own.properties
    rw [hproperties, hproperties']
  gradients := (hleft.gradients_agree.symm.trans h.gradients).trans hright.gradients_agree

end Layer

-- ---------------------------------------------------------------------------
-- Tensors
-- ---------------------------------------------------------------------------

namespace KeyedLayers

def items (map : KeyedLayers) : List (Entry × Layer) := map.keys.entries.zip map.layers

section
variable {keys : Labels} {layers : List Layer} {map : KeyedLayers}
  (hmap : make keys layers none = .ok map)
include hmap

theorem mem_keys_iff {key : Entry} : key ∈ keys.entries ↔ ∃ layer, (key, layer) ∈ map.items := by
  obtain ⟨_, hcount, -⟩ := bind_ok.mp hmap
  obtain rfl := make_eq hmap
  have hkeys : (keys.entries.zip layers).map Prod.fst = keys.entries :=
    List.map_fst_zip (Nat.le_of_eq (ensure_ok.mp hcount).symm)
  rw [← hkeys]
  simp [items]

theorem find?_eq_some_iff_items (hkeys : keys.Valid) {key : Entry} {assigned : Assignment} :
    map.find? key = some assigned ↔
      ∃ layer, (key, layer) ∈ map.items ∧ ⟨layer, none⟩ = assigned := by
  obtain rfl := make_eq hmap
  rw [find?_eq_some_iff hkeys, assignments, List.zip_map_right, List.mem_map]
  simp [items]

theorem forwardItem_eq (hkeys : keys.Valid) {key : Entry} {layer : Layer}
    (hlayer : (key, layer) ∈ map.items) (block : Block) :
    map.forwardItem (key, block) = (Assignment.mk layer none).forward block := by
  rw [forwardItem, (find?_eq_some_iff_items hmap hkeys).mpr ⟨layer, hlayer, rfl⟩]

section
variable (hkeys : keys.Valid) {dtype : DType}
  (hlayers : ∀ key layer, (key, layer) ∈ map.items → layer.StandardOn dtype) {tensor : Tensor}
  (htensor : tensor.Valid)
include hkeys hlayers htensor

theorem transformsAll_of_forward {result : Tensor} (h : map.forward tensor = .ok result) :
    List.Forall₂ (fun item image => ∃ layer width, (item.1, layer) ∈ map.items ∧
      layer.width? item.2.properties.length = some width ∧
      layer.TransformsAll width item.2 image) tensor.items result.blocks := by
  obtain ⟨-, images, himages, -, -, rfl⟩ := forward_ok.mp h
  refine List.forall₂_iff_zip.mpr ⟨himages.length_eq, fun {item image} hmem => ?_⟩
  obtain ⟨assigned, hfind, himage⟩ :=
    forwardItem_ok.mp ((List.forall₂_iff_zip.mp himages).2 hmem)
  obtain ⟨layer, hlayer, rfl⟩ := (find?_eq_some_iff_items hmap hkeys).mp hfind
  have hblock := htensor.blocks item.2 (List.of_mem_zip (List.of_mem_zip hmem).1).2
  obtain ⟨width, hwidth, htransforms⟩ :=
    (hlayers _ layer hlayer).transformsAll_of_forward hblock himage
  exact ⟨layer, width, hlayer, hwidth, htransforms⟩

/-- One image for each block suffices: images of blocks that agree agree. -/
theorem exists_forward (hnames : tensor.keys.names = keys.names)
    (h : ∀ item ∈ tensor.items, ∃ image, map.forwardItem item = .ok image) :
    ∃ result, map.forward tensor = .ok result := by
  obtain ⟨images, himages⟩ := exists_forall₂ h
  have htransforms {image : Block} (hmem : image ∈ images) : ∃ block ∈ tensor.blocks,
      ∃ layer width, Layer.TransformsAll layer width block image := by
    obtain ⟨item, hitem, himage⟩ := exists_of_forall₂ himages hmem
    obtain ⟨assigned, hfind, himage⟩ := forwardItem_ok.mp himage
    obtain ⟨layer, hlayer, rfl⟩ := (find?_eq_some_iff_items hmap hkeys).mp hfind
    have hblock := (List.of_mem_zip hitem).2
    obtain ⟨width, -, htransforms⟩ :=
      (hlayers _ layer hlayer).transformsAll_of_forward (htensor.blocks _ hblock) himage
    exact ⟨item.2, hblock, layer, width, htransforms⟩
  have hcount : tensor.keys.length = images.length := by
    rw [← himages.length_eq, ← List.length_map, Tensor.map_fst_items htensor]
    rfl
  obtain rfl := make_eq hmap
  refine ⟨⟨tensor.keys, images⟩, forward_ok.mpr ⟨hnames, images, himages, hcount, ?_, rfl⟩⟩
  intro left hleft right hright
  obtain ⟨block, hblock, _, _, hblockLeft⟩ := htransforms hleft
  obtain ⟨other, hother, _, _, hotherRight⟩ := htransforms hright
  exact hblockLeft.agree hotherRight (htensor.agree block hblock other hother)

end

end

/-- The widths of the layers decide whether they can be applied to a tensor, as long as no array
on the way is too large; gradients play no part in it. Samples, components and all axes but the
last stay. -/
theorem forward_widths {keys : Labels} {layers : List Layer} {map : KeyedLayers}
    (hkeys : keys.Valid) (hmap : make keys layers none = .ok map) {dtype : DType}
    (hlayers : ∀ layer ∈ layers, layer.StandardOn dtype) {tensor : Tensor} (htensor : tensor.Valid)
    (hdtype : ∀ block ∈ tensor.blocks, block.values.dtype = dtype)
    (hsizes : ∀ key layer block, (key, layer) ∈ map.items → (key, block) ∈ tensor.items →
      layer.SizesFitOn block) :
    ((∃ result, map.forward tensor = .ok result) ↔ tensor.keys.names = keys.names ∧
      (∀ key ∈ tensor.keys.entries, key ∈ keys.entries) ∧
      ∀ key layer block, (key, layer) ∈ map.items → (key, block) ∈ tensor.items →
        ∃ width, layer.width? block.properties.length = some width) ∧
    (∀ key layer block fault, (key, layer) ∈ map.items → (key, block) ∈ tensor.items →
      map.forwardItem (key, block) = .error fault → layer.forward block.values = .error fault) ∧
    ∀ result, map.forward tensor = .ok result → result.keys = tensor.keys ∧
      List.Forall₂ (fun item image => ∃ layer width, (item.1, layer) ∈ map.items ∧
        layer.width? item.2.properties.length = some width ∧
        layer.TransformsAll width item.2 image) tensor.items result.blocks := by
  have hstandard (key : Entry) (layer : Layer) (hmem : (key, layer) ∈ map.items) :
      layer.StandardOn dtype := by
    obtain rfl := make_eq hmap
    exact hlayers layer (List.of_mem_zip hmem).2
  have hblock {key : Entry} {block : Block} (hmem : (key, block) ∈ tensor.items) :
      block.Valid ∧ block.values.dtype = dtype :=
    ⟨htensor.blocks block (List.of_mem_zip hmem).2, hdtype block (List.of_mem_zip hmem).2⟩
  refine ⟨⟨?_, ?_⟩, ?_, fun result hresult => ⟨keys_forward hresult, ?_⟩⟩
  · rintro ⟨result, hresult⟩
    have hnames : tensor.keys.names = keys.names := by
      obtain rfl := make_eq hmap
      exact (forward_ok.mp hresult).1
    have hall := transformsAll_of_forward hmap hkeys hstandard htensor hresult
    refine ⟨hnames, fun key hkey => ?_, fun key layer block hlayer hitem => ?_⟩
    · rw [← Tensor.map_fst_items htensor] at hkey
      obtain ⟨item, hitem, rfl⟩ := List.mem_map.mp hkey
      obtain ⟨image, hpair⟩ := exists_mem_zip_of_forall₂ hall hitem
      obtain ⟨layer, _, hlayer, -, -⟩ := (List.forall₂_iff_zip.mp hall).2 hpair
      exact (mem_keys_iff hmap).mpr ⟨layer, hlayer⟩
    · obtain ⟨image, hpair⟩ := exists_mem_zip_of_forall₂ hall hitem
      obtain ⟨found, width, hfound, hwidth, -⟩ := (List.forall₂_iff_zip.mp hall).2 hpair
      -- Keys are distinct, so the key has one layer.
      have hassigned := (find?_eq_some_iff_items hmap hkeys).mpr ⟨layer, hlayer, rfl⟩
      rw [(find?_eq_some_iff_items hmap hkeys).mpr ⟨found, hfound, rfl⟩] at hassigned
      cases hassigned
      exact ⟨width, hwidth⟩
  · rintro ⟨hnames, hfound, hwidths⟩
    refine exists_forward hmap hkeys hstandard htensor hnames fun ⟨key, block⟩ hitem => ?_
    have hkey : key ∈ tensor.keys.entries := (List.of_mem_zip hitem).1
    obtain ⟨layer, hlayer⟩ := (mem_keys_iff hmap).mp (hfound key hkey)
    obtain ⟨width, hwidth⟩ := hwidths key layer block hlayer hitem
    rw [forwardItem_eq hmap hkeys hlayer]
    exact (hstandard key layer hlayer).exists_forward (hblock hitem).1 (hblock hitem).2
      (hsizes key layer block hlayer hitem) hwidth
  · intro key layer block fault hlayer hitem
    rw [forwardItem_eq hmap hkeys hlayer]
    exact (hstandard key layer hlayer).error_of_forward (hblock hitem).1 (hblock hitem).2
      (hsizes key layer block hlayer hitem)
  · exact transformsAll_of_forward hmap hkeys hstandard htensor hresult

theorem standardOn_twoLayers : ∀ layer ∈ twoLayers.layers, layer.StandardOn .float64 := by
  have hinner : (Layer.chain [.logistic]).StandardOn .float64 :=
    .chain (List.forall_mem_singleton.mpr .logistic)
  refine List.forall_mem_cons.mpr ⟨.chain ?_, List.forall_mem_singleton.mpr .logistic⟩
  exact List.forall_mem_cons.mpr
    ⟨.affine ⟨rfl, rfl⟩ rfl, List.forall_mem_singleton.mpr hinner⟩

theorem width_twoLayers : ∀ layer ∈ twoLayers.layers, ∀ block ∈ twoColumns.blocks,
    ∃ width, layer.width? block.properties.length = some width := by
  simp [twoLayers, twoColumns, flatColumn, column, Labels.single, Rows.length, Layer.width?,
    Layer.widthAll?]

theorem sizesFitOn_twoLayers : ∀ layer ∈ twoLayers.layers, ∀ block ∈ twoColumns.blocks,
    layer.SizesFitOn block := by
  simp only [twoLayers, twoColumns, List.forall_mem_cons]
  refine ⟨⟨?_, ?_, List.forall_mem_nil _⟩, ⟨?_, ?_, List.forall_mem_nil _⟩,
    List.forall_mem_nil _⟩ <;> constructor <;>
    simp [flatColumn, column, counted, Labels.single, Rows.length, Values.shape, volume,
      Gradients.toList, sizeLimit, Layer.SizesFit, Layer.AllSizesFit, Layer.width?,
      Layer.widthAll?]

theorem forward_widths_twoColumns : ∃ result, twoLayers.forward twoColumns = .ok result ∧
    List.Forall₂ (fun item image => ∃ layer width, (item.1, layer) ∈ twoLayers.items ∧
      layer.width? item.2.properties.length = some width ∧
      layer.TransformsAll width item.2 image) twoColumns.items result.blocks := by
  have hkeys : twoLayers.keys.Valid :=
    (Labels.ofEntries_ok.mp (show Labels.ofEntries ["key"] [[3], [-1]] = .ok _ from rfl)).1
  have hmap : make twoLayers.keys twoLayers.layers none = .ok twoLayers := rfl
  have htensor : twoColumns.Valid := Archive.valid_of_record rfl
  obtain ⟨hruns, -, hresults⟩ := forward_widths hkeys hmap standardOn_twoLayers htensor
    (by decide) fun _ layer block hlayer hblock =>
      sizesFitOn_twoLayers layer (List.of_mem_zip hlayer).2 block (List.of_mem_zip hblock).2
  obtain ⟨result, hresult⟩ := hruns.mpr ⟨rfl, by decide, fun _ layer block hlayer hblock =>
    width_twoLayers layer (List.of_mem_zip hlayer).2 block (List.of_mem_zip hblock).2⟩
  exact ⟨result, hresult, (hresults result hresult).2⟩

end KeyedLayers

end BlockTensor
