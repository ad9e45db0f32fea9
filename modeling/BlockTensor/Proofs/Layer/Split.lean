import BlockTensor.Proofs.Built
import BlockTensor.Proofs.Layer.Rows
import BlockTensor.Proofs.SplitLaws

/-!
# Layers before or after a split

Keeping some samples and applying row local layers are independent of each
other: the same values, labels and gradients come out in either order. This
holds of one array (`RowLocal.select_axes`), so of a gradient and of a block,
whose gradients are renumbered by the samples that are kept, and so of all
blocks of a tensor. The default properties count the outputs of the layer and
not the rows, so a part without rows has them as well.
-/

namespace BlockTensor

-- ---------------------------------------------------------------------------
-- Arrays with labels
-- ---------------------------------------------------------------------------

theorem AxesFit.getLastD_eq {shape : List Nat} {samples : Labels} {components : List Labels}
    {properties : Labels} (h : AxesFit shape samples components properties) :
    shape.getLastD 0 = properties.length := by
  rw [h.shape, Block.getLastD_append_singleton]

theorem RowLocal.select_axes {f : Values → Except LayerFault Values} (hf : RowLocal f)
    {a b part : Values} {samples kept : Labels} {components : List Labels}
    {old properties : Labels} {positions : List Nat}
    (hpositions : positions.Sublist (List.range samples.length)) (ha : a.Valid)
    (haxes : AxesFit a.shape samples components old) (hb : f a = .ok b)
    (hnew : AxesFit b.shape samples components properties)
    (hpart : a.select 0 positions = .ok part) (hkept : AxesFit part.shape kept components old) :
    ∃ image, b.select 0 positions = .ok image ∧ f part = .ok image ∧
      AxesFit image.shape kept components properties := by
  have hbounded : ∀ i ∈ positions, i < samples.length :=
    fun i hi => List.mem_range.mp (hpositions.subset hi)
  have hcount : positions.length ≤ samples.length := by simpa using hpositions.length_le
  have hshape : a.shape = [] ++ samples.length :: components.map (fun c => c.length) ++
      [old.length] := haxes.shape
  obtain ⟨image, himage, hforward⟩ := hf.select hbounded hcount ha hshape hb hpart
  exact ⟨image, himage, hforward, (hnew.select_iff himage).mpr ((haxes.select_iff hpart).mp hkept)⟩

-- ---------------------------------------------------------------------------
-- Gradients
-- ---------------------------------------------------------------------------

namespace KeyedLayers

namespace Assignment

variable {assigned : Assignment}

/-- Gradients that fit a block fit what the layer makes of it, once the layer is
applied to them. -/
theorem accepts_forward (hlayer : RowLocal assigned.layer.forward) {a b : Values}
    {samples : Labels} {components : List Labels} {old properties : Labels}
    {items news : List (String × Block)} (hb : assigned.layer.forward a = .ok b)
    (haccepts : Block.Accepts ⟨a, samples, components, old, .nil⟩ items)
    (hnews : List.Forall₂ (Block.Rebuilds fun item => assigned.forwardGradient properties item.2)
      items news) : Block.Accepts ⟨b, samples, components, properties, .nil⟩ news where
  distinct := Block.map_fst_of_rebuilds hnews ▸ haccepts.distinct
  reserved := Block.map_fst_of_rebuilds hnews ▸ haccepts.reserved
  fresh _ _ hmem := nomatch hmem
  fits new hmem := by
    obtain ⟨item, hitem, -, hnew⟩ := exists_of_forall₂ hnews hmem
    obtain ⟨values, hvalues, -, heq⟩ := forwardGradient_ok.mp hnew
    obtain ⟨hdtype, hfirst, hsamples, -, hcomponents⟩ := haccepts.fits item hitem
    rw [heq]
    exact ⟨(hlayer.dtype hvalues).trans (hdtype.trans (hlayer.dtype hb).symm), hfirst, hsamples,
      rfl, hcomponents⟩

theorem forwardGradient_keepSamples (hlayer : RowLocal assigned.layer.forward)
    {gradient image part : Block} {properties : Labels} {numbering : List (Nat × LabelValue)}
    (hgradient : gradient.Valid) (himage : assigned.forwardGradient properties gradient = .ok image)
    (hpart : gradient.keepGradientSamples numbering gradient.properties = .ok part) :
    ∃ corner, image.keepGradientSamples numbering properties = .ok corner ∧
      assigned.forwardGradient properties part = .ok corner := by
  have own := hgradient.labelled
  obtain ⟨values, hvalues, haxes, rfl⟩ := forwardGradient_ok.mp himage
  obtain ⟨samples, kept, hsamples, hkept, hkeptAxes, rfl⟩ := Block.keepGradientSamples_ok.mp hpart
  obtain ⟨corner, hcorner, hforward, hcornerAxes⟩ := hlayer.select_axes
    (positionsWhere_sublist ..) own.values own.axes hvalues haxes hkept hkeptAxes
  refine ⟨⟨corner, samples, gradient.components, properties, .nil⟩, ?_, ?_⟩
  · exact Block.keepGradientSamples_ok.mpr ⟨samples, corner, hsamples, hcorner, hcornerAxes, rfl⟩
  · exact forwardGradient_ok.mpr ⟨corner, hforward, hcornerAxes, rfl⟩

theorem forwardGradients_keepSamples (hlayer : RowLocal assigned.layer.forward) {block : Block}
    {properties : Labels} {numbering : List (Nat × LabelValue)} {news items : List (String × Block)}
    (hblock : block.Valid)
    (hnews : List.Forall₂ (Block.Rebuilds fun item => assigned.forwardGradient properties item.2)
      block.gradients.toList news)
    (hitems : List.Forall₂ (Block.Rebuilds fun item =>
      item.2.keepGradientSamples numbering block.properties) block.gradients.toList items) :
    ∃ corners, List.Forall₂ (Block.Rebuilds fun item =>
        item.2.keepGradientSamples numbering properties) news corners ∧
      List.Forall₂ (Block.Rebuilds fun item => assigned.forwardGradient properties item.2)
        items corners := by
  refine exists_forall₂_square hnews hitems ?_
  rintro item hmem new part ⟨hfirst, hnew⟩ ⟨hsecond, hpart⟩
  obtain ⟨hfits, hgradient⟩ := hblock.gradient hmem
  rw [← hfits.properties] at hpart
  obtain ⟨corner, hkeep, happly⟩ := forwardGradient_keepSamples hlayer hgradient hnew hpart
  exact ⟨(item.1, corner), ⟨hfirst.symm, hkeep⟩, ⟨hsecond.symm, happly⟩⟩

-- ---------------------------------------------------------------------------
-- Blocks
-- ---------------------------------------------------------------------------

/-- Properties depend on the length of the last axis alone. -/
theorem propertiesOf_congr {a b : Values} (h : a.shape.getLastD 0 = b.shape.getLastD 0) :
    assigned.propertiesOf a = assigned.propertiesOf b := by
  unfold propertiesOf
  rw [h]

theorem forward_part (hlayer : RowLocal assigned.layer.forward) {block image part : Block}
    {group : Labels} (hblock : block.Valid) (himage : assigned.forward block = .ok image)
    (hpart : block.part .samples group = .ok part) :
    ∃ corner, image.part .samples group = .ok corner ∧ assigned.forward part = .ok corner := by
  have own := hblock.labelled
  obtain ⟨kept, hkept, hpart⟩ := bind_ok.mp hpart
  obtain ⟨samples, values, numbering, items, hsamples, hvalues, hnumbering, hitems, hpart⟩ :=
    Block.keepSamples_ok.mp hpart
  obtain ⟨hpartAxes, hpartAccepts, rfl⟩ := Block.assemble_ok.mp hpart
  obtain ⟨new, properties, news, hnew, hproperties, hnews, himage⟩ := forward_ok.mp himage
  obtain ⟨himageAxes, -, rfl⟩ := Block.assemble_ok.mp himage
  -- The values first, then the gradients, then the block that has both.
  obtain ⟨corner, hcorner, hforward, hcornerAxes⟩ := hlayer.select_axes
    (keptPositions_sublist hkept) own.values own.axes hnew himageAxes hvalues hpartAxes
  obtain ⟨corners, hbelow, hright⟩ := forwardGradients_keepSamples hlayer hblock hnews hitems
  have hassemble := Block.assemble_ok.mpr
    ⟨hcornerAxes, accepts_forward hlayer hforward hpartAccepts hright, rfl⟩
  have hlast : assigned.propertiesOf corner = .ok properties := by
    rw [← hproperties]
    exact propertiesOf_congr (hcornerAxes.getLastD_eq.trans himageAxes.getLastD_eq.symm)
  refine ⟨⟨corner, samples, block.components, properties, .ofList corners⟩, ?_, ?_⟩
  · refine bind_ok.mpr ⟨kept, hkept, Block.keepSamples_ok.mpr ?_⟩
    exact ⟨samples, corner, numbering, corners, hsamples, hcorner, hnumbering,
      by simpa using hbelow, hassemble⟩
  · refine forward_ok.mpr ?_
    exact ⟨corner, properties, corners, hforward, hlast, by simpa using hright, hassemble⟩

end Assignment

-- ---------------------------------------------------------------------------
-- Tensors
-- ---------------------------------------------------------------------------

theorem forward_part {map : KeyedLayers} (hlayers : ∀ layer ∈ map.layers, layer.Standard)
    {tensor result part : Tensor} {group : Labels} (htensor : tensor.Valid)
    (hresult : map.forward tensor = .ok result) (hpart : tensor.part .samples group = .ok part) :
    ∃ image, result.part .samples group = .ok image ∧ map.forward part = .ok image := by
  obtain ⟨hnames, images, himages, hcount, hagree, rfl⟩ := forward_ok.mp hresult
  obtain ⟨parts, hparts, rfl⟩ := (Tensor.part_ok htensor.count htensor.agree).mp hpart
  have hitems := forall₂_zip tensor.keys.entries hparts
  obtain ⟨corners, hbelow, hright⟩ : ∃ corners,
      List.Forall₂ (fun image corner => image.part .samples group = .ok corner) images corners ∧
      List.Forall₂ (fun item corner => map.forwardItem item = .ok corner)
        (tensor.keys.entries.zip parts) corners := by
    refine exists_forall₂_square himages hitems ?_
    rintro item hmem image ⟨key, part⟩ himage ⟨hkey, hpart⟩
    obtain ⟨assigned, hfind, himage⟩ := forwardItem_ok.mp himage
    obtain ⟨corner, hcorner, hforward⟩ := Assignment.forward_part
      (hlayers _ (layer_of_find? hfind)).rowLocal
      (htensor.blocks _ (List.of_mem_zip hmem).2) himage hpart
    exact ⟨corner, hcorner, forwardItem_ok.mpr ⟨assigned, hkey ▸ hfind, hforward⟩⟩
  refine ⟨⟨tensor.keys, corners⟩, ?_, ?_⟩
  · exact (Tensor.part_ok hcount hagree).mpr ⟨corners, hbelow, rfl⟩
  · exact forward_ok.mpr ⟨hnames, corners, hright, hcount.trans hbelow.length_eq,
      Tensor.agree_of_parts hagree hbelow, rfl⟩

/-- The parts of the result are the results of the parts. -/
theorem forward_split {map : KeyedLayers} (hlayers : ∀ layer ∈ map.layers, layer.Standard)
    {tensor result : Tensor} {groups : List Labels} {parts : List Tensor} (htensor : tensor.Valid)
    (hresult : map.forward tensor = .ok result) (hparts : tensor.split .samples groups = .ok parts) :
    ∃ images, result.split .samples groups = .ok images ∧
      List.Forall₂ (fun part image => map.forward part = .ok image) parts images := by
  simp only [Tensor.split_ok] at hparts ⊢
  have hgroups : List.Forall₂ (· = ·) groups groups := List.forall₂_same.mpr fun _ _ => rfl
  refine exists_forall₂_square hgroups hparts ?_
  rintro group - _ part rfl hpart
  exact forward_part hlayers htensor hresult hpart

/-- Two outputs under the key 3, and the logistic layer alone under the key -1. -/
def twoLayers : KeyedLayers :=
  ⟨⟨["key"], [[3], [-1]]⟩, [.chain [.affine ⟨1, 2, [.one, .minusOne], [.zero, .one]⟩,
    .chain [.logistic]], .logistic], none⟩

def twoColumns : Tensor :=
  ⟨⟨["key"], [[3], [-1]]⟩, [flatColumn [.one, .zero], flatColumn [.minusOne]]⟩

/-- The second sample, which one of the columns has, and one that none has. -/
def pickedSamples : List Labels := [⟨["sample"], [[1]]⟩, ⟨["sample"], [[7]]⟩]

theorem standard_twoLayers : ∀ layer ∈ twoLayers.layers, layer.Standard := by
  have hmade : Affine.make 1 2 [.one, .minusOne] [.zero, .one] =
    .ok ⟨1, 2, [.one, .minusOne], [.zero, .one]⟩ := rfl
  have hinner : (Layer.chain [.logistic]).Standard :=
    .chain (List.forall_mem_singleton.mpr .logistic)
  refine List.forall_mem_cons.mpr ⟨.chain ?_, List.forall_mem_singleton.mpr .logistic⟩
  exact List.forall_mem_cons.mpr
    ⟨.affine (Affine.make_valid rfl hmade), List.forall_mem_singleton.mpr hinner⟩

theorem forward_split_twoColumns : ∃ result parts images,
    twoLayers.forward twoColumns = .ok result ∧
    twoColumns.split .samples pickedSamples = .ok parts ∧
    result.split .samples pickedSamples = .ok images ∧
    List.Forall₂ (fun part image => twoLayers.forward part = .ok image) parts images := by
  have htensor : twoColumns.Valid := by
    have h : (Archive.TensorRecord.ofTensor twoColumns).tensor = .ok twoColumns := rfl
    exact Archive.tensor_valid h
  have hresult : twoLayers.forward twoColumns = .ok _ := rfl
  have hparts : twoColumns.split .samples pickedSamples = .ok _ := rfl
  obtain ⟨images, himages, hforward⟩ := forward_split standard_twoLayers htensor hresult hparts
  exact ⟨_, _, images, hresult, hparts, himages, hforward⟩

end KeyedLayers

end BlockTensor
