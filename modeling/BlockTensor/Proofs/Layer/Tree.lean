import BlockTensor.Proofs.GradientTree

/-!
# Parameters that keyed layers keep

The layer of a key is applied to the values of the block and to its direct
gradients, each under its own parameter and in order (`Assignment.Maps`). What
is below a direct gradient is not rebuilt: the result has the top of the tree of
parameters. As with splitting, the tree survives exactly when it has no second
level.
-/

namespace BlockTensor.KeyedLayers

/-- What the layer of a key makes of a block: its values, its direct gradients
and nothing below them. -/
structure Assignment.Maps (assigned : Assignment) (block image : Block) : Prop where
  values : assigned.layer.forward block.values = .ok image.values
  gradients : List.Forall₂ (fun old new => old.1 = new.1 ∧
    assigned.layer.forward old.2.values = .ok new.2.values)
    block.gradients.toList image.gradients.toList
  tree : image.tree = block.tree.top

theorem Assignment.maps_of_forward {assigned : Assignment} {block image : Block}
    (h : assigned.forward block = .ok image) : assigned.Maps block image := by
  obtain ⟨values, properties, items, hvalues, -, hitems, himage⟩ := forward_ok.mp h
  have hgradients : List.Forall₂ (fun old new => old.1 = new.1 ∧
      assigned.layer.forward old.2.values = .ok new.2.values) block.gradients.toList items := by
    refine hitems.imp fun old new ⟨hparameter, hnew⟩ => ⟨hparameter, ?_⟩
    obtain ⟨gradient, hgradient, -, heq⟩ := forwardGradient_ok.mp hnew
    rw [heq]
    exact hgradient
  have htree : (Gradients.ofList items).tree = block.gradients.tree.top := by
    refine Block.tree_of_rebuilds (fun item new hnew => ?_) hitems
    obtain ⟨_, -, -, rfl⟩ := forwardGradient_ok.mp hnew
    rfl
  obtain ⟨-, -, rfl⟩ := Block.assemble_ok.mp himage
  exact ⟨hvalues, by rwa [Gradients.toList_ofList], by rw [Block.tree_eq, htree, Block.tree_eq]⟩

theorem tree_of_forward {map : KeyedLayers} {tensor result : Tensor}
    (h : map.forward tensor = .ok result) :
    List.Forall₂ (fun item image => ∃ assigned, map.find? item.1 = some assigned ∧
      assigned.Maps item.2 image ∧
      (image.tree = item.2.tree ↔ ∀ old ∈ item.2.gradients.toList, old.2.gradients = .nil))
      tensor.items result.blocks := by
  obtain ⟨-, images, himages, -, -, rfl⟩ := forward_ok.mp h
  refine himages.imp fun item image himage => ?_
  obtain ⟨assigned, hfind, himage⟩ := forwardItem_ok.mp himage
  have hmaps := Assignment.maps_of_forward himage
  refine ⟨assigned, hfind, hmaps, ?_⟩
  rw [hmaps.tree, Block.tree_eq]
  exact Gradients.top_tree_eq

def oneLogistic : KeyedLayers := ⟨.single, [.logistic], none⟩

def oneNested : Tensor := ⟨.single, [nestedColumn [.zero]]⟩

theorem oneNested_valid : oneNested.Valid := by
  have h : (Archive.TensorRecord.ofTensor oneNested).tensor = .ok oneNested := rfl
  exact Archive.tensor_valid h

/-- The gradient below the first is lost. -/
theorem forward_oneNested :
    oneLogistic.forward oneNested = .ok ⟨.single, [flatColumn [Double.zero.logistic]]⟩ := rfl

theorem tree_of_forward_oneNested :
    oneLogistic.forward oneNested = .ok ⟨.single, [flatColumn [Double.zero.logistic]]⟩ ∧
      (flatColumn [Double.zero.logistic]).tree = (nestedColumn [.zero]).tree.top := by
  have hblocks := tree_of_forward forward_oneNested
  obtain ⟨⟨assigned, -, hmaps, -⟩, -⟩ := List.forall₂_cons.mp hblocks
  exact ⟨forward_oneNested, hmaps.tree⟩

theorem not_tree_of_forward : ¬ ∀ (map : KeyedLayers) (tensor result : Tensor), tensor.Valid →
    map.forward tensor = .ok result →
      List.Forall₂ (fun block image => image.tree = block.tree) tensor.blocks result.blocks := by
  intro h
  have htrees := h _ _ _ oneNested_valid forward_oneNested
  exact absurd (List.forall₂_cons.mp htrees).1 (by decide)

end BlockTensor.KeyedLayers
