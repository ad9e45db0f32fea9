import BlockTensor.Proofs.Paths
import BlockTensor.Proofs.Split.Parts

/-!
# Element by element, before or after a split

Scaling, adding a constant and filling with zeros treat every element alike and
leave the labels alone, so entries may be dropped before or after
(`Values.Elementwise`, `Block.ThroughCuts`). What such an operation makes of a
tensor therefore splits into what it makes of the parts.
-/

namespace BlockTensor

-- ---------------------------------------------------------------------------
-- Arrays
-- ---------------------------------------------------------------------------

namespace Dense

variable {α : Type} {a : Dense α}

theorem full_eq_map (ha : a.Valid) (value : α) : full a.shape value = a.map fun _ => value := by
  rw [full, map, ← ha.size, List.map_const']

theorem full_picked {axis : Nat} {indices : List Nat} (ha : a.Valid)
    (hpicked : (a.picked axis indices).Valid) (value : α) :
    (full a.shape value).picked axis indices = full (a.picked axis indices).shape value := by
  rw [full_eq_map ha, picked_map, full_eq_map hpicked]

end Dense

namespace Values

/-- An operation that makes the same of the entries that are picked, whether they
are picked before or after. -/
structure Elementwise (f : Values → Values) : Prop extends KeepsLayout f where
  picked : ∀ {a : Values} {axis : Nat} {indices : List Nat}, a.Valid →
    (a.picked axis indices).Valid → (f a).picked axis indices = f (a.picked axis indices)

theorem elementwise_mulScalar (scalar : Double) : Elementwise (mulScalar scalar) where
  toKeepsLayout := keepsLayout_mulScalar scalar
  picked {a _ _} _ _ := by
    cases a
    · exact congrArg float32 (Dense.picked_map ..)
    · exact congrArg float64 (Dense.picked_map ..)

theorem elementwise_addScalar (scalar : Double) : Elementwise (addScalar scalar) where
  toKeepsLayout := keepsLayout_addScalar scalar
  picked {a _ _} _ _ := by
    cases a
    · exact congrArg float32 (Dense.picked_map ..)
    · exact congrArg float64 (Dense.picked_map ..)

theorem elementwise_zeroed : Elementwise zeroed where
  toKeepsLayout := keepsLayout_zeroed
  picked {a _ _} ha hpicked := by
    cases a
    · exact congrArg float32 (Dense.full_picked ha hpicked _)
    · exact congrArg float64 (Dense.full_picked ha hpicked _)

end Values

-- ---------------------------------------------------------------------------
-- Blocks
-- ---------------------------------------------------------------------------

namespace Block

structure ThroughCuts (F : Block → Block) : Prop where
  valid : ∀ {block : Block}, block.Valid → (F block).Valid
  labels : ∀ axis block, Axis.labels axis (F block) = axis.labels block
  cut : ∀ {block : Block} {axis : Axis} {kept : List Nat}, block.Valid →
    (block.cut axis kept).Valid → (F block).cut axis kept = F (block.cut axis kept)

theorem ThroughCuts.part {F : Block → Block} (hF : ThroughCuts F) {block part : Block}
    {axis : Axis} {group : Labels} (hblock : block.Valid)
    (h : block.part axis group = .ok part) : (F block).part axis group = .ok (F part) := by
  have hpart := part_valid hblock h
  obtain ⟨kept, hkept, hcount, rfl⟩ := (part_ok hblock).mp h
  exact (part_ok (hF.valid hblock)).mpr
    ⟨kept, (hF.labels axis block).symm ▸ hkept, hcount, (hF.cut hblock hpart).symm⟩

section
variable {f : Values → Values} (hf : Values.Elementwise f)
include hf

theorem cutGradient_withArrays {gradient : Block} {axis : Axis} {kept : List Nat}
    (hgradient : gradient.Valid) (hcut : (gradient.cutGradient axis kept).Valid)
    (path : List String) : (gradient.withArrays (fun _ => f) path).cutGradient axis kept =
      (gradient.cutGradient axis kept).withArrays (fun _ => f) path := by
  have ha := hgradient.labelled.values
  have hpicked := hcut.labelled.values
  rw [withArrays_eq, withArrays_eq]
  cases axis with
  | samples => exact congrArg (fun values => Block.mk values _ _ _ _) (hf.picked ha hpicked)
  | properties =>
    rw [cutGradient, hf.shape]
    exact congrArg (fun values => Block.mk values _ _ _ _) (hf.picked ha hpicked)

theorem withArrays_valid {block : Block} (h : block.Valid) (path : List String) :
    (block.withArrays (fun _ => f) path).Valid := by
  refine mapArrays_valid (fun _ a b ha hb => ?_) h (mapArrays_eq (fun _ => hf.toKeepsLayout) h)
  cases hb
  exact hf.valid a ha

theorem throughCuts_withArrays (path : List String) :
    ThroughCuts fun block => block.withArrays (fun _ => f) path where
  valid hblock := withArrays_valid hf hblock path
  labels axis block := by
    rw [withArrays_eq]
    cases axis <;> rfl
  cut {block axis kept} hblock hcut := by
    have ha := hblock.labelled.values
    have hpicked := hcut.labelled.values
    have hgradients : (block.gradients.withArrays (fun _ => f) path).map (cutGradient axis kept) =
        (block.gradients.map (cutGradient axis kept)).withArrays (fun _ => f) path := by
      rw [← Gradients.ofList_toList (Gradients.map _ _), Gradients.toList_map,
        Gradients.toList_withArrays, List.map_map]
      rw [← Gradients.ofList_toList (Gradients.withArrays _ _ _), Gradients.toList_withArrays,
        Gradients.toList_map, List.map_map]
      refine congrArg _ (List.map_congr_left fun item hmem => ?_)
      exact congrArg (item.1, ·)
        (cutGradient_withArrays hf (hblock.gradient hmem).2 (cutGradient_valid hcut hmem) _)
    rw [withArrays_eq, withArrays_eq]
    cases axis with
    | samples =>
      exact congrArg₂ (fun values => Block.mk values _ _ _) (hf.picked ha hpicked) hgradients
    | properties =>
      rw [cut, hf.shape]
      exact congrArg₂ (fun values => Block.mk values _ _ _) (hf.picked ha hpicked) hgradients

theorem withValues_eq {block : Block} (h : block.Valid) :
    block.withValues (f block.values) = .ok { block with values := f block.values } := by
  have haxes := h.labelled.axes
  rw [← hf.shape] at haxes
  exact bind_ok.mpr ⟨_, make_ok.mpr ⟨haxes, rfl⟩, rfl⟩

theorem throughCuts_withValues :
    ThroughCuts fun block => { block with values := f block.values } where
  valid {block} hblock := withValues_valid hblock (hf.valid _ hblock.labelled.values)
    (hf.dtype _) (withValues_eq hf hblock)
  labels axis block := by cases axis <;> rfl
  cut {block axis kept} hblock hcut := by
    have ha := hblock.labelled.values
    have hpicked := hcut.labelled.values
    cases axis with
    | samples => exact congrArg (fun values => Block.mk values _ _ _ _) (hf.picked ha hpicked)
    | properties =>
      rw [cut, hf.shape]
      exact congrArg (fun values => Block.mk values _ _ _ _) (hf.picked ha hpicked)

end

end Block

-- ---------------------------------------------------------------------------
-- Tensors
-- ---------------------------------------------------------------------------

namespace Tensor

/-- What `op` makes of the tensor splits into what it makes of the parts. -/
def SplitsAlong (op : Tensor → Except Error Tensor) (axis : Axis) (groups : List Labels)
    (tensor : Tensor) (parts : List Tensor) : Prop :=
  ∃ result images, op tensor = .ok result ∧ result.split axis groups = .ok images ∧
    List.Forall₂ (fun part image => op part = .ok image) parts images

theorem addScalar_eq {scalar : Double} {tensor : Tensor} (h : tensor.Valid) :
    tensor.addScalar scalar = .ok ⟨tensor.keys, tensor.blocks.map fun block =>
      { block with values := block.values.addScalar scalar }⟩ := by
  simp only [addScalar, mapBlocks, bind_ok]
  refine ⟨_, mapM_ok_map fun block hmem =>
    Block.withValues_eq (Values.elementwise_addScalar scalar) (h.blocks block hmem), h.remake ?_⟩
  rw [List.forall₂_map_right_iff, List.forall₂_same]
  exact fun block hmem => ⟨⟨rfl, rfl, rfl, .refl _⟩, (h.blocks block hmem).distinct⟩

section
variable {axis : Axis} {groups : List Labels} {tensor : Tensor} {parts : List Tensor}
  (htensor : tensor.Valid) (hsplit : tensor.split axis groups = .ok parts)
include htensor hsplit

/-- An operation that works block by block, through cuts. -/
theorem splitsAlong_of_throughCuts {op : Tensor → Except Error Tensor} {F : Block → Block}
    (hF : Block.ThroughCuts F) (hop : ∀ {tensor : Tensor}, tensor.Valid →
      op tensor = .ok ⟨tensor.keys, tensor.blocks.map F⟩)
    (hvalid : ∀ {tensor result : Tensor}, tensor.Valid → op tensor = .ok result → result.Valid) :
    SplitsAlong op axis groups tensor parts := by
  have hresult := hvalid htensor (hop htensor)
  refine ⟨_, parts.map fun part => ⟨part.keys, part.blocks.map F⟩, hop htensor,
    split_ok.mpr ?_, ?_⟩
  · rw [List.forall₂_map_right_iff]
    refine (split_ok.mp hsplit).imp fun group part hpart => ?_
    obtain ⟨blocks, hblocks, rfl⟩ := (part_ok htensor.count htensor.agree).mp hpart
    refine (part_ok hresult.count hresult.agree).mpr ⟨blocks.map F, ?_, rfl⟩
    rw [List.forall₂_map_left_iff, List.forall₂_map_right_iff]
    exact ((List.forall₂_and_left _ _).mpr ⟨htensor.blocks, hblocks⟩).imp
      fun block part ⟨hblock, hpart⟩ => hF.part hblock hpart
  · rw [List.forall₂_map_right_iff, List.forall₂_same]
    exact fun part hmem => hop (split_valid htensor hsplit hmem)

theorem splitsAlong_mapValues {f : Values → Values} (hf : Values.Elementwise f) :
    SplitsAlong (mapValues f) axis groups tensor parts :=
  splitsAlong_of_throughCuts htensor hsplit (Block.throughCuts_withArrays hf [])
    (fun h => mapValues_eq hf.toKeepsLayout h) fun h => mapValues_valid hf.toKeepsLayout h

theorem splitsAlong_addScalar (scalar : Double) :
    SplitsAlong (addScalar scalar) axis groups tensor parts :=
  splitsAlong_of_throughCuts htensor hsplit
    (Block.throughCuts_withValues (Values.elementwise_addScalar scalar)) addScalar_eq
    addScalar_valid

end

end Tensor

end BlockTensor
