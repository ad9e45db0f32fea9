import BlockTensor.Proofs.Built
import BlockTensor.Proofs.Split.Elementwise

/-!
# Operations on values alone

Scaling, adding a constant and filling with zeros or drawn numbers go through the checks of the
constructors, which can not fail, for the new arrays have the layout of the old ones. What comes
out is the old tensor with other arrays (`Tensor.Mapped`): at every path the same labels and the
same parameters in the same order, and the old array with one function applied. For a constant
this function is the identity below the blocks themselves.
-/

namespace BlockTensor

/-- `f` for the array of a block itself, and nothing for the arrays of its gradients. -/
def ownOnly (f : Values → Values) : List String → Values → Values
  | [] => f
  | _ :: _ => id

namespace Block

structure MappedHere (f : Values → Values) (old new : Block) : Prop where
  samples : new.samples = old.samples
  components : new.components = old.components
  properties : new.properties = old.properties
  parameters : new.gradients.parameters = old.gradients.parameters
  dtype : new.values.dtype = old.values.dtype
  shape : new.values.shape = old.values.shape
  values : new.values = f old.values

/-- The same at every path, the outermost parameter first. -/
def Mapped (f : List String → Values → Values) (old new : Block) : Prop :=
  ∀ path, Option.Rel (MappedHere (f path)) (old.gradientAt path) (new.gradientAt path)

theorem mapped_withArrays {f : List String → Values → Values}
    (hf : ∀ path, Values.KeepsLayout (f path)) (block : Block) :
    block.Mapped (fun path => f path.reverse) (block.withArrays f []) := by
  intro path
  rw [gradientAt_withArrays, List.append_nil]
  cases block.gradientAt path with
  | none => exact .none
  | some gradient =>
    rw [Option.map_some, withArrays_eq]
    exact .some ⟨rfl, rfl, rfl, Gradients.parameters_withArrays _, (hf _).dtype _,
      (hf _).shape _, rfl⟩

theorem mapped_withValues {f : Values → Values} (hf : Values.KeepsLayout f) (block : Block) :
    block.Mapped (ownOnly f) { block with values := f block.values } := by
  intro path
  cases path with
  | nil => exact .some ⟨rfl, rfl, rfl, rfl, hf.dtype _, hf.shape _, rfl⟩
  | cons parameter path =>
    show Option.Rel _ (block.gradientAt (parameter :: path)) (block.gradientAt (parameter :: path))
    cases block.gradientAt (parameter :: path) with
    | none => exact .none
    | some gradient => exact .some ⟨rfl, rfl, rfl, rfl, rfl, rfl, rfl⟩

end Block

namespace Tensor

/-- The keys of `old`, and its blocks, the array at a path of the block at a position through
`f` of this position and path. -/
structure Mapped (f : Nat → List String → Values → Values) (old new : Tensor) : Prop where
  keys : new.keys = old.keys
  blocks : List.Forall₂ (fun item block => item.1.Mapped (f item.2) block)
    old.blocks.zipIdx new.blocks

theorem mapped_of_zipIdx {f : Nat → List String → Values → Values} {g : Block × Nat → Block}
    (hg : ∀ item : Block × Nat, item.1.Mapped (f item.2) (g item)) (tensor : Tensor) :
    tensor.Mapped f ⟨tensor.keys, tensor.blocks.zipIdx.map g⟩ := by
  refine ⟨rfl, ?_⟩
  rw [List.forall₂_map_right_iff, List.forall₂_same]
  exact fun item _ => hg item

theorem mapped_of_map {f : List String → Values → Values} {g : Block → Block}
    (hg : ∀ block : Block, block.Mapped f (g block)) (tensor : Tensor) :
    tensor.Mapped (fun _ => f) ⟨tensor.keys, tensor.blocks.map g⟩ := by
  have hmap : tensor.blocks.map g = tensor.blocks.zipIdx.map fun item => g item.1 := by
    conv_lhs => rw [← List.zipIdx_map_fst 0 tensor.blocks, List.map_map]
    rfl
  rw [hmap]
  exact mapped_of_zipIdx (fun item => hg item.1) tensor

/-- Drawing numbers for a valid tensor never fails and changes nothing but the arrays. -/
theorem uniformFrom_eq {tensor : Tensor} (h : tensor.Valid)
    (draw : Nat → List String → Nat → Float) :
    tensor.uniformFrom draw = .ok ⟨tensor.keys, tensor.blocks.zipIdx.map fun item =>
      item.1.withArrays (fun path a => a.redrawn (draw item.2 path) .zero .one) []⟩ := by
  have hblock : ∀ item ∈ tensor.blocks.zipIdx, item.1.Valid :=
    fun item hmem => h.blocks item.1 (List.fst_mem_of_mem_zipIdx hmem)
  simp only [uniformFrom, bind_ok]
  refine ⟨_, mapM_ok_map fun item hmem => Block.mapArrays_eq
    (fun _ => Values.keepsLayout_redrawn _ _ _) (hblock item hmem), h.remake ?_⟩
  refine forall₂_zipIdx_map fun item hmem => ⟨item.1.agree_withArrays, ?_⟩
  rw [Block.withArrays_eq, Gradients.parameters_withArrays]
  exact (hblock item hmem).distinct

theorem mapValues_mapped {f : Values → Values} (hf : Values.KeepsLayout f) {tensor : Tensor}
    (h : tensor.Valid) :
    ∃ result, tensor.mapValues f = .ok result ∧ tensor.Mapped (fun _ _ => f) result :=
  ⟨_, mapValues_eq hf h, mapped_of_map (fun block => block.mapped_withArrays fun _ => hf) tensor⟩

theorem addScalar_mapped {tensor : Tensor} (h : tensor.Valid) (scalar : Double) :
    ∃ result, tensor.addScalar scalar = .ok result ∧
      tensor.Mapped (fun _ => ownOnly (Values.addScalar scalar)) result ∧
      result.blocks.map Block.gradients = tensor.blocks.map Block.gradients := by
  have hf := Values.keepsLayout_addScalar scalar
  exact ⟨_, addScalar_eq h, mapped_of_map (fun block => block.mapped_withValues hf) tensor,
    List.map_map⟩

end Tensor

/-- The five operations succeed, and this is what they make of the arrays. -/
theorem value_operations_keep_labels {tensor : Tensor} (h : tensor.Valid) (scalar : Double)
    (draw : Nat → List String → Nat → Float) :
    (∃ result, tensor.multiply scalar = .ok result ∧
      tensor.Mapped (fun _ _ => Values.mulScalar scalar) result) ∧
    (∃ result, tensor.zerosLike = .ok result ∧ tensor.Mapped (fun _ _ => Values.zeroed) result) ∧
    (∃ result, tensor.uniformFrom draw = .ok result ∧ tensor.Mapped
      (fun position path a => a.redrawn (draw position path.reverse) .zero .one) result) ∧
    (∃ result, tensor.addScalar scalar = .ok result ∧
      tensor.Mapped (fun _ => ownOnly (Values.addScalar scalar)) result ∧
      result.blocks.map Block.gradients = tensor.blocks.map Block.gradients) ∧
    ∃ result, tensor.subtractScalar scalar = .ok result ∧
      tensor.Mapped (fun _ => ownOnly (Values.addScalar scalar.neg)) result ∧
      result.blocks.map Block.gradients = tensor.blocks.map Block.gradients := by
  refine ⟨Tensor.mapValues_mapped (Values.keepsLayout_mulScalar scalar) h,
    Tensor.mapValues_mapped Values.keepsLayout_zeroed h, ⟨_, Tensor.uniformFrom_eq h draw, ?_⟩,
    Tensor.addScalar_mapped h scalar, Tensor.addScalar_mapped h scalar.neg⟩
  exact Tensor.mapped_of_zipIdx (fun item => item.1.mapped_withArrays
    fun _ => Values.keepsLayout_redrawn _ _ _) tensor

theorem value_operations_nested : nestedTensor.Valid ∧
    (∃ result, nestedTensor.multiply .minusOne = .ok result ∧
      nestedTensor.Mapped (fun _ _ => Values.mulScalar .minusOne) result) ∧
    ∃ result, nestedTensor.subtractScalar .minusOne = .ok result ∧
      nestedTensor.Mapped (fun _ => ownOnly (Values.addScalar .one)) result ∧
      result.blocks.map Block.gradients = nestedTensor.blocks.map Block.gradients := by
  have hneg : Double.minusOne.neg = .one := rfl
  obtain ⟨hmultiply, -, -, -, hsubtract⟩ :=
    value_operations_keep_labels nestedTensor_valid .minusOne fun _ _ _ => 0
  rw [hneg] at hsubtract
  exact ⟨nestedTensor_valid, hmultiply, hsubtract⟩

end BlockTensor
