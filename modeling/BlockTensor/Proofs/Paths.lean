import BlockTensor.Proofs.TensorLaws
import Mathlib.Data.Option.Basic

/-!
# Gradients by their path

A path of parameters, the outermost first, leads to a gradient of a gradient,
and the empty path to the block itself. Insertion order plays no part in it, so
what holds at every path holds at every depth. `withArrays` puts other arrays
into a block at every depth and leaves everything else; `mapArrays_eq` says
that mapping does just that to a valid block and never fails, provided that the
new arrays keep the layout of the old ones.
-/

namespace BlockTensor

-- ---------------------------------------------------------------------------
-- Paths
-- ---------------------------------------------------------------------------

def Block.gradientAt (block : Block) : List String → Option Block
  | [] => some block
  | parameter :: path =>
    (block.gradients.find? parameter).bind fun gradient => gradient.gradientAt path

-- ---------------------------------------------------------------------------
-- Other arrays
-- ---------------------------------------------------------------------------

mutual
/-- The block with `f` of its array, and of each array of its gradients. The
path of an array are the parameters that lead to it, the innermost first. -/
def Block.withArrays (f : List String → Values → Values) (path : List String) : Block → Block
  | ⟨values, samples, components, properties, gradients⟩ =>
    ⟨f path values, samples, components, properties, gradients.withArrays f path⟩
def Gradients.withArrays (f : List String → Values → Values) (path : List String) :
    Gradients → Gradients
  | .nil => .nil
  | .cons parameter gradient rest =>
    .cons parameter (gradient.withArrays f (parameter :: path)) (rest.withArrays f path)
end

section
variable {f : List String → Values → Values} {path : List String}

namespace Gradients

theorem toList_withArrays (gradients : Gradients) : (gradients.withArrays f path).toList =
    gradients.toList.map fun item => (item.1, item.2.withArrays f (item.1 :: path)) := by
  induction gradients with
  | nil => rfl
  | cons _ _ _ ih => simp only [withArrays, toList, List.map_cons, ih]

theorem find?_withArrays (gradients : Gradients) (parameter : String) :
    (gradients.withArrays f path).find? parameter =
      (gradients.find? parameter).map fun gradient =>
        gradient.withArrays f (parameter :: path) := by
  induction gradients with
  | nil => rfl
  | cons key gradient rest ih =>
    simp only [withArrays, find?]
    split
    next h => rw [h, Option.map_some]
    next => exact ih

theorem parameters_withArrays (gradients : Gradients) :
    (gradients.withArrays f path).parameters = gradients.parameters := by
  induction gradients with
  | nil => rfl
  | cons _ _ _ ih => simp only [withArrays, parameters, ih]

end Gradients

namespace Block

theorem withArrays_eq (block : Block) : block.withArrays f path =
    ⟨f path block.values, block.samples, block.components, block.properties,
      block.gradients.withArrays f path⟩ := by
  cases block
  rw [withArrays]

theorem agree_withArrays (block : Block) :
    block.Agree (block.withArrays f path) := by
  rw [withArrays_eq]
  refine ⟨rfl, rfl, rfl, ?_, ?_⟩
  · intro parameter
    rw [Gradients.parameters_withArrays]
  · intro parameter a b ha hb
    rw [Gradients.find?_withArrays, ha, Option.map_some, withArrays_eq] at hb
    cases hb
    rfl

theorem gradientAt_withArrays (block : Block) (inner : List String) :
    (block.withArrays f path).gradientAt inner =
      (block.gradientAt inner).map fun gradient =>
        gradient.withArrays f (inner.reverse ++ path) := by
  induction inner generalizing block path with
  | nil => rfl
  | cons parameter inner ih =>
    rw [withArrays_eq, gradientAt, gradientAt, Gradients.find?_withArrays]
    cases block.gradients.find? parameter with
    | none => rfl
    | some gradient =>
      rw [Option.map_some, Option.bind_some, Option.bind_some, ih, List.reverse_cons,
        List.append_assoc, List.singleton_append]

end Block

end

-- ---------------------------------------------------------------------------
-- Rebuilding
-- ---------------------------------------------------------------------------

namespace Block

/-- What a parent and the other blocks of a tensor see of a gradient. -/
structure SameFrame (old new : Block) : Prop where
  dtype : new.values.dtype = old.values.dtype
  samples : new.samples = old.samples
  components : new.components = old.components
  properties : new.properties = old.properties

theorem Fits.of_sameFrame {parent gradient parent' gradient' : Block} (h : parent.Fits gradient)
    (hparent : parent.SameFrame parent') (hgradient : gradient.SameFrame gradient') :
    parent'.Fits gradient' where
  dtype := by rw [hgradient.dtype, hparent.dtype, h.dtype]
  firstName := by rw [hgradient.samples, h.firstName]
  samples := by
    rw [hgradient.samples, hparent.samples]
    exact h.samples
  properties := by rw [hgradient.properties, hparent.properties, h.properties]
  components := by
    rw [hgradient.components, hparent.components]
    exact h.components

/-- A valid block can be rebuilt from a new array and new gradients. -/
theorem Valid.reassemble {block : Block} (h : block.Valid) {values : Values}
    (hdtype : values.dtype = block.values.dtype) (hshape : values.shape = block.values.shape)
    {items : List (String × Block)}
    (hitems : List.Forall₂ (fun old new => old.1 = new.1 ∧ old.2.SameFrame new.2)
      block.gradients.toList items) :
    Block.assemble values block.samples block.components block.properties items =
      .ok ⟨values, block.samples, block.components, block.properties, .ofList items⟩ := by
  obtain ⟨own, hdistinct, hreserved, hgradients⟩ := valid_iff.mp h
  have hnames := map_fst_of_forall₂ (hitems.imp fun _ _ hitem => hitem.1)
  rw [Gradients.parameters_eq_map_toList, hnames] at hdistinct hreserved
  refine assemble_ok.mpr ⟨⟨hshape.trans own.axes.shape, own.axes.componentNames⟩,
    ⟨hdistinct, hreserved, fun _ _ => List.not_mem_nil, fun item hmem => ?_⟩, rfl⟩
  obtain ⟨old, hold, -, hframe⟩ := exists_of_forall₂ hitems hmem
  exact (hgradients old hold).1.of_sameFrame ⟨hdtype, rfl, rfl, rfl⟩ hframe

theorem mapArrays_eq {f : List String → Values → Values} (hf : ∀ path, Values.KeepsLayout (f path))
    {path : List String} {block : Block} (h : block.Valid) :
    block.mapArrays (fun path values => .ok (f path values)) path =
      .ok (block.withArrays f path) := by
  induction block generalizing path with
  | step block ih =>
    refine mapArrays_ok.mpr ⟨_, (block.gradients.withArrays f path).toList, rfl, ?_, ?_⟩
    · rw [Gradients.toList_withArrays, List.forall₂_map_right_iff, List.forall₂_same]
      exact fun item hmem => ⟨rfl, ih item hmem (h.gradient hmem).2⟩
    · rw [h.reassemble ((hf path).dtype _) ((hf path).shape _), withArrays_eq,
        Gradients.ofList_toList]
      rw [Gradients.toList_withArrays, List.forall₂_map_right_iff, List.forall₂_same]
      refine fun item _ => ⟨rfl, ?_⟩
      rw [withArrays_eq]
      exact ⟨(hf _).dtype _, rfl, rfl, rfl⟩

end Block

-- ---------------------------------------------------------------------------
-- Tensors
-- ---------------------------------------------------------------------------

namespace Tensor

/-- A valid tensor can be rebuilt from blocks that agree with its own. -/
theorem Valid.remake {tensor : Tensor} (h : tensor.Valid) {blocks : List Block}
    (hblocks : List.Forall₂ (fun old new => old.Agree new ∧ new.gradients.parameters.Nodup)
      tensor.blocks blocks) : Tensor.make tensor.keys blocks = .ok ⟨tensor.keys, blocks⟩ := by
  refine (make_ok fun block hmem => ?_).mpr
    ⟨h.count.trans hblocks.length_eq, fun left hleft right hright => ?_, rfl⟩
  · obtain ⟨_, -, -, hdistinct⟩ := exists_of_forall₂ hblocks hmem
    exact hdistinct
  · obtain ⟨old, hold, hagree, -⟩ := exists_of_forall₂ hblocks hleft
    obtain ⟨old', hold', hagree', -⟩ := exists_of_forall₂ hblocks hright
    exact hagree.symm.trans ((h.agree old hold old' hold').trans hagree')

/-- Mapping a valid tensor never fails and changes nothing but the arrays. -/
theorem mapValues_eq {f : Values → Values} (hf : Values.KeepsLayout f) {tensor : Tensor}
    (h : tensor.Valid) : tensor.mapValues f =
      .ok ⟨tensor.keys, tensor.blocks.map fun block => block.withArrays (fun _ => f) []⟩ := by
  simp only [mapValues, mapBlocks, bind_ok]
  refine ⟨_, mapM_ok_map fun block hmem =>
    Block.mapArrays_eq (fun _ => hf) (h.blocks block hmem), h.remake ?_⟩
  rw [List.forall₂_map_right_iff, List.forall₂_same]
  intro block hmem
  refine ⟨block.agree_withArrays, ?_⟩
  rw [Block.withArrays_eq, Gradients.parameters_withArrays]
  exact (h.blocks block hmem).distinct

end Tensor

end BlockTensor
