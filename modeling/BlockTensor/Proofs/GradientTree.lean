import BlockTensor.Proofs.Built

/-!
# Parameters at every depth

The tree of a block are the parameters of its gradients, in order, with the
trees of the gradients below them. Splitting rebuilds every gradient from its
own array and labels alone, so a part has the top of the tree and nothing below
it. The tree survives exactly when it has no second level.
-/

namespace BlockTensor

/-- A list of parameters, each with such a list below it. -/
inductive ParameterTree where
  | leaf
  | branch (parameter : String) (below rest : ParameterTree)
  deriving DecidableEq, Repr

def ParameterTree.top : ParameterTree → ParameterTree
  | leaf => leaf
  | branch parameter _ rest => branch parameter leaf rest.top

mutual
def Block.tree : Block → ParameterTree
  | ⟨_, _, _, _, gradients⟩ => gradients.tree
def Gradients.tree : Gradients → ParameterTree
  | .nil => .leaf
  | .cons parameter gradient rest => .branch parameter gradient.tree rest.tree
end

theorem Block.tree_eq (block : Block) : block.tree = block.gradients.tree := by
  cases block
  rw [tree]

theorem Gradients.tree_eq_leaf {gradients : Gradients} :
    gradients.tree = .leaf ↔ gradients = nil := by
  cases gradients <;> simp [tree]

theorem Gradients.top_tree_eq {gradients : Gradients} : gradients.tree.top = gradients.tree ↔
    ∀ item ∈ gradients.toList, item.2.gradients = nil := by
  induction gradients with
  | nil => simp [tree, ParameterTree.top, toList]
  | cons parameter gradient rest ih =>
    have hbelow : ParameterTree.leaf = gradient.tree ↔ gradient.gradients = nil := by
      rw [Block.tree_eq, eq_comm, tree_eq_leaf]
    simp only [tree, ParameterTree.top, toList, List.forall_mem_cons, ParameterTree.branch.injEq,
      true_and, hbelow, ih]

-- ---------------------------------------------------------------------------
-- Splitting
-- ---------------------------------------------------------------------------

namespace Block

theorem gradients_of_keepGradientSamples {numbering : List (Nat × LabelValue)}
    {properties : Labels} {gradient result : Block}
    (h : gradient.keepGradientSamples numbering properties = .ok result) :
    result.gradients = .nil := by
  obtain ⟨_, _, -, -, -, rfl⟩ := keepGradientSamples_ok.mp h
  rfl

theorem gradients_of_keepGradientProperties {kept : List Nat} {properties : Labels}
    {gradient result : Block} (h : gradient.keepGradientProperties kept properties = .ok result) :
    result.gradients = .nil := by
  obtain ⟨_, -, -, rfl⟩ := keepGradientProperties_ok.mp h
  rfl

/-- Gradients rebuilt without gradients of their own leave the first level. -/
theorem tree_of_rebuilds {ε : Type} {f : String × Block → Except ε Block} {gradients : Gradients}
    {news : List (String × Block)} (hf : ∀ item new, f item = .ok new → new.gradients = .nil)
    (h : List.Forall₂ (Rebuilds f) gradients.toList news) :
    (Gradients.ofList news).tree = gradients.tree.top := by
  induction gradients generalizing news with
  | nil =>
    cases h
    rfl
  | cons parameter gradient rest ih =>
    cases h with
    | @cons _ new _ others hnew hothers =>
      obtain ⟨hparameter, hmade⟩ := hnew
      have hbelow : new.2.tree = .leaf := by
        rw [tree_eq, hf _ _ hmade, Gradients.tree]
      simp only [Gradients.ofList, Gradients.tree, ParameterTree.top, ih hothers, hbelow,
        ← hparameter]

theorem tree_of_assemble {values : Values} {samples : Labels} {components : List Labels}
    {properties : Labels} {items : List (String × Block)} {result : Block}
    (h : assemble values samples components properties items = .ok result) :
    result.tree = (Gradients.ofList items).tree := by
  obtain ⟨-, -, rfl⟩ := assemble_ok.mp h
  rw [tree_eq]

theorem tree_of_part {block part : Block} {axis : Axis} {group : Labels}
    (h : block.part axis group = .ok part) : part.tree = block.tree.top := by
  simp only [Block.part, bind_ok] at h
  obtain ⟨kept, -, h⟩ := h
  rw [tree_eq block]
  cases axis with
  | samples =>
    obtain ⟨_, _, _, items, -, -, -, hitems, hpart⟩ := keepSamples_ok.mp h
    rw [tree_of_assemble hpart]
    exact tree_of_rebuilds (fun _ _ => gradients_of_keepGradientSamples) hitems
  | properties =>
    obtain ⟨_, _, items, -, -, hitems, hpart⟩ := keepProperties_ok.mp h
    rw [tree_of_assemble hpart]
    exact tree_of_rebuilds (fun _ _ => gradients_of_keepGradientProperties) hitems

theorem tree_of_split {block part : Block} {axis : Axis} {groups : List Labels}
    {parts : List Block} (h : block.split axis groups = .ok parts) (hmem : part ∈ parts) :
    part.tree = block.tree.top ∧
      (part.tree = block.tree ↔ ∀ item ∈ block.gradients.toList, item.2.gradients = .nil) := by
  obtain ⟨group, -, hpart⟩ := exists_of_forall₂ (mapM_ok.mp h) hmem
  have htree := tree_of_part hpart
  refine ⟨htree, ?_⟩
  rw [htree, tree_eq block]
  exact Gradients.top_tree_eq

/-- The group that keeps every sample loses the gradient below the first. -/
theorem split_nestedColumn : (nestedColumn [.one]).split .samples [(nestedColumn [.one]).samples] =
    .ok [flatColumn [.one]] := rfl

theorem tree_of_split_nestedColumn :
    (nestedColumn [.one]).split .samples [(nestedColumn [.one]).samples] =
        .ok [flatColumn [.one]] ∧
      (flatColumn [.one]).tree = (nestedColumn [.one]).tree.top :=
  ⟨split_nestedColumn, (tree_of_split split_nestedColumn List.mem_cons_self).1⟩

theorem not_tree_of_split : ¬ ∀ (block : Block) (axis : Axis) (groups : List Labels)
    (parts : List Block), block.Valid → block.split axis groups = .ok parts →
      ∀ part ∈ parts, part.tree = block.tree := by
  intro h
  have hvalid : (nestedColumn [.one]).Valid := by
    have hmade : (Archive.BlockRecord.ofBlock (nestedColumn [.one])).block =
      .ok (nestedColumn [.one]) := rfl
    exact Archive.block_valid hmade
  have heq := h _ _ _ _ hvalid split_nestedColumn _ List.mem_cons_self
  exact absurd heq (by decide)

end Block

end BlockTensor
