import BlockTensor.Proofs.TensorLaws

/-!
# Splitting block by block or group by group

A tensor is split block by block, and the parts are then put together group by
group. `Tensor.part` is one group alone, and `split_ok` says that splitting
takes the part of every group: rows of parts become columns. A part keeps the
names of its block (`Block.part_agree`).
-/

namespace BlockTensor

-- ---------------------------------------------------------------------------
-- Kept positions
-- ---------------------------------------------------------------------------

theorem positionsWhere_sublist {α : Type} (test : α → Bool) (items : List α) :
    (positionsWhere test items).Sublist (List.range items.length) := by
  have h := (List.filter_sublist (l := items.zipIdx) (p := fun pair => test pair.1)).map
    fun pair => pair.2
  rwa [List.zipIdx_map_snd, ← List.range_eq_range'] at h

theorem keptPositions_sublist {axis : Axis} {labels group : Labels} {kept : List Nat}
    (h : keptPositions axis labels group = .ok kept) :
    kept.Sublist (List.range labels.length) := by
  unfold keptPositions at h
  split at h
  · cases h
  · simp only [Rows.select, bind_ok, pure_ok] at h
    obtain ⟨_, ⟨columns, -, _, -, rfl⟩, rfl⟩ := h
    have hsublist := positionsWhere_sublist group.contains
      (labels.entries.map (Rows.project columns))
    rwa [List.length_map] at hsublist

-- ---------------------------------------------------------------------------
-- Parts of blocks
-- ---------------------------------------------------------------------------

theorem AxesFit.select_iff {a part : Values} {samples kept : Labels} {components : List Labels}
    {properties : Labels} {positions : List Nat}
    (h : AxesFit a.shape samples components properties) (hpart : a.select 0 positions = .ok part) :
    AxesFit part.shape kept components properties ↔ positions.length = kept.length := by
  have hshape : part.shape =
      positions.length :: components.map (fun c => c.length) ++ [properties.length] := by
    rw [(Values.select_valid hpart).2.2, h.shape, List.cons_append, List.set_cons_zero,
      List.cons_append]
  constructor
  · intro hfit
    rw [hfit.shape] at hshape
    exact (List.head_eq_of_cons_eq hshape).symm
  · intro hlength
    exact ⟨by rw [hshape, hlength], h.componentNames⟩

/-- Gradients with the parameters and the sample names of others, in order. -/
theorem Gradients.agree_of_forall₂ {gradients : Gradients} {news : List (String × Block)}
    (h : List.Forall₂ (fun old new => old.1 = new.1 ∧ old.2.samples.names = new.2.samples.names)
      gradients.toList news) : gradients.Agree (.ofList news) := by
  induction gradients generalizing news with
  | nil =>
    cases h
    exact .refl _
  | cons parameter gradient rest ih =>
    cases h with
    | @cons _ new _ others hnew hothers =>
      obtain ⟨new, made⟩ := new
      obtain ⟨rfl, hnames⟩ := hnew
      have hrest := ih hothers
      refine ⟨fun key => by simp [ofList, parameters, hrest.parameters key], ?_⟩
      intro key a b ha hb
      simp only [ofList, find?] at ha hb
      split at ha
      next heq =>
        rw [if_pos heq] at hb
        rw [← Option.some.inj ha, ← Option.some.inj hb]
        exact hnames
      next hne =>
        rw [if_neg hne] at hb
        exact hrest.sampleNames key a b ha hb

namespace Block

theorem part_assembles {block part : Block} {axis : Axis} {group : Labels}
    (h : block.part axis group = .ok part) : ∃ values samples properties items,
      assemble values samples block.components properties items = .ok part ∧
      samples.names = block.samples.names ∧ properties.names = block.properties.names ∧
      List.Forall₂ (fun old new => old.1 = new.1 ∧ old.2.samples.names = new.2.samples.names)
        block.gradients.toList items := by
  simp only [Block.part, bind_ok] at h
  obtain ⟨kept, -, h⟩ := h
  cases axis with
  | samples =>
    obtain ⟨samples, values, _, items, hsamples, -, -, hitems, hpart⟩ := keepSamples_ok.mp h
    refine ⟨values, samples, _, items, hpart, (Labels.ofFlat_valid hsamples).2.1, rfl, ?_⟩
    refine hitems.imp fun old new ⟨hparameter, hnew⟩ => ⟨hparameter, ?_⟩
    obtain ⟨rows, _, hrows, -, -, heq⟩ := keepGradientSamples_ok.mp hnew
    rw [heq]
    exact (Labels.ofFlat_valid hrows).2.1.symm
  | properties =>
    obtain ⟨properties, values, items, hproperties, -, hitems, hpart⟩ := keepProperties_ok.mp h
    refine ⟨values, _, properties, items, hpart, rfl, (Labels.ofFlat_valid hproperties).2.1, ?_⟩
    refine hitems.imp fun old new ⟨hparameter, hnew⟩ => ⟨hparameter, ?_⟩
    obtain ⟨_, -, -, heq⟩ := keepGradientProperties_ok.mp hnew
    rw [heq]

theorem Agree.names_labels {left right : Block} (h : left.Agree right) {axis : Axis} :
    (axis.labels left).names = (axis.labels right).names := by
  cases axis with
  | samples => exact h.sampleNames
  | properties => exact h.propertyNames

theorem part_agree {block part : Block} {axis : Axis} {group : Labels}
    (h : block.part axis group = .ok part) : block.Agree part := by
  obtain ⟨_, _, _, _, hpart, hsamples, hproperties, hitems⟩ := part_assembles h
  obtain ⟨-, -, rfl⟩ := assemble_ok.mp hpart
  exact ⟨hsamples.symm, rfl, hproperties.symm, Gradients.agree_of_forall₂ hitems⟩

theorem distinct_of_part {block part : Block} {axis : Axis} {group : Labels}
    (h : block.part axis group = .ok part) : part.gradients.parameters.Nodup := by
  obtain ⟨_, _, _, _, hpart, -⟩ := part_assembles h
  exact distinct_of_assemble hpart

end Block

-- ---------------------------------------------------------------------------
-- Rows and columns
-- ---------------------------------------------------------------------------

def columnsOf {α : Type} (count : Nat) (rows : List (List α)) : List (List α) :=
  (List.range count).map fun column => rows.filterMap fun row => row[column]?

section
variable {α β γ : Type} {R : α → β → γ → Prop} {items : List α} {others : List β}

theorem forall₂_columnsOf {rows : List (List γ)}
    (h : List.Forall₂ (fun a row => List.Forall₂ (R a) others row) items rows) :
    List.Forall₂ (fun b column => List.Forall₂ (fun a c => R a b c) items column) others
      (columnsOf others.length rows) := by
  rw [List.forall₂_iff_get]
  refine ⟨by simp [columnsOf], fun i hi _ => ?_⟩
  simp only [columnsOf, List.get_eq_getElem, List.getElem_map, List.getElem_range]
  induction h with
  | nil => exact .nil
  | @cons a row items rows hrow _ ih =>
    have hi' : i < row.length := hrow.length_eq ▸ hi
    have hget : row[i]? = some row[i] := List.getElem?_eq_getElem hi'
    rw [List.filterMap_cons_some (f := fun row => row[i]?) hget]
    exact .cons (hrow.get hi hi') (ih (by simpa [columnsOf] using hi))

/-- Rows whose entries are determined by their places are read off their columns. -/
theorem exists_rows_iff (hunique : ∀ a b c c', R a b c → R a b c' → c = c')
    {columns : List (List γ)} :
    (∃ rows, List.Forall₂ (fun a row => List.Forall₂ (R a) others row) items rows ∧
        columns = columnsOf others.length rows) ↔
      List.Forall₂ (fun b column => List.Forall₂ (fun a c => R a b c) items column) others
        columns := by
  constructor
  · rintro ⟨rows, hrows, rfl⟩
    exact forall₂_columnsOf hrows
  · intro h
    -- Columns of columns are rows, and the columns of those are the old ones.
    have hrows := forall₂_columnsOf (R := fun b a c => R a b c) h
    refine ⟨_, hrows, ?_⟩
    have hcolumn (b : β) : Relator.RightUnique fun a c => R a b c := fun a _ _ => hunique a b _ _
    have hcolumns : Relator.RightUnique fun b column =>
        List.Forall₂ (fun a c => R a b c) items column :=
      fun b _ _ => List.right_unique_forall₂' (hcolumn b)
    exact List.right_unique_forall₂' hcolumns h (forall₂_columnsOf hrows)

end

-- ---------------------------------------------------------------------------
-- Parts of tensors
-- ---------------------------------------------------------------------------

namespace Tensor

def part (tensor : Tensor) (axis : Axis) (group : Labels) : Except Error Tensor := do
  make tensor.keys (← tensor.blocks.mapM fun block => block.part axis group)

theorem split_ok {tensor : Tensor} {axis : Axis} {groups : List Labels} {parts : List Tensor} :
    tensor.split axis groups = .ok parts ↔
      List.Forall₂ (fun group part => tensor.part axis group = .ok part) groups parts := by
  have hunique (block : Block) (group : Labels) (part part' : Block)
      (h : block.part axis group = .ok part) (h' : block.part axis group = .ok part') :
      part = part' := Except.ok.inj (h.symm.trans h')
  simp only [split, Block.split, part, bind_ok, mapM_ok, forall₂_comp, ← exists_rows_iff hunique]
  constructor
  · rintro ⟨rows, hrows, hparts⟩
    exact ⟨_, ⟨rows, hrows, rfl⟩, List.forall₂_map_left_iff.mpr hparts⟩
  · rintro ⟨_, ⟨rows, hrows, rfl⟩, hparts⟩
    exact ⟨rows, hrows, List.forall₂_map_left_iff.mp hparts⟩

theorem exists_split {tensor : Tensor} {axis : Axis} {groups : List Labels}
    (h : ∀ group ∈ groups, ∃ part, tensor.part axis group = .ok part) :
    ∃ parts, tensor.split axis groups = .ok parts := by
  obtain ⟨parts, hparts⟩ := exists_forall₂ h
  exact ⟨parts, split_ok.mpr hparts⟩

theorem part_valid {tensor part : Tensor} {axis : Axis} {group : Labels} (htensor : tensor.Valid)
    (h : tensor.part axis group = .ok part) : part.Valid := by
  obtain ⟨blocks, hblocks, hmake⟩ := bind_ok.mp h
  exact make_mapM_valid htensor.keys
    (fun block hmem _ => Block.part_valid (htensor.blocks block hmem)) (mapM_ok.mp hblocks) hmake

theorem agree_of_parts {blocks parts : List Block} {axis : Axis} {group : Labels}
    (hagree : ∀ left ∈ blocks, ∀ right ∈ blocks, left.Agree right)
    (hparts : List.Forall₂ (fun block part => block.part axis group = .ok part) blocks parts) :
    ∀ left ∈ parts, ∀ right ∈ parts, left.Agree right := by
  intro left hleft right hright
  obtain ⟨old, hold, hpart⟩ := exists_of_forall₂ hparts hleft
  obtain ⟨old', hold', hpart'⟩ := exists_of_forall₂ hparts hright
  exact (Block.part_agree hpart).symm.trans
    ((hagree old hold old' hold').trans (Block.part_agree hpart'))

theorem part_ok {tensor part : Tensor} {axis : Axis} {group : Labels}
    (hcount : tensor.keys.length = tensor.blocks.length)
    (hagree : ∀ left ∈ tensor.blocks, ∀ right ∈ tensor.blocks, left.Agree right) :
    tensor.part axis group = .ok part ↔ ∃ parts,
      List.Forall₂ (fun block part => block.part axis group = .ok part) tensor.blocks parts ∧
      part = ⟨tensor.keys, parts⟩ := by
  have hmake {parts : List Block} (hparts : List.Forall₂
      (fun block part => block.part axis group = .ok part) tensor.blocks parts) :
      make tensor.keys parts = .ok part ↔ _ := make_ok fun block hmem => by
    obtain ⟨old, -, hpart⟩ := exists_of_forall₂ hparts hmem
    exact Block.distinct_of_part hpart
  simp only [Tensor.part, bind_ok, mapM_ok]
  constructor
  · rintro ⟨parts, hparts, hpart⟩
    exact ⟨parts, hparts, ((hmake hparts).mp hpart).2.2⟩
  · rintro ⟨parts, hparts, rfl⟩
    exact ⟨parts, hparts, (hmake hparts).mpr
      ⟨hcount.trans hparts.length_eq, agree_of_parts hagree hparts, rfl⟩⟩

end Tensor

end BlockTensor
