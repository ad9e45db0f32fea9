import BlockTensor.Proofs.BlockLaws
import BlockTensor.Tensor.Valid
import Mathlib.Data.List.Perm.Subperm

/-!
# Valid tensors are kept

`make` compares every block with the first one. That suffices for every two
blocks to agree (`checkConsistent_ok`): agreement is an equivalence, and a list
of distinct parameters inside another one of the same length has all of its
parameters. So `make` accepts exactly the blocks that agree, and every
operation on tensors keeps them valid.
-/

namespace BlockTensor

/-- Distinct elements of a list that is no longer than they are many are all
its elements. -/
theorem subset_of_nodup_of_length_le {α : Type} {items others : List α} (hitems : items.Nodup)
    (hsubset : items ⊆ others) (hlength : others.length ≤ items.length) : others ⊆ items :=
  ((List.subperm_of_subset hitems hsubset).perm_of_length_le hlength).symm.subset

-- ---------------------------------------------------------------------------
-- Agreement
-- ---------------------------------------------------------------------------

namespace Gradients.Agree

theorem refl (gradients : Gradients) : gradients.Agree gradients :=
  ⟨fun _ => Iff.rfl, fun _ _ _ ha hb => by rw [Option.some.inj (ha.symm.trans hb)]⟩

theorem symm {left right : Gradients} (h : left.Agree right) : right.Agree left :=
  ⟨fun parameter => (h.parameters parameter).symm,
    fun parameter a b ha hb => (h.sampleNames parameter b a hb ha).symm⟩

theorem trans {left middle right : Gradients} (h : left.Agree middle) (h' : middle.Agree right) :
    left.Agree right := by
  refine ⟨fun parameter => (h.parameters parameter).trans (h'.parameters parameter), ?_⟩
  intro parameter a b ha hb
  obtain ⟨c, hc⟩ := mem_parameters_iff.mp
    ((h.parameters parameter).mp (mem_parameters_iff.mpr ⟨a, ha⟩))
  exact (h.sampleNames parameter a c ha hc).trans (h'.sampleNames parameter c b hc hb)

end Gradients.Agree

namespace Block.Agree

theorem refl (block : Block) : block.Agree block := ⟨rfl, rfl, rfl, .refl _⟩

theorem symm {left right : Block} (h : left.Agree right) : right.Agree left :=
  ⟨h.sampleNames.symm, h.componentNames.symm, h.propertyNames.symm, h.gradients.symm⟩

theorem trans {left middle right : Block} (h : left.Agree middle) (h' : middle.Agree right) :
    left.Agree right :=
  ⟨h.sampleNames.trans h'.sampleNames, h.componentNames.trans h'.componentNames,
    h.propertyNames.trans h'.propertyNames, h.gradients.trans h'.gradients⟩

end Block.Agree

namespace Tensor

theorem checkGradientNames_ok {first : Gradients} {items : List (String × Block)} {u : Unit} :
    checkGradientNames first items = .ok u ↔ ∀ item ∈ items, ∃ expected,
      first.find? item.1 = some expected ∧ expected.samples.names = item.2.samples.names := by
  induction items with
  | nil => simp [checkGradientNames]
  | cons item rest ih =>
    obtain ⟨parameter, gradient⟩ := item
    rw [List.forall_mem_cons, checkGradientNames]
    cases first.find? parameter with
    | none => simp
    | some expected => simp [bind_ok, ensure_ok, ih]

/-- Equal counts make the one-sided comparison of parameters an equality of
sets. -/
theorem checkGradients_ok {first gradients : Gradients} (hfirst : first.parameters.Nodup)
    (hgradients : gradients.parameters.Nodup) {u : Unit} :
    gradients.parameters.length = first.parameters.length ∧
        checkGradientNames first gradients.toList = .ok u ↔ first.Agree gradients := by
  rw [checkGradientNames_ok]
  constructor
  · rintro ⟨hcount, hnames⟩
    -- Only the parameters of `gradients` are looked up; the counts give the rest.
    have hsubset : gradients.parameters ⊆ first.parameters := by
      intro parameter hmem
      rw [Gradients.parameters_eq_map_toList] at hmem
      obtain ⟨item, hitem, rfl⟩ := List.mem_map.mp hmem
      obtain ⟨expected, hfind, -⟩ := hnames item hitem
      exact Gradients.mem_parameters_iff.mpr ⟨expected, hfind⟩
    have hall := subset_of_nodup_of_length_le hgradients hsubset (Nat.le_of_eq hcount.symm)
    refine ⟨fun parameter => ⟨fun h => hall h, fun h => hsubset h⟩, ?_⟩
    intro parameter a b ha hb
    obtain ⟨expected, hfind, heq⟩ := hnames _ (Gradients.mem_of_find? hb)
    rw [Option.some.inj (ha.symm.trans hfind)]
    exact heq
  · intro h
    refine ⟨?_, fun item hmem => ?_⟩
    · refine Nat.le_antisymm (List.subperm_of_subset hgradients ?_).length_le
        (List.subperm_of_subset hfirst ?_).length_le
      · exact fun parameter hmem => (h.parameters parameter).mpr hmem
      · exact fun parameter hmem => (h.parameters parameter).mp hmem
    · have hfind := Gradients.find?_of_mem hgradients hmem
      obtain ⟨expected, hexpected⟩ := Gradients.mem_parameters_iff.mp
        ((h.parameters item.1).mpr (Gradients.mem_parameters_iff.mpr ⟨_, hfind⟩))
      exact ⟨expected, hexpected, h.sampleNames _ _ _ hexpected hfind⟩

theorem checkAgrees_ok {first block : Block} (hfirst : first.gradients.parameters.Nodup)
    (hblock : block.gradients.parameters.Nodup) {u : Unit} :
    checkAgrees first block = .ok u ↔ first.Agree block := by
  simp only [checkAgrees, bind_ok, ensure_ok]
  constructor
  · rintro ⟨_, hsamples, _, hcomponents, _, hproperties, _, hcount, hgradients⟩
    exact ⟨hsamples.symm, hcomponents.symm, hproperties.symm,
      (checkGradients_ok hfirst hblock).mp ⟨hcount, hgradients⟩⟩
  · rintro ⟨hsamples, hcomponents, hproperties, hgradients⟩
    obtain ⟨hcount, hnames⟩ := (checkGradients_ok hfirst hblock).mpr hgradients
    exact ⟨(), hsamples.symm, (), hcomponents.symm, (), hproperties.symm, (), hcount, hnames⟩

/-- The first block agrees with all blocks exactly when every two agree. -/
theorem checkConsistent_ok {blocks : List Block}
    (h : ∀ block ∈ blocks, block.gradients.parameters.Nodup) {u : Unit} :
    checkConsistent blocks = .ok u ↔
      ∀ left ∈ blocks, ∀ right ∈ blocks, left.Agree right := by
  cases blocks with
  | nil => simp [checkConsistent]
  | cons first rest =>
    have hfirst : ∀ block ∈ rest, checkAgrees first block = .ok () ↔ first.Agree block :=
      fun block hmem => checkAgrees_ok (h first List.mem_cons_self)
        (h block (List.mem_cons_of_mem _ hmem))
    rw [checkConsistent, forM_ok]
    constructor
    · intro hrest
      have hall : ∀ block ∈ first :: rest, first.Agree block :=
        List.forall_mem_cons.mpr
          ⟨.refl first, fun block hmem => (hfirst block hmem).mp (hrest block hmem)⟩
      -- Any two blocks agree through the first one.
      exact fun left hleft right hright => (hall left hleft).symm.trans (hall right hright)
    · exact fun hall block hmem => (hfirst block hmem).mpr
        (hall first List.mem_cons_self block (List.mem_cons_of_mem _ hmem))

-- ---------------------------------------------------------------------------
-- Building
-- ---------------------------------------------------------------------------

theorem make_ok {keys : Labels} {blocks : List Block} {tensor : Tensor}
    (h : ∀ block ∈ blocks, block.gradients.parameters.Nodup) :
    make keys blocks = .ok tensor ↔ keys.length = blocks.length ∧
      (∀ left ∈ blocks, ∀ right ∈ blocks, left.Agree right) ∧ tensor = ⟨keys, blocks⟩ := by
  simp only [make, bind_ok, ensure_ok, checkConsistent_ok h, pure_ok]
  constructor
  · rintro ⟨_, hcount, _, hagree, rfl⟩
    exact ⟨hcount, hagree, rfl⟩
  · rintro ⟨hcount, hagree, rfl⟩
    exact ⟨(), hcount, (), hagree, rfl⟩

theorem make_eq {keys : Labels} {blocks : List Block} {tensor : Tensor}
    (h : make keys blocks = .ok tensor) : tensor = ⟨keys, blocks⟩ := by
  simp only [make, bind_ok, pure_ok] at h
  obtain ⟨_, -, _, -, heq⟩ := h
  exact heq.symm

theorem make_valid {keys : Labels} {blocks : List Block} {tensor : Tensor} (hkeys : keys.Valid)
    (hblocks : ∀ block ∈ blocks, block.Valid) (h : make keys blocks = .ok tensor) :
    tensor.Valid := by
  obtain ⟨hcount, hagree, rfl⟩ := (make_ok fun block hmem => (hblocks block hmem).distinct).mp h
  exact ⟨hkeys, hcount, hblocks, hagree⟩

theorem make_mapM_valid {α ε : Type} {f : α → Except ε Block} {items : List α} {keys : Labels}
    {blocks : List Block} {tensor : Tensor} (hkeys : keys.Valid)
    (hf : ∀ item ∈ items, ∀ block, f item = .ok block → block.Valid)
    (hblocks : List.Forall₂ (fun item block => f item = .ok block) items blocks)
    (h : Tensor.make keys blocks = .ok tensor) : tensor.Valid := by
  refine make_valid hkeys (fun block hmem => ?_) h
  obtain ⟨item, hitem, hblock⟩ := exists_of_forall₂ hblocks hmem
  exact hf item hitem block hblock

theorem Valid.make {tensor : Tensor} (h : tensor.Valid) :
    make tensor.keys tensor.blocks = .ok tensor :=
  (make_ok fun block hmem => (h.blocks block hmem).distinct).mpr ⟨h.count, h.agree, rfl⟩

-- ---------------------------------------------------------------------------
-- Operations
-- ---------------------------------------------------------------------------

theorem mapBlocks_valid {f : Block → Except Error Block} {tensor result : Tensor}
    (hf : ∀ block made, block.Valid → f block = .ok made → made.Valid) (htensor : tensor.Valid)
    (h : tensor.mapBlocks f = .ok result) : result.Valid := by
  simp only [mapBlocks, bind_ok, mapM_ok] at h
  obtain ⟨blocks, hblocks, hmake⟩ := h
  exact make_mapM_valid htensor.keys
    (fun old hold block hblock => hf old block (htensor.blocks old hold) hblock) hblocks hmake

theorem mapValues_valid {f : Values → Values} (hf : Values.KeepsLayout f)
    {tensor result : Tensor} (htensor : tensor.Valid) (h : tensor.mapValues f = .ok result) :
    result.Valid := by
  refine mapBlocks_valid (fun block made hblock hmade => ?_) htensor h
  refine Block.mapArrays_valid (fun _ a b ha hb => ?_) hblock hmade
  cases hb
  exact hf.valid a ha

theorem uniformFrom_valid {draw : Nat → List String → Nat → Float} {tensor result : Tensor}
    (htensor : tensor.Valid) (h : tensor.uniformFrom draw = .ok result) : result.Valid := by
  simp only [uniformFrom, bind_ok, mapM_ok] at h
  obtain ⟨blocks, hblocks, hmake⟩ := h
  refine make_mapM_valid htensor.keys (fun item hold block hblock => ?_) hblocks hmake
  obtain ⟨old, position⟩ := item
  refine Block.mapArrays_valid (fun path a b ha hb => ?_)
    (htensor.blocks old (List.fst_mem_of_mem_zipIdx hold)) hblock
  cases hb
  exact (Values.keepsLayout_redrawn _ _ _).valid a ha

theorem addScalar_valid {scalar : Double} {tensor result : Tensor} (htensor : tensor.Valid)
    (h : tensor.addScalar scalar = .ok result) : result.Valid := by
  have hkeeps := Values.keepsLayout_addScalar scalar
  exact mapBlocks_valid (fun block made hblock hmade => Block.withValues_valid hblock
    (hkeeps.valid _ hblock.labelled.values) (hkeeps.dtype _) hmade) htensor h

theorem add_valid {left right result : Tensor} (hleft : left.Valid)
    (h : left.add right = .ok result) : result.Valid := by
  unfold add at h
  split at h
  · cases h
  · simp only [bind_ok, mapM_ok] at h
    obtain ⟨blocks, hblocks, hmake⟩ := h
    refine make_mapM_valid hleft.keys (fun pair hpair block hblock => ?_) hblocks hmake
    exact Block.add_valid (hleft.blocks pair.1 (List.of_mem_zip hpair).1) hblock

theorem subtract_valid {left right result : Tensor} (hleft : left.Valid)
    (h : left.subtract right = .ok result) : result.Valid := by
  obtain ⟨negated, -, h⟩ := bind_ok.mp h
  exact add_valid hleft h

theorem split_valid {tensor part : Tensor} {axis : Axis} {groups : List Labels}
    {parts : List Tensor} (htensor : tensor.Valid) (h : tensor.split axis groups = .ok parts)
    (hmem : part ∈ parts) : part.Valid := by
  simp only [split, bind_ok, mapM_ok] at h
  obtain ⟨blockParts, hblockParts, hparts⟩ := h
  obtain ⟨group, -, hmake⟩ := exists_of_forall₂ hparts hmem
  refine make_valid htensor.keys (fun block hblock => ?_) hmake
  obtain ⟨split, hsplit, hget⟩ := List.mem_filterMap.mp hblock
  obtain ⟨old, hold, hok⟩ := exists_of_forall₂ hblockParts hsplit
  exact Block.split_valid (htensor.blocks old hold) hok (List.mem_of_getElem? hget)

end Tensor

end BlockTensor
