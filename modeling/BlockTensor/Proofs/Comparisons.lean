import BlockTensor.Proofs.Sums

/-!
# Comparing metadata is an equivalence

The comparison sorts the parameters of both sides and then walks the gradients
of the left one only. It treats the two sides alike all the same, because the
parameters of a block are distinct. `sameMetadata_laws` says so for blocks and
for tensors: an equivalence for every choice of axes, blind to arrays and to the
order of gradients, that gets coarser with fewer axes and is equality of all
labels with all of them.
-/

namespace BlockTensor

-- ---------------------------------------------------------------------------
-- Optional values
-- ---------------------------------------------------------------------------

section
variable {α : Type} {R S : α → α → Prop} {x y z : Option α}

theorem rel_refl (h : ∀ a, R a a) : ∀ x, Option.Rel R x x
  | none => .none
  | some a => .some (h a)

theorem rel_symm (h : ∀ {a b}, R a b → R b a) : Option.Rel R x y → Option.Rel R y x
  | .none => .none
  | .some hab => .some (h hab)

theorem rel_trans (h : ∀ {a b c}, R a b → R b c → R a c) :
    Option.Rel R x y → Option.Rel R y z → Option.Rel R x z
  | .none, .none => .none
  | .some hab, .some hbc => .some (h hab hbc)

theorem rel_imp (h : ∀ {a b}, R a b → S a b) : Option.Rel R x y → Option.Rel S x y
  | .none => .none
  | .some hab => .some (h hab)

end

-- ---------------------------------------------------------------------------
-- Laws
-- ---------------------------------------------------------------------------

structure Compared.Within (fewer more : Compared) : Prop where
  samples : fewer.samples = true → more.samples = true
  components : fewer.components = true → more.components = true
  properties : fewer.properties = true → more.properties = true

theorem Compared.within_all (compared : Compared) : compared.Within .all :=
  ⟨fun _ => rfl, fun _ => rfl, fun _ => rfl⟩

structure ComparisonLaws {α : Type} (Valid : α → Prop) (Rearranged SameLabels : α → α → Prop)
    (same : Compared → α → α → Bool) : Prop where
  refl : ∀ compared a, Valid a → same compared a a = true
  symm : ∀ compared a b, Valid a → Valid b → same compared a b = true → same compared b a = true
  trans : ∀ compared a b c, Valid a → Valid b → Valid c → same compared a b = true →
    same compared b c = true → same compared a c = true
  rearranged : ∀ compared a b a' b', Valid a → Valid b → Valid a' → Valid b' →
    Rearranged a a' → Rearranged b b' → same compared a' b' = same compared a b
  within : ∀ fewer more a b, fewer.Within more → Valid a → Valid b → same more a b = true →
    same fewer a b = true
  all : ∀ a b, Valid a → Valid b → (same .all a b = true ↔ SameLabels a b)

theorem ComparisonLaws.of_equivalence {α : Type} {Valid : α → Prop}
    {Rearranged SameLabels : α → α → Prop} {same : Compared → α → α → Bool}
    {Like : Compared → α → α → Prop}
    (hdecides : ∀ {compared a b}, Valid a → Valid b →
      (same compared a b = true ↔ Like compared a b))
    (hlike : ∀ compared, Equivalence (Like compared))
    (hwithin : ∀ {fewer more a b}, fewer.Within more → Like more a b → Like fewer a b)
    (hrearranged : ∀ {a b}, Valid a → Rearranged a b → Like .all a b)
    (hall : ∀ {a b}, Valid a → (Like .all a b ↔ SameLabels a b)) :
    ComparisonLaws Valid Rearranged SameLabels same where
  refl compared a ha := (hdecides ha ha).mpr ((hlike compared).refl a)
  symm compared a b ha hb h := (hdecides hb ha).mpr ((hlike compared).symm ((hdecides ha hb).mp h))
  trans compared a b c ha hb hc h h' := by
    rw [hdecides ha hb] at h
    rw [hdecides hb hc] at h'
    exact (hdecides ha hc).mpr ((hlike compared).trans h h')
  rearranged compared a b a' b' ha hb ha' hb' h h' := by
    have hleft := hwithin compared.within_all (hrearranged ha h)
    have hright := hwithin compared.within_all (hrearranged hb h')
    rw [Bool.eq_iff_iff, hdecides ha hb, hdecides ha' hb']
    constructor
    · exact fun hlike' => (hlike _).trans ((hlike _).trans hleft hlike') ((hlike _).symm hright)
    · exact fun hlike' => (hlike _).trans ((hlike _).trans ((hlike _).symm hleft) hlike') hright
  within fewer more a b h ha hb hsame :=
    (hdecides ha hb).mpr (hwithin h ((hdecides ha hb).mp hsame))
  all a b ha hb := (hdecides ha hb).trans (hall ha)

-- ---------------------------------------------------------------------------
-- Blocks
-- ---------------------------------------------------------------------------

/-- The same labels, whatever the arrays, and the gradients, which may be
rearranged themselves, in any order. -/
inductive Block.Rearranged : Block → Block → Prop
  | of {old new : Block} {gradients : List Block} (samples : new.samples = old.samples)
      (components : new.components = old.components) (properties : new.properties = old.properties)
      (below : List.Forall₂ (fun item gradient => Rearranged item.2 gradient)
        old.gradients.toList gradients)
      (order : new.gradients.toList.Perm (old.gradients.parameters.zip gradients)) :
      Rearranged old new

/-- Equal labels on all axes and the same parameters, and so on for the two
gradients of each parameter. -/
inductive Block.SameLabels : Block → Block → Prop
  | of {left right : Block} (samples : left.samples = right.samples)
      (components : left.components = right.components)
      (properties : left.properties = right.properties)
      (parameters : ∀ parameter, parameter ∈ left.gradients.parameters ↔
        parameter ∈ right.gradients.parameters)
      (gradients : ∀ parameter a b, left.gradients.find? parameter = some a →
        right.gradients.find? parameter = some b → SameLabels a b) :
      SameLabels left right

namespace Block

theorem sameMetadata_iff {compared : Compared} {left right : Block} (hleft : left.Valid)
    (hright : right.Valid) :
    left.sameMetadata compared right = true ↔ left.Alike compared right := by
  rw [sameMetadata, Option.isNone_iff_eq_none, difference?_eq_none hleft hright]

theorem equivalence_alike (compared : Compared) : Equivalence (Alike compared) where
  refl _ _ := rel_refl (fun _ => ⟨fun _ => rfl, fun _ => rfl, fun _ => rfl⟩) _
  symm h path := rel_symm (fun ⟨hs, hc, hp⟩ =>
    ⟨fun h => (hs h).symm, fun h => (hc h).symm, fun h => (hp h).symm⟩) (h path)
  trans h h' path := rel_trans (fun ⟨hs, hc, hp⟩ ⟨hs', hc', hp'⟩ =>
    ⟨fun h => (hs h).trans (hs' h), fun h => (hc h).trans (hc' h),
      fun h => (hp h).trans (hp' h)⟩) (h path) (h' path)

theorem Alike.within {fewer more : Compared} {left right : Block} (hwithin : fewer.Within more)
    (h : left.Alike more right) : left.Alike fewer right := fun path =>
  rel_imp (fun ⟨hs, hc, hp⟩ => ⟨fun h => hs (hwithin.samples h), fun h => hc (hwithin.components h),
    fun h => hp (hwithin.properties h)⟩) (h path)

theorem Rearranged.of_items {old new : Block} {items : List (String × Block)}
    (samples : new.samples = old.samples) (components : new.components = old.components)
    (properties : new.properties = old.properties)
    (below : List.Forall₂ (fun item item' => item.1 = item'.1 ∧ item.2.Rearranged item'.2)
      old.gradients.toList items)
    (order : new.gradients.toList.Perm items) : old.Rearranged new := by
  have hparameters : old.gradients.parameters = items.map Prod.fst := by
    rw [Gradients.parameters_eq_map_toList, map_fst_of_forall₂ (below.imp fun _ _ h => h.1)]
  have hbelow : List.Forall₂ (fun item gradient => item.2.Rearranged gradient)
      old.gradients.toList (items.map Prod.snd) :=
    List.forall₂_map_right_iff.mpr (below.imp fun _ _ h => h.2)
  refine .of samples components properties hbelow ?_
  rw [hparameters, List.zip_map']
  simpa using order

theorem Rearranged.refl (block : Block) : block.Rearranged block := by
  induction block with
  | step block ih =>
    exact .of_items rfl rfl rfl (List.forall₂_same.mpr fun item hmem => ⟨rfl, ih item hmem⟩)
      (.refl _)

theorem rearranged_withArrays (f : List String → Values → Values) (path : List String)
    (block : Block) : block.Rearranged (block.withArrays f path) := by
  induction block generalizing path with
  | step block ih =>
    rw [withArrays_eq]
    refine .of_items rfl rfl rfl ?_ (.refl _)
    rw [Gradients.toList_withArrays, List.forall₂_map_right_iff, List.forall₂_same]
    exact fun item hmem => ⟨rfl, ih item hmem _⟩

/-- Gradients that can be attached can be attached in any order. -/
theorem attachAll_of_perm {parent result : Block} {items others : List (String × Block)}
    (horder : others.Perm items) (h : parent.attachAll items = .ok result) :
    ∃ rearranged, parent.attachAll others = .ok rearranged ∧ result.Rearranged rearranged := by
  obtain ⟨⟨hdistinct, hreserved, hfresh, hfits⟩, rfl⟩ := attachAll_ok.mp h
  have hnames := horder.map Prod.fst
  refine ⟨_, attachAll_ok.mpr ⟨⟨hnames.nodup_iff.mpr hdistinct, mt hnames.mem_iff.mp hreserved,
    fun item hmem => hfresh item (horder.mem_iff.mp hmem),
    fun item hmem => hfits item (horder.mem_iff.mp hmem)⟩, rfl⟩, ?_⟩
  refine .of_items rfl rfl rfl (List.forall₂_same.mpr fun item _ => ⟨rfl, .refl item.2⟩) ?_
  simpa using horder.append_left parent.gradients.toList

theorem Rearranged.parameters {old new : Block} (h : old.Rearranged new) :
    new.gradients.parameters.Perm old.gradients.parameters := by
  cases h with
  | @of _ _ gradients samples components properties below order =>
    have hnames : (old.gradients.parameters.zip gradients).map Prod.fst =
        old.gradients.parameters := by
      refine List.map_fst_zip (Nat.le_of_eq ?_)
      rw [Gradients.parameters_eq_map_toList, List.length_map, below.length_eq]
    rw [new.gradients.parameters_eq_map_toList, ← hnames]
    exact order.map Prod.fst

theorem Rearranged.alike {old new : Block} (hold : old.Valid) (h : old.Rearranged new) :
    old.Alike .all new := by
  induction old generalizing new with
  | step old ih =>
    have hparameters := h.parameters
    cases h with
    | @of _ _ gradients samples components properties below order =>
      refine alike_iff.mpr ⟨⟨fun _ => samples.symm, fun _ => components.symm,
        fun _ => properties.symm⟩, (Gradients.forall_rel_find? hold.distinct).mpr
          ⟨fun _ => hparameters.mem_iff.symm, fun item hmem other hother => ?_⟩⟩
      -- The gradient of this parameter in `new` was made of the one in `old`.
      have hbeside := order.mem_iff.mp (Gradients.mem_of_find? hother)
      rw [Gradients.parameters_eq_map_toList, List.zip_map_left] at hbeside
      obtain ⟨⟨⟨parameter, gradient⟩, _⟩, hpair, heq⟩ := List.mem_map.mp hbeside
      cases heq
      have hfound := Gradients.find?_of_mem hold.distinct (List.of_mem_zip hpair).1
      rw [Gradients.find?_of_mem hold.distinct hmem] at hfound
      cases hfound
      exact ih item hmem (hold.gradient hmem).2 ((List.forall₂_iff_zip.mp below).2 hpair)

theorem alike_all_iff {left right : Block} (hleft : left.Valid) :
    left.Alike .all right ↔ left.SameLabels right := by
  induction left generalizing right with
  | step left ih =>
    rw [alike_iff, Gradients.forall_rel_find? hleft.distinct]
    constructor
    · rintro ⟨⟨hsamples, hcomponents, hproperties⟩, hparameters, hbelow⟩
      refine .of (hsamples rfl) (hcomponents rfl) (hproperties rfl) hparameters ?_
      intro parameter a b ha hb
      have hmem := Gradients.mem_of_find? ha
      exact (ih _ hmem (hleft.gradient hmem).2).mp (hbelow _ hmem b hb)
    · intro h
      cases h with
      | of samples components properties parameters gradients =>
        refine ⟨⟨fun _ => samples, fun _ => components, fun _ => properties⟩, parameters, ?_⟩
        intro item hmem other hother
        exact (ih item hmem (hleft.gradient hmem).2).mpr
          (gradients _ _ _ (Gradients.find?_of_mem hleft.distinct hmem) hother)

theorem comparisonLaws : ComparisonLaws Valid Rearranged SameLabels sameMetadata :=
  .of_equivalence sameMetadata_iff equivalence_alike Alike.within Rearranged.alike alike_all_iff

end Block

-- ---------------------------------------------------------------------------
-- Tensors
-- ---------------------------------------------------------------------------

namespace Tensor

structure Rearranged (old new : Tensor) : Prop where
  keys : new.keys = old.keys
  blocks : List.Forall₂ Block.Rearranged old.blocks new.blocks

structure SameLabels (left right : Tensor) : Prop where
  keys : left.keys = right.keys
  blocks : List.Forall₂ Block.SameLabels left.blocks right.blocks

structure Alike (compared : Compared) (left right : Tensor) : Prop where
  keys : left.keys = right.keys
  blocks : List.Forall₂ (Block.Alike compared) left.blocks right.blocks

theorem sameMetadata_iff {compared : Compared} {left right : Tensor} (hleft : left.Valid)
    (hright : right.Valid) :
    left.sameMetadata compared right = true ↔ left.Alike compared right := by
  rw [sameMetadata, Option.isNone_iff_eq_none, difference?_eq_none hleft hright]
  exact ⟨fun ⟨hkeys, hblocks⟩ => ⟨hkeys, hblocks⟩, fun ⟨hkeys, hblocks⟩ => ⟨hkeys, hblocks⟩⟩

theorem equivalence_alike (compared : Compared) : Equivalence (Alike compared) where
  refl tensor :=
    ⟨rfl, List.forall₂_same.mpr fun block _ => (Block.equivalence_alike compared).refl block⟩
  symm h := ⟨h.keys.symm, (h.blocks.imp fun _ _ => (Block.equivalence_alike compared).symm).flip⟩
  trans h h' := by
    refine ⟨h.keys.trans h'.keys, ?_⟩
    refine (forall₂_comp.mpr ⟨_, h.blocks, h'.blocks⟩).imp ?_
    rintro a c ⟨b, hab, hbc⟩
    exact (Block.equivalence_alike compared).trans hab hbc

theorem comparisonLaws : ComparisonLaws Valid Rearranged SameLabels sameMetadata := by
  refine .of_equivalence sameMetadata_iff equivalence_alike ?_ ?_ ?_
  · exact fun hwithin h => ⟨h.keys, h.blocks.imp fun _ _ => .within hwithin⟩
  · intro old new hold h
    refine ⟨h.keys.symm, ?_⟩
    refine ((List.forall₂_and_left _ _).mpr ⟨hold.blocks, h.blocks⟩).imp ?_
    exact fun _ _ ⟨hblock, hnew⟩ => hnew.alike hblock
  · intro left right hleft
    have hblocks : List.Forall₂ (Block.Alike .all) left.blocks right.blocks ↔
        List.Forall₂ Block.SameLabels left.blocks right.blocks :=
      forall₂_congr_of_mem fun block hmem _ => Block.alike_all_iff (hleft.blocks block hmem)
    exact ⟨fun h => ⟨h.keys, hblocks.mp h.blocks⟩, fun h => ⟨h.keys, hblocks.mpr h.blocks⟩⟩

end Tensor

/-- The laws for blocks and for tensors, where a block is rearranged by attaching its
gradients in another order and by changing its arrays. -/
theorem sameMetadata_laws :
    ComparisonLaws Block.Valid Block.Rearranged Block.SameLabels Block.sameMetadata ∧
      ComparisonLaws Tensor.Valid Tensor.Rearranged Tensor.SameLabels Tensor.sameMetadata ∧
      (∀ (parent result : Block) (items others : List (String × Block)), others.Perm items →
        parent.attachAll items = .ok result →
        ∃ rearranged, parent.attachAll others = .ok rearranged ∧ result.Rearranged rearranged) ∧
      ∀ f path (block : Block), block.Rearranged (block.withArrays f path) :=
  ⟨Block.comparisonLaws, Tensor.comparisonLaws, fun _ _ _ _ => Block.attachAll_of_perm,
    Block.rearranged_withArrays⟩

theorem sameMetadata_laws_paired :
    let tensor := Tensor.pairedTensor "positions" "cell"
    let other := Tensor.pairedTensor "cell" "positions"
    tensor.Valid ∧ other.Valid ∧ tensor.Rearranged other ∧ tensor.SameLabels other ∧
      ∀ compared, other.sameMetadata compared tensor = true := by
  have hvalid : (Tensor.pairedTensor "positions" "cell").Valid := Archive.valid_of_record rfl
  have hvalid' : (Tensor.pairedTensor "cell" "positions").Valid := Archive.valid_of_record rfl
  intro tensor other
  have hrearranged : tensor.Rearranged other := by
    refine ⟨rfl, .cons (.of_items rfl rfl rfl ?_ (List.Perm.swap _ _ _)) .nil⟩
    exact List.forall₂_same.mpr fun item _ => ⟨rfl, .refl item.2⟩
  obtain ⟨-, hlaws, -⟩ := sameMetadata_laws
  refine ⟨hvalid, hvalid', hrearranged, (hlaws.all _ _ hvalid hvalid').mp rfl, fun compared => ?_⟩
  rw [hlaws.rearranged compared _ _ _ _ hvalid hvalid hvalid' hvalid hrearranged
    ⟨rfl, List.forall₂_same.mpr fun block _ => .refl block⟩]
  exact hlaws.refl compared tensor hvalid

end BlockTensor
