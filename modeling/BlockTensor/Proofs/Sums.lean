import BlockTensor.Proofs.Built
import BlockTensor.Proofs.SameMetadata

/-!
# Sums and differences

Tensors with equal metadata can be added and subtracted, and no other ones. Equal
metadata give equal shapes of the arrays at every path (`Block.add_of_alike`), so
the later checks cannot fail. A result has the metadata of the left
operand and its gradients in their order; the right operand is looked up by
path, whatever its order.
-/

namespace BlockTensor

-- ---------------------------------------------------------------------------
-- Arrays
-- ---------------------------------------------------------------------------

namespace Values

/-- Three arrays of one shape, the last with the sums of the elements at the
same places of the others. -/
inductive IsSum : Values → Values → Values → Prop where
  | float32 {shape : List Nat} {xs ys : List Single} (h : xs.length = ys.length) :
    IsSum (.float32 ⟨shape, xs⟩) (.float32 ⟨shape, ys⟩) (.float32 ⟨shape, xs.zipWith Single.add ys⟩)
  | float64 {shape : List Nat} {xs ys : List Double} (h : xs.length = ys.length) :
    IsSum (.float64 ⟨shape, xs⟩) (.float64 ⟨shape, ys⟩) (.float64 ⟨shape, xs.zipWith Double.add ys⟩)

end Values

theorem Dense.combine_of_shape {α : Type} (op : α → α → α) {left right : Dense α}
    (hleft : left.Valid) (hright : right.Valid) (hshape : left.shape = right.shape) :
    left.data.length = right.data.length ∧
      left.combine op right = .ok ⟨left.shape, left.data.zipWith op right.data⟩ := by
  have hlength : left.data.length = right.data.length := by
    rw [hleft.size, hright.size, hshape]
  refine ⟨hlength, ?_⟩
  simp only [combine, bind_ok, ensure_ok]
  refine ⟨(), hshape, ofShape_ok.mpr ⟨rfl, ?_, hleft.bounded⟩⟩
  rw [List.length_zipWith, ← hlength, Nat.min_self, hleft.size]

theorem Values.add_of_shape {left right : Values} (hleft : left.Valid) (hright : right.Valid)
    (hdtype : left.dtype = right.dtype) (hshape : left.shape = right.shape) :
    ∃ sum, left.add right = .ok sum ∧ IsSum left right sum := by
  cases left <;> cases right <;> cases hdtype
  next a b =>
    obtain ⟨hlength, hcombine⟩ := Dense.combine_of_shape Single.add hleft hright hshape
    obtain ⟨shape, xs⟩ := a
    obtain ⟨_, ys⟩ := b
    obtain rfl : shape = _ := hshape
    exact ⟨_, map_ok.mpr ⟨_, hcombine, rfl⟩, .float32 hlength⟩
  next a b =>
    obtain ⟨hlength, hcombine⟩ := Dense.combine_of_shape Double.add hleft hright hshape
    obtain ⟨shape, xs⟩ := a
    obtain ⟨_, ys⟩ := b
    obtain rfl : shape = _ := hshape
    exact ⟨_, map_ok.mpr ⟨_, hcombine, rfl⟩, .float64 hlength⟩

-- ---------------------------------------------------------------------------
-- Blocks
-- ---------------------------------------------------------------------------

namespace Block

theorem HasDType.values {dtype : DType} {block : Block} (h : block.HasDType dtype) :
    block.values.dtype = dtype := by
  cases block
  rw [HasDType] at h
  exact h.1

/-- What stands at a path of `left` stands there in `right` and `result` too. The
three arrays are in the relation `P`, and `result` has the labels of `left` and
its parameters, in their order. -/
def Combines (P : Values → Values → Values → Prop) (left right result : Block) : Prop :=
  ∀ path a, left.gradientAt path = some a → ∃ b c, right.gradientAt path = some b ∧
    result.gradientAt path = some c ∧ P a.values b.values c.values ∧ a.SameFrame c ∧
    c.gradients.parameters = a.gradients.parameters

section
variable {P : Values → Values → Values → Prop} {left right result : Block}

theorem Combines.own (h : left.Combines P right result) :
    P left.values right.values result.values ∧ left.SameFrame result ∧
      result.gradients.parameters = left.gradients.parameters := by
  obtain ⟨b, c, hb, hc, hown⟩ := h [] left rfl
  cases hb
  cases hc
  exact hown

/-- One level, and the gradients of every parameter. -/
theorem combines_of (hvalues : P left.values right.values result.values)
    (hframe : left.SameFrame result)
    (hparameters : result.gradients.parameters = left.gradients.parameters)
    (hgradients : ∀ parameter a, left.gradients.find? parameter = some a → ∃ b c,
      right.gradients.find? parameter = some b ∧ result.gradients.find? parameter = some c ∧
        a.Combines P b c) : left.Combines P right result := by
  intro path a ha
  cases path with
  | nil =>
    cases ha
    exact ⟨right, result, rfl, rfl, hvalues, hframe, hparameters⟩
  | cons parameter path =>
    obtain ⟨below, hbelow, ha⟩ := Option.bind_eq_some_iff.mp ha
    obtain ⟨b, c, hb, hc, hcombines⟩ := hgradients parameter below hbelow
    simp only [gradientAt, hb, hc, Option.bind_some]
    exact hcombines path a ha

theorem Combines.agree (h : left.Combines P right result) : left.Agree result := by
  obtain ⟨-, hframe, hparameters⟩ := h.own
  refine ⟨by rw [hframe.samples], by rw [componentNames, componentNames, hframe.components],
    by rw [hframe.properties], fun parameter => by rw [hparameters], fun parameter a c ha hc => ?_⟩
  have hpath {block gradient : Block} (hfind : block.gradients.find? parameter = some gradient) :
      block.gradientAt [parameter] = some gradient :=
    Option.bind_eq_some_iff.mpr ⟨gradient, hfind, rfl⟩
  obtain ⟨_, c', -, hc', -, hframe', -⟩ := h [parameter] a (hpath ha)
  rw [hpath hc] at hc'
  cases hc'
  rw [hframe'.samples]

end

theorem shape_of_sameAxes {left right : Block} (hleft : left.Labelled) (hright : right.Labelled)
    (h : left.SameAxes .all right) : left.values.shape = right.values.shape := by
  rw [hleft.axes.shape, hright.axes.shape, h.samples rfl, h.components rfl, h.properties rfl]

def CombinesItem (P : Values → Values → Values → Prop) (right : Block)
    (old new : String × Block) : Prop :=
  old.1 = new.1 ∧ ∃ b, right.gradients.find? old.1 = some b ∧ old.2.Combines P b new.2

theorem combines_of_items {P : Values → Values → Values → Prop} {left right : Block}
    {values : Values} {items : List (String × Block)}
    (hdistinct : left.gradients.parameters.Nodup)
    (hvalues : P left.values right.values values) (hdtype : values.dtype = left.values.dtype)
    (hitems : List.Forall₂ (CombinesItem P right) left.gradients.toList items) :
    left.Combines P right
      ⟨values, left.samples, left.components, left.properties, .ofList items⟩ := by
  have hparameters := Gradients.parameters_ofList (hitems.imp fun _ _ hitem => hitem.1)
  refine combines_of hvalues ⟨hdtype, rfl, rfl, rfl⟩ hparameters fun parameter a ha => ?_
  obtain ⟨new, hnew, heq, b, hb, hcombines⟩ :=
    exists_of_forall₂ hitems.flip (Gradients.mem_of_find? ha)
  have hmem : new ∈ (Gradients.ofList items).toList := by rwa [Gradients.toList_ofList]
  have hfind := Gradients.find?_of_mem (hparameters ▸ hdistinct) hmem
  obtain rfl : parameter = new.1 := heq
  exact ⟨b, new.2, hb, hfind, hcombines⟩

/-- Gradients have the element type of their parent, so equal types at the top are
enough. -/
theorem add_of_alike {left right : Block} (hleft : left.Valid) (hright : right.Valid)
    (hdtype : left.values.dtype = right.values.dtype) (h : left.Alike .all right) :
    ∃ sum, left.add right = .ok sum ∧ left.Combines Values.IsSum right sum := by
  induction left generalizing right with
  | step left ih =>
    obtain ⟨haxes, hgradients⟩ := alike_iff.mp h
    obtain ⟨values, hvalues, hsum⟩ := Values.add_of_shape hleft.labelled.values
      hright.labelled.values hdtype (shape_of_sameAxes hleft.labelled hright.labelled haxes)
    have hnew : ∀ item ∈ left.gradients.toList, ∃ new,
        Rebuilds (fun item => right.gradient item.1 >>= item.2.add) item new ∧
          CombinesItem Values.IsSum right item new := by
      intro item hmem
      obtain ⟨hfits, hvalid⟩ := hleft.gradient hmem
      have hitem := hgradients item.1
      rw [Gradients.find?_of_mem hleft.distinct hmem] at hitem
      obtain ⟨b, hb⟩ : ∃ b, right.gradients.find? item.1 = some b := by
        cases hb : right.gradients.find? item.1 with
        | none => rw [hb] at hitem; cases hitem
        | some b => exact ⟨b, rfl⟩
      obtain ⟨hfits', hvalid'⟩ := hright.gradient (Gradients.mem_of_find? hb)
      rw [hb] at hitem
      obtain ⟨sum, hadd, hcombines⟩ := ih item hmem hvalid hvalid'
        (hfits.dtype.trans (hdtype.trans hfits'.dtype.symm)) (Option.rel_some_some.mp hitem)
      have hgradient : right.gradient item.1 = .ok b := by rw [gradient, hb]
      exact ⟨(item.1, sum), ⟨rfl, bind_ok.mpr ⟨b, hgradient, hadd⟩⟩, rfl, b, hb, hcombines⟩
    obtain ⟨items, hitems⟩ := exists_forall₂ hnew
    have hcombines : left.Combines Values.IsSum right _ := combines_of_items hleft.distinct hsum
      (Values.add_valid hvalues).2.1 (hitems.imp fun _ _ h => h.2)
    refine ⟨_, add_ok.mpr ⟨values, items, hvalues, hitems.imp fun _ _ h => h.1, ?_⟩, hcombines⟩
    refine hleft.reassemble (Values.add_valid hvalues).2.1 (Values.add_valid hvalues).2.2 ?_
    exact hitems.imp fun _ _ ⟨_, heq, _, _, hcombines⟩ => ⟨heq, hcombines.own.2.1⟩

section
variable {f : List String → Values → Values} {path : List String} {compared : Compared}
  {left right : Block}

end

end Block

-- ---------------------------------------------------------------------------
-- Tensors
-- ---------------------------------------------------------------------------

namespace Tensor

/-- The keys of `left`, and for each of them a block that combines the two. -/
structure Combines (P : Values → Values → Values → Prop) (left right result : Tensor) : Prop where
  keys : result.keys = left.keys
  count : left.blocks.length = right.blocks.length
  blocks : List.Forall₂ (fun pair c => pair.1.Combines P pair.2 c)
    (left.blocks.zip right.blocks) result.blocks

def SameDTypes (left right : Tensor) : Prop :=
  ∀ pair ∈ left.blocks.zip right.blocks, pair.1.values.dtype = pair.2.values.dtype

instance (left right : Tensor) : Decidable (left.SameDTypes right) :=
  inferInstanceAs (Decidable (∀ pair ∈ left.blocks.zip right.blocks,
    pair.1.values.dtype = pair.2.values.dtype))

section
variable {left right : Tensor}

theorem add_ok {sum : Tensor} : left.add right = .ok sum ↔ left.difference? .all right = none ∧
    ∃ blocks, List.Forall₂ (fun pair block => pair.1.add pair.2 = .ok block)
      (left.blocks.zip right.blocks) blocks ∧ make left.keys blocks = .ok sum := by
  unfold add
  cases left.difference? .all right with
  | none => simp only [bind_ok, mapM_ok, true_and]
  | some difference => simp only [reduceCtorEq, false_and]

theorem add_of_sameDTypes (hleft : left.Valid) (hright : right.Valid)
    (hdtypes : left.SameDTypes right) (h : left.difference? .all right = none) :
    ∃ sum, left.add right = .ok sum ∧ left.Combines Values.IsSum right sum := by
  obtain ⟨-, halike⟩ := (difference?_eq_none hleft hright).mp h
  have hnew : ∀ pair ∈ left.blocks.zip right.blocks, ∃ sum, pair.1.add pair.2 = .ok sum ∧
      pair.1.Combines Values.IsSum pair.2 sum ∧ sum.gradients.parameters.Nodup := by
    intro pair hmem
    obtain ⟨ha, hb⟩ := List.of_mem_zip hmem
    obtain ⟨sum, hsum, hcombines⟩ := Block.add_of_alike (hleft.blocks _ ha) (hright.blocks _ hb)
      (hdtypes pair hmem) ((List.forall₂_iff_zip.mp halike).2 hmem)
    exact ⟨sum, hsum, hcombines, hcombines.own.2.2 ▸ (hleft.blocks _ ha).distinct⟩
  obtain ⟨blocks, hblocks⟩ := exists_forall₂ hnew
  have hfst : (left.blocks.zip right.blocks).map Prod.fst = left.blocks :=
    List.map_fst_zip (Nat.le_of_eq halike.length_eq)
  refine ⟨⟨left.keys, blocks⟩, ?_, rfl, halike.length_eq, hblocks.imp fun _ _ hpair => hpair.2.1⟩
  refine add_ok.mpr ⟨h, blocks, hblocks.imp fun _ _ hpair => hpair.1, hleft.remake ?_⟩
  rw [← hfst, List.forall₂_map_left_iff]
  exact hblocks.imp fun _ _ hpair => ⟨hpair.2.1.agree, hpair.2.2⟩

theorem add_of_alike (hleft : left.Valid) (hright : right.Valid)
    (hdtypes : ∀ a ∈ left.blocks, ∀ b ∈ right.blocks, a.values.dtype = b.values.dtype)
    (h : left.difference? .all right = none) :
    ∃ sum, left.add right = .ok sum ∧ left.Combines Values.IsSum right sum :=
  add_of_sameDTypes hleft hright
    (fun _ hmem => hdtypes _ (List.of_mem_zip hmem).1 _ (List.of_mem_zip hmem).2) h

end

/-- Two gradients in the given order, each with a gradient below it. -/
def pairedTensor (first second : String) : Tensor :=
  let samples := counted 1
  let below := column samples [.one] (.cons "strain" (column samples [.one] .nil) .nil)
  ⟨.single, [column samples [.one] (.cons first below (.cons second below .nil))]⟩

end Tensor

end BlockTensor
