import BlockTensor.Proofs.Split.Elementwise
import BlockTensor.Proofs.Sums

/-!
# Arithmetic before or after a split

Operands with equal metadata are cut at the same positions, so the sum of their
parts is the part of their sum (`Block.add_part`), whatever the order of their
gradients. Blocks of different element types cannot be added, and neither can
their parts. With the operations of one operand this is `arithmetic_of_split`:
splitting a result gives the results on the parts.
-/

namespace BlockTensor

namespace Block

-- ---------------------------------------------------------------------------
-- Sums as blocks
-- ---------------------------------------------------------------------------

section
variable {a b sum : Block}

theorem add_fields (h : a.add b = .ok sum) : a.SameFrame sum ∧
    a.values.add b.values = .ok sum.values ∧
    List.Forall₂ (Rebuilds fun item => b.gradient item.1 >>= item.2.add) a.gradients.toList
      sum.gradients.toList := by
  obtain ⟨values, items, hvalues, hitems, hsum⟩ := add_ok.mp h
  obtain ⟨-, -, rfl⟩ := assemble_ok.mp hsum
  exact ⟨⟨(Values.add_valid hvalues).2.1, rfl, rfl, rfl⟩, hvalues, by simpa using hitems⟩

theorem add_of_fields (hsum : sum.Valid) (hframe : a.SameFrame sum)
    (hvalues : a.values.add b.values = .ok sum.values)
    (hitems : List.Forall₂ (Rebuilds fun item => b.gradient item.1 >>= item.2.add)
      a.gradients.toList sum.gradients.toList) : a.add b = .ok sum := by
  refine add_ok.mpr ⟨_, _, hvalues, hitems, ?_⟩
  rw [← hframe.samples, ← hframe.components, ← hframe.properties]
  exact hsum.assemble

/-- Gradients have the element type of their parent, so the first check fails. -/
theorem add_of_mixed (h : a.values.dtype ≠ b.values.dtype) : a.add b =
    .error (.invalidArgument (.mixedAddition a.values.dtype b.values.dtype)) := by
  obtain ⟨values, _, _, _, _⟩ := a
  obtain ⟨values', _, _, _, _⟩ := b
  rw [add]
  cases values with
  | float32 =>
    cases values' with
    | float32 => exact absurd rfl h
    | float64 => rfl
  | float64 =>
    cases values' with
    | float32 => rfl
    | float64 => exact absurd rfl h

end

-- ---------------------------------------------------------------------------
-- Sums of parts
-- ---------------------------------------------------------------------------

section
variable {a b sum : Block} {axis : Axis} {kept : List Nat}

theorem sameAxes_cutGradient (h : a.SameAxes .all b) :
    (a.cutGradient axis kept).SameAxes .all (b.cutGradient axis kept) := by
  obtain ⟨hsamples, hcomponents, hproperties⟩ := h
  cases axis with
  | samples => exact ⟨fun _ => congrArg (Labels.renumbered kept) (hsamples rfl), hcomponents,
      hproperties⟩
  | properties => exact ⟨hsamples, hcomponents,
      fun _ => congrArg (Labels.picked kept) (hproperties rfl)⟩

theorem sameAxes_cut (h : a.SameAxes .all b) :
    (a.cut axis kept).SameAxes .all (b.cut axis kept) := by
  obtain ⟨hsamples, hcomponents, hproperties⟩ := h
  cases axis with
  | samples => exact ⟨fun _ => congrArg (Labels.picked kept) (hsamples rfl), hcomponents,
      hproperties⟩
  | properties => exact ⟨hsamples, hcomponents,
      fun _ => congrArg (Labels.picked kept) (hproperties rfl)⟩

/-- A cut has gradients, but they have none. -/
theorem alike_cut (h : a.Alike .all b) : (a.cut axis kept).Alike .all (b.cut axis kept) := by
  obtain ⟨hsame, hgradients⟩ := alike_iff.mp h
  refine alike_iff.mpr ⟨sameAxes_cut hsame, fun parameter => ?_⟩
  have hparameter := hgradients parameter
  rw [gradients_cut, gradients_cut, Gradients.find?_map, Gradients.find?_map]
  generalize a.gradients.find? parameter = left at hparameter ⊢
  generalize b.gradients.find? parameter = right at hparameter ⊢
  cases hparameter with
  | none => exact .none
  | some hbelow =>
    refine .some (alike_iff.mpr ⟨sameAxes_cutGradient (alike_iff.mp hbelow).1, fun parameter => ?_⟩)
    cases axis <;> exact .none

theorem keptRows_congr (h : a.samples = b.samples) : a.keptRows kept = b.keptRows kept := by
  rw [keptRows, keptRows, h]

section
variable (ha : a.Valid) (hb : b.Valid) (h : a.add b = .ok sum)
include ha hb h

theorem add_picked_last (hsame : a.SameAxes .all b)
    (hpicked : (sum.values.picked (sum.values.shape.length - 1) kept).Valid) :
    (a.values.picked (a.values.shape.length - 1) kept).add
        (b.values.picked (b.values.shape.length - 1) kept) =
      .ok (sum.values.picked (sum.values.shape.length - 1) kept) := by
  obtain ⟨-, hvalues, -⟩ := add_fields h
  rw [(Values.add_valid hvalues).2.2] at hpicked ⊢
  rw [← shape_of_sameAxes ha.labelled hb.labelled hsame]
  exact Values.add_picked ha.labelled.values hb.labelled.values hvalues hpicked

theorem add_cutGradient (hsame : a.SameAxes .all b) (hcut : (sum.cutGradient axis kept).Valid) :
    (a.cutGradient axis kept).add (b.cutGradient axis kept) = .ok (sum.cutGradient axis kept) := by
  obtain ⟨hframe, hvalues, -⟩ := add_fields h
  have hpicked := hcut.labelled.values
  cases axis with
  | samples =>
    refine add_of_fields hcut ⟨?_, congrArg (Labels.renumbered kept) hframe.samples,
      hframe.components, hframe.properties⟩ ?_ .nil
    · simp only [cutGradient, Values.dtype_picked, hframe.dtype]
    · have hadd := Values.add_picked ha.labelled.values hb.labelled.values hvalues hpicked
      rw [keptRows_congr hframe.samples] at hadd
      simp only [cutGradient, keptRows_congr hframe.samples, ← keptRows_congr (hsame.samples rfl),
        hadd]
  | properties =>
    refine add_of_fields hcut ⟨?_, hframe.samples, hframe.components,
      congrArg (Labels.picked kept) hframe.properties⟩ ?_ .nil
    · simp only [cutGradient, Values.dtype_picked, hframe.dtype]
    · exact add_picked_last ha hb h hsame hpicked

theorem add_cut (halike : a.Alike .all b) (hcut : (sum.cut axis kept).Valid) :
    (a.cut axis kept).add (b.cut axis kept) = .ok (sum.cut axis kept) := by
  obtain ⟨hframe, hvalues, hitems⟩ := add_fields h
  obtain ⟨hsame, hgradients⟩ := alike_iff.mp halike
  have hpicked := hcut.labelled.values
  have hbelow : List.Forall₂ (Rebuilds fun item => (b.cut axis kept).gradient item.1 >>= item.2.add)
      (a.cut axis kept).gradients.toList (sum.cut axis kept).gradients.toList := by
    rw [gradients_cut, gradients_cut, Gradients.toList_map, Gradients.toList_map,
      List.forall₂_map_left_iff, List.forall₂_map_right_iff]
    obtain ⟨hlength, hitems⟩ := List.forall₂_iff_zip.mp hitems
    refine List.forall₂_iff_zip.mpr ⟨hlength, fun {item new} hmem => ?_⟩
    obtain ⟨hitem, hnew⟩ := List.of_mem_zip hmem
    obtain ⟨hparameter, hadd⟩ := hitems hmem
    obtain ⟨other, hother, hadd⟩ := bind_ok.mp hadd
    have hfind := gradient_ok.mp hother
    have hbelow := hgradients item.1
    rw [Gradients.find?_of_mem ha.distinct hitem, hfind] at hbelow
    refine ⟨hparameter, bind_ok.mpr ⟨other.cutGradient axis kept, gradient_ok.mpr ?_, ?_⟩⟩
    · rw [gradients_cut, Gradients.find?_map, hfind, Option.map_some]
    · exact add_cutGradient (ha.gradient hitem).2 (hb.gradient (Gradients.mem_of_find? hfind)).2
        hadd (alike_iff.mp (Option.rel_some_some.mp hbelow)).1 (cutGradient_valid hcut hnew)
  cases axis with
  | samples =>
    refine add_of_fields hcut ⟨?_, congrArg (Labels.picked kept) hframe.samples,
      hframe.components, hframe.properties⟩ ?_ hbelow
    · simp only [cut, Values.dtype_picked, hframe.dtype]
    · exact Values.add_picked ha.labelled.values hb.labelled.values hvalues hpicked
  | properties =>
    refine add_of_fields hcut ⟨?_, hframe.samples, hframe.components,
      congrArg (Labels.picked kept) hframe.properties⟩ ?_ hbelow
    · simp only [cut, Values.dtype_picked, hframe.dtype]
    · exact add_picked_last ha hb h hsame hpicked

end

-- ---------------------------------------------------------------------------
-- Parts of operands
-- ---------------------------------------------------------------------------

theorem labels_of_sameAxes (h : a.SameAxes .all b) : axis.labels b = axis.labels a := by
  obtain ⟨hsamples, -, hproperties⟩ := h
  cases axis with
  | samples => exact (hsamples rfl).symm
  | properties => exact (hproperties rfl).symm

section
variable {part part' : Block} {group : Labels} (ha : a.Valid) (hb : b.Valid)
  (halike : a.Alike .all b)
include ha hb halike

theorem exists_part_of_alike (hpart : a.part axis group = .ok part) :
    ∃ part', b.part axis group = .ok part' := by
  obtain ⟨kept, hkept, hcount, -⟩ := (part_ok ha).mp hpart
  rw [← labels_of_sameAxes (alike_iff.mp halike).1] at hkept
  exact ⟨_, (part_ok hb).mpr ⟨kept, hkept, hcount, rfl⟩⟩

/-- Both operands are cut at the same positions. -/
theorem eq_cut_of_parts (hpart : a.part axis group = .ok part)
    (hpart' : b.part axis group = .ok part') :
    ∃ kept, keptPositions axis (axis.labels a) group = .ok kept ∧
      (axis = .samples → kept.length ≤ 0x80000000) ∧
      part = a.cut axis kept ∧ part' = b.cut axis kept := by
  obtain ⟨kept, hkept, hcount, rfl⟩ := (part_ok ha).mp hpart
  obtain ⟨_, hkept', -, rfl⟩ := (part_ok hb).mp hpart'
  rw [labels_of_sameAxes (alike_iff.mp halike).1] at hkept'
  cases hkept.symm.trans hkept'
  exact ⟨kept, hkept, hcount, rfl, rfl⟩

theorem add_part (h : a.add b = .ok sum) (hpart : a.part axis group = .ok part)
    (hpart' : b.part axis group = .ok part') :
    ∃ image, sum.part axis group = .ok image ∧ part.add part' = .ok image := by
  obtain ⟨kept, hkept, hcount, rfl, rfl⟩ := eq_cut_of_parts ha hb halike hpart hpart'
  have hsum := add_valid ha h
  have hlabels : axis.labels sum = axis.labels a := by
    obtain ⟨hframe, -⟩ := add_fields h
    cases axis with
    | samples => exact hframe.samples
    | properties => exact hframe.properties
  have himage : sum.part axis group = .ok (sum.cut axis kept) :=
    (part_ok hsum).mpr ⟨kept, hlabels ▸ hkept, hcount, rfl⟩
  exact ⟨_, himage, add_cut ha hb h halike (part_valid hsum himage)⟩

theorem add_error {error : Error} : a.add b = .error error ↔ a.values.dtype ≠ b.values.dtype ∧
    error = .invalidArgument (.mixedAddition a.values.dtype b.values.dtype) := by
  by_cases hdtype : a.values.dtype = b.values.dtype
  · obtain ⟨sum, hsum, -⟩ := add_of_alike ha hb hdtype halike
    simp [hsum, hdtype]
  · simp [add_of_mixed hdtype, hdtype, eq_comm]

theorem add_error_part (hpart : a.part axis group = .ok part)
    (hpart' : b.part axis group = .ok part') (error : Error) :
    a.add b = .error error ↔ part.add part' = .error error := by
  have hvalid := part_valid ha hpart
  have hvalid' := part_valid hb hpart'
  obtain ⟨kept, -, -, rfl, rfl⟩ := eq_cut_of_parts ha hb halike hpart hpart'
  rw [add_error ha hb halike, add_error hvalid hvalid' (alike_cut halike)]
  cases axis <;> simp only [cut, Values.dtype_picked]

end

end

end Block

-- ---------------------------------------------------------------------------
-- Tensors
-- ---------------------------------------------------------------------------

namespace Tensor

section
variable {left right sum part part' : Tensor} {axis : Axis} {group : Labels}

variable (hleft : left.Valid) (hright : right.Valid)
  (hsame : left.difference? .all right = none)
include hleft hright hsame

theorem exists_part_of_same (hpart : left.part axis group = .ok part) :
    ∃ part', right.part axis group = .ok part' := by
  obtain ⟨-, halike⟩ := (difference?_eq_none hleft hright).mp hsame
  obtain ⟨blocks, hblocks, -⟩ := (part_ok hleft.count hleft.agree).mp hpart
  have hparts : ∀ b ∈ right.blocks, ∃ part', b.part axis group = .ok part' := by
    intro b hb
    obtain ⟨a, ha, halike⟩ := exists_of_forall₂ halike hb
    obtain ⟨_, -, hpart⟩ := exists_of_forall₂ hblocks.flip ha
    exact Block.exists_part_of_alike (hleft.blocks a ha) (hright.blocks b hb) halike hpart
  obtain ⟨others, hothers⟩ := exists_forall₂ hparts
  exact ⟨_, (part_ok hright.count hright.agree).mpr ⟨others, hothers, rfl⟩⟩

section
variable (hpart : left.part axis group = .ok part) (hpart' : right.part axis group = .ok part')
include hpart hpart'

theorem exists_part_pairs : ∃ blocks blocks', part = ⟨left.keys, blocks⟩ ∧
    part' = ⟨right.keys, blocks'⟩ ∧ blocks.length = blocks'.length ∧ List.Forall₂ (fun pair parts =>
      (pair.1.Valid ∧ pair.2.Valid ∧ pair.1.Alike .all pair.2) ∧
        pair.1.part axis group = .ok parts.1 ∧ pair.2.part axis group = .ok parts.2)
      (left.blocks.zip right.blocks) (blocks.zip blocks') := by
  obtain ⟨-, halike⟩ := (difference?_eq_none hleft hright).mp hsame
  obtain ⟨blocks, hblocks, rfl⟩ := (part_ok hleft.count hleft.agree).mp hpart
  obtain ⟨blocks', hblocks', rfl⟩ := (part_ok hright.count hright.agree).mp hpart'
  refine ⟨blocks, blocks', rfl, rfl, ?_, (List.forall₂_and_left _ _).mpr
    ⟨fun pair hmem => ?_, forall₂_zip_zip hblocks hblocks'⟩⟩
  · rw [← hblocks.length_eq, ← hblocks'.length_eq, halike.length_eq]
  · obtain ⟨ha, hb⟩ := List.of_mem_zip hmem
    exact ⟨hleft.blocks _ ha, hright.blocks _ hb, (List.forall₂_iff_zip.mp halike).2 hmem⟩

theorem difference?_parts : part.difference? .all part' = none := by
  obtain ⟨hkeys, -⟩ := (difference?_eq_none hleft hright).mp hsame
  have hvalid := part_valid hleft hpart
  have hvalid' := part_valid hright hpart'
  obtain ⟨blocks, blocks', rfl, rfl, hlength, hpairs⟩ :=
    exists_part_pairs hleft hright hsame hpart hpart'
  refine (difference?_eq_none hvalid hvalid').mpr ⟨hkeys, List.forall₂_iff_zip.mpr
    ⟨hlength, fun hmem => ?_⟩⟩
  obtain ⟨_, -, ⟨ha, hb, halike⟩, hpart, hpart'⟩ := exists_of_forall₂ hpairs hmem
  obtain ⟨kept, -, -, rfl, rfl⟩ := Block.eq_cut_of_parts ha hb halike hpart hpart'
  exact Block.alike_cut halike

theorem add_part (h : left.add right = .ok sum) :
    ∃ image, sum.part axis group = .ok image ∧ part.add part' = .ok image := by
  have hsum := add_valid hleft h
  have hdifference := difference?_parts hleft hright hsame hpart hpart'
  obtain ⟨blocks, blocks', rfl, rfl, -, hpairs⟩ := exists_part_pairs hleft hright hsame hpart hpart'
  obtain ⟨-, sums, hsums, hmake⟩ := add_ok.mp h
  obtain rfl := make_eq hmake
  obtain ⟨images, himages, hadds⟩ : ∃ images,
      List.Forall₂ (fun block image => block.part axis group = .ok image) sums images ∧
      List.Forall₂ (fun parts image => parts.1.add parts.2 = .ok image) (blocks.zip blocks')
        images := by
    refine exists_forall₂_square hsums hpairs ?_
    rintro pair - sum parts hadd ⟨⟨ha, hb, halike⟩, hpart, hpart'⟩
    exact Block.add_part ha hb halike hadd hpart hpart'
  have himage := (part_ok hsum.count hsum.agree).mpr ⟨images, himages, rfl⟩
  exact ⟨_, himage, add_ok.mpr ⟨hdifference, images, hadds, (part_valid hsum himage).make⟩⟩

theorem add_error_part {error : Error}
    (h : (left.blocks.zip right.blocks).mapM (fun pair => pair.1.add pair.2) = .error error) :
    part.add part' = .error error := by
  have hdifference := difference?_parts hleft hright hsame hpart hpart'
  obtain ⟨blocks, blocks', rfl, rfl, -, hpairs⟩ := exists_part_pairs hleft hright hsame hpart hpart'
  have hparts := mapM_error (hpairs.imp fun pair parts ⟨⟨ha, hb, halike⟩, hpart, hpart'⟩ =>
    Block.add_error_part ha hb halike hpart hpart') h
  rw [add, hdifference]
  exact congrArg (fun blocks => blocks >>= make left.keys) hparts

end

-- ---------------------------------------------------------------------------
-- Splitting
-- ---------------------------------------------------------------------------

variable {groups : List Labels} {parts parts' : List Tensor}
  (hsplit : left.split axis groups = .ok parts)
include hsplit

theorem exists_split_of_same : ∃ parts', right.split axis groups = .ok parts' := by
  refine exists_split fun group hmem => ?_
  obtain ⟨_, -, hpart⟩ := exists_of_forall₂ (split_ok.mp hsplit).flip hmem
  exact exists_part_of_same hleft hright hsame hpart

variable (hsplit' : right.split axis groups = .ok parts')
include hsplit'

theorem sum_of_split (hdtypes : left.SameDTypes right) : ∃ sum images, left.add right = .ok sum ∧
    sum.split axis groups = .ok images ∧
    List.Forall₂ (fun pair image => pair.1.add pair.2 = .ok image) (parts.zip parts') images := by
  obtain ⟨sum, hsum, -⟩ := add_of_sameDTypes hleft hright hdtypes hsame
  have hpairs := forall₂_zip_right (split_ok.mp hsplit) (split_ok.mp hsplit')
  have hgroups : List.Forall₂ (· = ·) groups groups := List.forall₂_same.mpr fun _ _ => rfl
  obtain ⟨images, himages, hadds⟩ : ∃ images,
      List.Forall₂ (fun group image => sum.part axis group = .ok image) groups images ∧
      List.Forall₂ (fun pair image => pair.1.add pair.2 = .ok image) (parts.zip parts') images := by
    refine exists_forall₂_square hgroups hpairs ?_
    rintro group - _ pair rfl ⟨hpart, hpart'⟩
    exact add_part hleft hright hsame hpart hpart' hsum
  exact ⟨sum, images, hsum, split_ok.mpr himages, hadds⟩

theorem error_of_split (hdtypes : ¬ left.SameDTypes right) :
    ∃ error, left.add right = .error error ∧
      ∀ pair ∈ parts.zip parts', pair.1.add pair.2 = .error error := by
  have hpairs := forall₂_zip_right (split_ok.mp hsplit) (split_ok.mp hsplit')
  cases hadds : (left.blocks.zip right.blocks).mapM fun pair => pair.1.add pair.2 with
  | error error =>
    refine ⟨error, ?_, fun pair hmem => ?_⟩
    · rw [add, hsame]
      exact congrArg (fun blocks => blocks >>= make left.keys) hadds
    · obtain ⟨group, -, hpart, hpart'⟩ := exists_of_forall₂ hpairs hmem
      exact add_error_part hleft hright hsame hpart hpart' hadds
  | ok blocks =>
    -- The blocks of a pair that can be added have one element type.
    refine absurd (fun pair hmem => ?_) hdtypes
    obtain ⟨block, -, hadd⟩ := exists_of_forall₂ (mapM_ok.mp hadds).flip hmem
    by_contra hdtype
    rw [Block.add_of_mixed hdtype] at hadd
    cases hadd

end

/-- Operands of one element type have a sum, which splits into the sums of the
parts. Other operands, and their parts, fail in the same way. -/
theorem arithmetic_of_split {left right : Tensor} {axis : Axis} {groups : List Labels}
    {parts : List Tensor} (hleft : left.Valid) (hright : right.Valid)
    (hsame : left.sameMetadata .all right = true) (hsplit : left.split axis groups = .ok parts) :
    (∃ others, right.split axis groups = .ok others ∧ others.length = parts.length ∧
      if left.SameDTypes right then
        ∃ sum images, left.add right = .ok sum ∧ sum.split axis groups = .ok images ∧
          List.Forall₂ (fun pair image => pair.1.add pair.2 = .ok image) (parts.zip others) images
      else ∃ error, left.add right = .error error ∧
        ∀ pair ∈ parts.zip others, pair.1.add pair.2 = .error error) ∧
    (∀ scalar, left.SplitsAlong (multiply scalar) axis groups parts ∧
      left.SplitsAlong (addScalar scalar) axis groups parts) ∧
    left.SplitsAlong zerosLike axis groups parts := by
  have hnone : left.difference? .all right = none := Option.isNone_iff_eq_none.mp hsame
  refine ⟨?_, fun scalar => ⟨?_, splitsAlong_addScalar hleft hsplit scalar⟩, ?_⟩
  · obtain ⟨others, hothers⟩ := exists_split_of_same hleft hright hnone hsplit
    refine ⟨others, hothers, ?_, ?_⟩
    · rw [← (split_ok.mp hothers).length_eq, ← (split_ok.mp hsplit).length_eq]
    · split
      next hdtypes => exact sum_of_split hleft hright hnone hsplit hothers hdtypes
      next hdtypes => exact error_of_split hleft hright hnone hsplit hothers hdtypes
  · exact splitsAlong_mapValues hleft hsplit (Values.elementwise_mulScalar scalar)
  · exact splitsAlong_mapValues hleft hsplit Values.elementwise_zeroed

def noneThenOne : List Labels := [⟨["sample"], [[7]]⟩, ⟨["sample"], [[7], [0]]⟩]

theorem arithmetic_of_split_paired :
    let left := pairedTensor "positions" "cell"
    let right := pairedTensor "cell" "positions"
    left.Valid ∧ right.Valid ∧ left.sameMetadata .all right = true ∧
      ∃ parts others sum images, left.split .samples noneThenOne = .ok parts ∧
        right.split .samples noneThenOne = .ok others ∧ left.add right = .ok sum ∧
        sum.split .samples noneThenOne = .ok images ∧
        List.Forall₂ (fun pair image => pair.1.add pair.2 = .ok image) (parts.zip others) images ∧
        left.SplitsAlong (multiply .minusOne) .samples noneThenOne parts ∧
        left.SplitsAlong (addScalar .minusOne) .samples noneThenOne parts ∧
        left.SplitsAlong zerosLike .samples noneThenOne parts := by
  have hleft : (pairedTensor "positions" "cell").Valid := Archive.valid_of_record rfl
  have hright : (pairedTensor "cell" "positions").Valid := Archive.valid_of_record rfl
  have hsame : (pairedTensor "positions" "cell").sameMetadata .all
    (pairedTensor "cell" "positions") = true := rfl
  have hdtypes : (pairedTensor "positions" "cell").SameDTypes (pairedTensor "cell" "positions") :=
    by decide
  have hsplit : (pairedTensor "positions" "cell").split .samples noneThenOne = .ok _ := rfl
  obtain ⟨⟨others, hothers, -, hsum⟩, hscalar, hzeros⟩ :=
    arithmetic_of_split hleft hright hsame hsplit
  rw [if_pos hdtypes] at hsum
  obtain ⟨sum, images, hsum, himages, hadds⟩ := hsum
  exact ⟨hleft, hright, hsame, _, others, sum, images, hsplit, hothers, hsum, himages, hadds,
    (hscalar .minusOne).1, (hscalar .minusOne).2, hzeros⟩

end Tensor

end BlockTensor
