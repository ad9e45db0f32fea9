import BlockTensor.Metadata.Difference
import BlockTensor.Proofs.Paths
import Mathlib.Data.List.Forall2

/-!
# Equal metadata

Two blocks are alike if the same paths of parameters lead to gradients in both
and the labels there are equal, on the axes that are compared. `difference?`
finds no difference between two valid blocks exactly when they are alike, in
whatever order their gradients were attached.
-/

namespace BlockTensor

variable {compared : Compared}

-- ---------------------------------------------------------------------------
-- One level
-- ---------------------------------------------------------------------------

theorem ite_some_eq_none {α : Type} {rule : Prop} [Decidable rule] {a : α} {next : Option α} :
    (if rule then some a else next) = none ↔ ¬rule ∧ next = none := by
  split <;> simp [*]

theorem componentDifference?_eq_none {left right : List Labels} :
    componentDifference? left right = none ↔ left = right := by
  unfold componentDifference?
  split
  next hne =>
    simp only [reduceCtorEq, false_iff]
    rintro rfl
    exact hne rfl
  next heq =>
    have hlength : left.length = right.length := by simpa using heq
    simp only [Option.map_eq_none_iff, List.findIdx?_eq_none_iff, bne_eq_false_iff_eq]
    rw [← List.forall₂_eq_eq_eq, List.forall₂_iff_zip]
    exact ⟨fun h => ⟨hlength, fun hmem => h _ hmem⟩, fun h pair hmem => h.2 hmem⟩

/-- Parameters that are distinct sort into the same list exactly when they are
the same ones. -/
theorem Gradients.sortedParameters_eq {left right : Gradients} (hleft : left.parameters.Nodup)
    (hright : right.parameters.Nodup) : left.sortedParameters = right.sortedParameters ↔
      ∀ parameter, parameter ∈ left.parameters ↔ parameter ∈ right.parameters := by
  have hperm (gradients : Gradients) : gradients.sortedParameters.Perm gradients.parameters :=
    perm_sortBy _ _
  have hsorted (gradients : Gradients) :
      gradients.sortedParameters.Pairwise fun a b => a ≤ b := by
    refine (pairwise_sortBy (fun a b => ?_) (fun a b c hab hbc => ?_) _).imp of_decide_eq_true
    · simpa using String.le_total a b
    · exact decide_eq_true (String.le_trans (of_decide_eq_true hab) (of_decide_eq_true hbc))
  constructor
  · intro h parameter
    rw [← (hperm left).mem_iff, h, (hperm right).mem_iff]
  · intro h
    have hsame := (List.perm_ext_iff_of_nodup hleft hright).mpr h
    exact (((hperm left).trans hsame).trans (hperm right).symm).eq_of_pairwise
      (fun _ _ _ _ => String.le_antisymm) (hsorted left) (hsorted right)

/-- Look-ups in two lists of gradients are related if the parameters are the same
and the gradients of each are related. -/
theorem Gradients.forall_rel_find? {R : Block → Block → Prop} {left right : Gradients}
    (hleft : left.parameters.Nodup) :
    (∀ parameter, Option.Rel R (left.find? parameter) (right.find? parameter)) ↔
      (∀ parameter, parameter ∈ left.parameters ↔ parameter ∈ right.parameters) ∧
        ∀ item ∈ left.toList, ∀ other, right.find? item.1 = some other → R item.2 other := by
  constructor
  · intro h
    refine ⟨fun parameter => ?_, fun item hmem other hother => ?_⟩
    · rw [mem_parameters_iff, mem_parameters_iff]
      have hparameter := h parameter
      cases hl : left.find? parameter <;> cases hr : right.find? parameter <;>
        simp_all only [reduceCtorEq, exists_false, Option.some.injEq, exists_eq']
      · cases hparameter
      · cases hparameter
    · have hparameter := h item.1
      rw [find?_of_mem hleft hmem, hother] at hparameter
      exact Option.rel_some_some.mp hparameter
  · rintro ⟨hsame, hrelated⟩ parameter
    have hparameter := hsame parameter
    rw [mem_parameters_iff, mem_parameters_iff] at hparameter
    cases hl : left.find? parameter with
    | none =>
      cases hr : right.find? parameter with
      | none => exact .none
      | some other => simp [hl, hr] at hparameter
    | some gradient =>
      obtain ⟨other, hother⟩ := hparameter.mp ⟨gradient, hl⟩
      rw [hother]
      exact .some (hrelated _ (mem_of_find? hl) other hother)

namespace Block

structure SameAxes (compared : Compared) (left right : Block) : Prop where
  samples : compared.samples = true → left.samples = right.samples
  components : compared.components = true → left.components = right.components
  properties : compared.properties = true → left.properties = right.properties

theorem ownDifference?_eq_none {left right : Block} (hleft : left.gradients.parameters.Nodup)
    (hright : right.gradients.parameters.Nodup) :
    ownDifference? compared left right = none ↔ left.SameAxes compared right ∧
      ∀ parameter, parameter ∈ left.gradients.parameters ↔
        parameter ∈ right.gradients.parameters := by
  have hcomponents : (if compared.components then
      componentDifference? left.components right.components else none) = none ↔
        (compared.components = true → left.components = right.components) := by
    split
    next h => simp only [componentDifference?_eq_none, h, forall_const]
    next h => simp [h]
  rw [← Gradients.sortedParameters_eq hleft hright, ownDifference?, ite_some_eq_none]
  split
  next difference h =>
    rw [h] at hcomponents
    simp only [reduceCtorEq, and_false, false_iff]
    exact fun hsame => absurd (hcomponents.mpr hsame.1.components) (by simp)
  next h =>
    simp only [ite_some_eq_none, ne_eq, not_and_not_right, Decidable.not_not, and_true]
    constructor
    · rintro ⟨hsamples, hproperties, hparameters⟩
      exact ⟨⟨hsamples, hcomponents.mp h, hproperties⟩, hparameters⟩
    · rintro ⟨⟨hsamples, -, hproperties⟩, hparameters⟩
      exact ⟨hsamples, hproperties, hparameters⟩

/-- The same paths lead to gradients with equal labels. -/
def Alike (compared : Compared) (left right : Block) : Prop :=
  ∀ path, Option.Rel (SameAxes compared) (left.gradientAt path) (right.gradientAt path)

theorem alike_iff {left right : Block} : left.Alike compared right ↔
    left.SameAxes compared right ∧ ∀ parameter, Option.Rel (Alike compared)
      (left.gradients.find? parameter) (right.gradients.find? parameter) := by
  constructor
  · intro h
    refine ⟨Option.rel_some_some.mp (h []), fun parameter => ?_⟩
    have hpath (path : List String) := h (parameter :: path)
    have hnil := hpath []
    simp only [gradientAt] at hpath hnil
    cases hl : left.gradients.find? parameter <;> cases hr : right.gradients.find? parameter <;>
      simp only [hl, hr, Option.bind_none, Option.bind_some] at hpath hnil
    · exact .none
    · cases hnil
    · cases hnil
    · exact .some hpath
  · rintro ⟨hown, hgradients⟩ path
    cases path with
    | nil => exact .some hown
    | cons parameter path =>
      have hparameter := hgradients parameter
      simp only [gradientAt]
      cases hl : left.gradients.find? parameter <;> cases hr : right.gradients.find? parameter <;>
        simp only [hl, hr] at hparameter <;> cases hparameter
      · exact .none
      · next h => exact h path

end Block

theorem Gradients.difference?_eq_none {gradients others : Gradients}
    (hfound : ∀ item ∈ gradients.toList, ∃ other, others.find? item.1 = some other) :
    gradients.difference? compared others = none ↔ ∀ item ∈ gradients.toList, ∀ other,
      others.find? item.1 = some other → item.2.difference? compared other = none := by
  induction gradients with
  | nil => simp [difference?, toList]
  | cons parameter gradient rest ih =>
    simp only [toList, List.forall_mem_cons] at hfound ⊢
    obtain ⟨⟨other, hother⟩, hrest⟩ := hfound
    rw [← ih hrest]
    simp only [difference?, hother, Option.some.injEq, forall_eq']
    cases gradient.difference? compared other <;> simp

namespace Block

theorem difference?_eq_none_step {left right : Block} : left.difference? compared right = none ↔
    ownDifference? compared left right = none ∧
      left.gradients.difference? compared right.gradients = none := by
  cases left
  rw [difference?]
  split
  next h => simp [h]
  next h => simp [h]

theorem difference?_eq_none {left right : Block} (hleft : left.Valid) (hright : right.Valid) :
    left.difference? compared right = none ↔ left.Alike compared right := by
  induction left generalizing right with
  | step left ih =>
    rw [alike_iff, Gradients.forall_rel_find? hleft.distinct, ← and_assoc,
      ← ownDifference?_eq_none hleft.distinct hright.distinct, difference?_eq_none_step]
    refine and_congr_right fun hown => ?_
    obtain ⟨-, hparameters⟩ := (ownDifference?_eq_none hleft.distinct hright.distinct).mp hown
    rw [Gradients.difference?_eq_none fun item hmem => Gradients.mem_parameters_iff.mp
      ((hparameters item.1).mp (Gradients.mem_parameters_iff.mpr
        ⟨item.2, Gradients.find?_of_mem hleft.distinct hmem⟩))]
    refine forall₂_congr fun item hmem => forall₂_congr fun other hother => ?_
    exact ih item hmem (hleft.gradient hmem).2
      (hright.gradient (Gradients.mem_of_find? hother)).2

end Block

namespace Tensor

theorem difference?_eq_none {left right : Tensor} (hleft : left.Valid) (hright : right.Valid) :
    left.difference? compared right = none ↔ left.keys = right.keys ∧
      List.Forall₂ (Block.Alike compared) left.blocks right.blocks := by
  rw [difference?, ite_some_eq_none, ne_eq, Decidable.not_not]
  refine and_congr_right fun hkeys => ?_
  have hcount : left.blocks.length = right.blocks.length := by
    rw [← hleft.count, hkeys, hright.count]
  have hitems : left.items.map Prod.snd = left.blocks :=
    List.map_snd_zip (Nat.le_of_eq hleft.count.symm)
  rw [List.forall₂_iff_zip, List.findSome?_eq_none_iff, ← hitems, List.zip_map_left, hitems]
  simp only [Option.map_eq_none_iff, List.mem_map]
  constructor
  · intro h
    refine ⟨hcount, ?_⟩
    rintro a b ⟨⟨⟨key, block⟩, other⟩, hmem, heq⟩
    cases heq
    obtain ⟨hitem, hother⟩ := List.of_mem_zip hmem
    exact (Block.difference?_eq_none (hleft.blocks _ (List.of_mem_zip hitem).2)
      (hright.blocks _ hother)).mp (h _ hmem)
  · rintro ⟨-, h⟩ ⟨⟨key, block⟩, other⟩ hmem
    obtain ⟨hitem, hother⟩ := List.of_mem_zip hmem
    exact (Block.difference?_eq_none (hleft.blocks _ (List.of_mem_zip hitem).2)
      (hright.blocks _ hother)).mpr (h ⟨_, hmem, rfl⟩)

end Tensor

end BlockTensor
