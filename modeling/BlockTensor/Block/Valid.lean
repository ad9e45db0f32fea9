import BlockTensor.Block.Basic
import BlockTensor.Labels.Construct

/-!
# Valid blocks

`Block.Valid` is what blocks promise at every depth: labels that fit the axes
of the array, distinct component names, and gradients that fit their parent.
`make_ok` and `addGradient_ok` read the checks of the constructors as these
rules.
-/

namespace BlockTensor

structure AxesFit (shape : List Nat) (samples : Labels) (components : List Labels)
    (properties : Labels) : Prop where
  shape : shape = samples.length :: components.map (fun c => c.length) ++ [properties.length]
  componentNames : (components.flatMap fun c => c.names).Nodup

structure Block.Fits (parent gradient : Block) : Prop where
  dtype : gradient.values.dtype = parent.values.dtype
  firstName : gradient.samples.names.head? = some "sample"
  samples : ∀ entry ∈ gradient.samples.entries,
    isSampleIndex parent.samples.length (entry.headD 0) = true
  properties : gradient.properties = parent.properties
  components : parent.components <:+ gradient.components

mutual
def Block.Valid : Block → Prop
  | ⟨values, samples, components, properties, gradients⟩ =>
    values.Valid ∧ samples.Valid ∧ (∀ c ∈ components, c.Valid) ∧ properties.Valid ∧
      AxesFit values.shape samples components properties ∧
      gradients.parameters.Nodup ∧ "values" ∉ gradients.parameters ∧
      (∀ item ∈ gradients.toList,
        Block.Fits ⟨values, samples, components, properties, gradients⟩ item.2) ∧
      gradients.AllValid
def Gradients.AllValid : Gradients → Prop
  | .nil => True
  | .cons _ gradient rest => gradient.Valid ∧ rest.AllValid
end

namespace Block

-- ---------------------------------------------------------------------------
-- Shapes
-- ---------------------------------------------------------------------------

theorem checkComponentNames_ok {seen names : List String} {u : Unit} :
    checkComponentNames seen names = .ok u ↔ (∀ name ∈ names, name ∉ seen) ∧ names.Nodup := by
  induction names generalizing seen with
  | nil => simp [checkComponentNames]
  | cons name rest ih =>
    simp only [checkComponentNames, bind_ok, ensure_ok, ih, List.mem_cons, List.nodup_cons,
      not_or, forall_eq_or_imp]
    constructor
    · rintro ⟨_, hname, hrest, hdistinct⟩
      exact ⟨⟨hname, fun other h => (hrest other h).2⟩,
        fun h => (hrest name h).1 rfl, hdistinct⟩
    · rintro ⟨⟨hname, hrest⟩, hnew, hdistinct⟩
      exact ⟨(), hname, fun other h => ⟨fun heq => hnew (heq ▸ h), hrest other h⟩, hdistinct⟩

theorem checkComponentAxes_ok {axis : Nat} {components : List Labels} {lengths : List Nat}
    {u : Unit} (h : components.length ≤ lengths.length) :
    checkComponentAxes axis components lengths = .ok u ↔
      lengths.take components.length = components.map fun c => c.length := by
  induction components generalizing axis lengths with
  | nil => simp [checkComponentAxes]
  | cons component rest ih =>
    cases lengths with
    | nil => simp at h
    | cons length lengths =>
      simp [checkComponentAxes, bind_ok, ensure_ok, ih (by simpa using h)]

theorem getLastD_append_singleton (lengths : List Nat) (last default : Nat) :
    (lengths ++ [last]).getLastD default = last := by
  simp [List.getLastD_eq_getLast?]

theorem checkShape_ok {shape : List Nat} {samples : Labels} {components : List Labels}
    {properties : Labels} {u : Unit} :
    checkShape shape samples components properties = .ok u ↔
      shape = samples.length :: components.map (fun c => c.length) ++ [properties.length] := by
  simp only [checkShape, bind_ok, ensure_ok]
  constructor
  · rintro ⟨_, hrank, _, hsamples, _, hcomponents, hproperties⟩
    obtain ⟨first, middle, last, rfl⟩ : ∃ first middle last, shape = first :: middle ++ [last] := by
      cases shape with
      | nil => simp at hrank
      | cons first rest =>
        have hne : rest ≠ [] := by
          rintro rfl
          simp at hrank
        exact ⟨first, rest.dropLast, rest.getLast hne, by
          rw [List.cons_append, List.dropLast_concat_getLast hne]⟩
    have hlength : middle.length = components.length := by simpa using hrank
    rw [checkComponentAxes_ok (by simp [hlength])] at hcomponents
    simp only [List.cons_append, List.drop_succ_cons, List.drop_zero, ← hlength,
      List.take_left'] at hcomponents
    simp only [List.cons_append, List.headD_cons] at hsamples
    have hlast : last = properties.length := by
      rw [← hproperties, getLastD_append_singleton]
    rw [hsamples, hcomponents, hlast]
  · rintro rfl
    refine ⟨(), by simp, (), by simp, (), ?_, getLastD_append_singleton ..⟩
    rw [checkComponentAxes_ok (by simp)]
    simp

theorem make_ok {values : Values} {samples : Labels} {components : List Labels}
    {properties : Labels} {block : Block} :
    make values samples components properties = .ok block ↔
      AxesFit values.shape samples components properties ∧
        block = ⟨values, samples, components, properties, .nil⟩ := by
  simp only [make, bind_ok, checkComponentNames_ok, checkShape_ok, pure_ok]
  constructor
  · rintro ⟨_, ⟨_, hnames⟩, _, hshape, rfl⟩
    exact ⟨⟨hshape, hnames⟩, rfl⟩
  · rintro ⟨⟨hshape, hnames⟩, rfl⟩
    exact ⟨(), ⟨by simp, hnames⟩, (), hshape, rfl⟩

-- ---------------------------------------------------------------------------
-- Gradients
-- ---------------------------------------------------------------------------

theorem isSampleIndex_iff {count : Nat} {value : LabelValue} :
    isSampleIndex count value = true ↔ 0 ≤ value.toInt ∧ value.toInt < count := by
  simp [isSampleIndex]

theorem checkSampleIndices_ok {parameter : String} {count : Nat} {entries : List Entry}
    {u : Unit} :
    checkSampleIndices parameter count entries = .ok u ↔
      ∀ entry ∈ entries, isSampleIndex count (entry.headD 0) = true := by
  induction entries with
  | nil => simp [checkSampleIndices]
  | cons entry rest ih => simp [checkSampleIndices, bind_ok, ensure_ok, ih]

/-- A gradient is accepted exactly when its parameter is new and not reserved
and it fits its parent. -/
theorem checkGradient_ok {block gradient : Block} {parameter : String} {u : Unit} :
    checkGradient block parameter gradient = .ok u ↔
      parameter ≠ "values" ∧ parameter ∉ block.gradients.parameters ∧ block.Fits gradient := by
  have hsuffix : block.components <:+ gradient.components ↔
      block.components.length ≤ gradient.components.length ∧
        gradient.components.drop (gradient.components.length - block.components.length) =
          block.components := by
    constructor
    · intro h
      exact ⟨h.length_le, (List.suffix_iff_eq_drop.mp h).symm⟩
    · rintro ⟨_, h⟩
      exact List.suffix_iff_eq_drop.mpr h.symm
  simp only [checkGradient, bind_ok, ensure_ok, checkSampleIndices_ok]
  constructor
  · rintro ⟨_, hreserved, _, hnew, _, hdtype, _, hfirst, _, hsamples, _, hproperties, _, hcount,
      hdrop⟩
    exact ⟨hreserved, hnew, hdtype, hfirst, hsamples, hproperties,
      hsuffix.mpr ⟨hcount, hdrop⟩⟩
  · rintro ⟨hreserved, hnew, hdtype, hfirst, hsamples, hproperties, hcomponents⟩
    obtain ⟨hcount, hdrop⟩ := hsuffix.mp hcomponents
    exact ⟨(), hreserved, (), hnew, (), hdtype, (), hfirst, (), hsamples, (), hproperties, (),
      hcount, hdrop⟩

theorem addGradient_ok {block gradient result : Block} {parameter : String} :
    block.addGradient parameter gradient = .ok result ↔
      parameter ≠ "values" ∧ parameter ∉ block.gradients.parameters ∧ block.Fits gradient ∧
        result = { block with gradients := block.gradients.push parameter gradient } := by
  simp only [addGradient, bind_ok, checkGradient_ok, pure_ok]
  constructor
  · rintro ⟨_, ⟨hreserved, hnew, hfits⟩, rfl⟩
    exact ⟨hreserved, hnew, hfits, rfl⟩
  · rintro ⟨hreserved, hnew, hfits, rfl⟩
    exact ⟨(), ⟨hreserved, hnew, hfits⟩, rfl⟩

end Block

end BlockTensor
