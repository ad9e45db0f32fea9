import BlockTensor.Proofs.Built

/-!
# Which gradients a block accepts

`Block.addGradient` asks eight questions, one after the other. `addGradientLaws` says that it
accepts exactly the gradients for which all answers are right (`Block.Compatible`), that it then
appends the gradient and does nothing else, and that an error names the parameter and a fault
that the gradient has. A block that is changed in place is changed by a success only.
-/

namespace BlockTensor

-- ---------------------------------------------------------------------------
-- Rules and faults
-- ---------------------------------------------------------------------------

structure Block.Compatible (block : Block) (parameter : String) (gradient : Block) : Prop where
  reserved : parameter ≠ "values"
  fresh : parameter ∉ block.gradients.parameters
  dtype : gradient.values.dtype = block.values.dtype
  firstName : ∃ others, gradient.samples.names = "sample" :: others
  samples : ∀ sample others, sample :: others ∈ gradient.samples.entries →
    0 ≤ sample.toInt ∧ sample.toInt < block.samples.length
  properties : gradient.properties = block.properties
  components : ∃ added, gradient.components = added ++ block.components

def GradientFault.Describes (block : Block) (parameter : String) (gradient : Block) :
    GradientFault → Prop
  | .reserved => parameter = "values"
  | .alreadyPresent => parameter ∈ block.gradients.parameters
  | .differentDType found expected =>
    found = gradient.values.dtype ∧ expected = block.values.dtype ∧ found ≠ expected
  | .firstSampleName names => names = gradient.samples.names ∧ names.head? ≠ some "sample"
  | .noSuchSample entry sample count => entry ∈ gradient.samples.entries ∧
    entry.head? = some sample ∧ count = block.samples.length ∧
      ¬(0 ≤ sample.toInt ∧ sample.toInt < count)
  | .differentProperties => gradient.properties ≠ block.properties
  | .tooFewComponents found expected =>
    found = gradient.components.length ∧ expected = block.components.length ∧ found < expected
  | .differentComponents => ¬block.components <:+ gradient.components

namespace Block

theorem Valid.head?_sample {block : Block} (h : block.Valid) {entry : Entry}
    (hmem : entry ∈ block.samples.entries) : entry.head? = some (entry.headD 0) := by
  cases entry with
  | nil => exact absurd rfl (h.labelled.samples.ne_nil hmem)
  | cons => rfl

theorem compatible_iff {block gradient : Block} {parameter : String} (hgradient : gradient.Valid) :
    block.Compatible parameter gradient ↔
      parameter ≠ "values" ∧ parameter ∉ block.gradients.parameters ∧ block.Fits gradient := by
  constructor
  · rintro ⟨hreserved, hfresh, hdtype, ⟨others, hnames⟩, hsamples, hproperties, added, hadded⟩
    refine ⟨hreserved, hfresh, hdtype, by rw [hnames, List.head?_cons], fun entry hmem => ?_,
      hproperties, added, hadded.symm⟩
    obtain ⟨others, hentry⟩ := List.head?_eq_some_iff.mp (hgradient.head?_sample hmem)
    exact isSampleIndex_iff.mpr (hsamples _ others (hentry ▸ hmem))
  · rintro ⟨hreserved, hfresh, hdtype, hfirst, hsamples, hproperties, added, hadded⟩
    refine ⟨hreserved, hfresh, hdtype, List.head?_eq_some_iff.mp hfirst,
      fun sample others hmem => ?_, hproperties, added, hadded.symm⟩
    exact isSampleIndex_iff.mp (hsamples (sample :: others) hmem)

-- ---------------------------------------------------------------------------
-- Errors
-- ---------------------------------------------------------------------------

theorem checkSampleIndices_error {parameter : String} {count : Nat} {entries : List Entry}
    {error : Error} (h : checkSampleIndices parameter count entries = .error error) :
    ∃ entry ∈ entries, isSampleIndex count (entry.headD 0) ≠ true ∧
      error = .gradient parameter (.noSuchSample entry (entry.headD 0) count) := by
  induction entries with
  | nil => cases h
  | cons entry rest ih =>
    simp only [checkSampleIndices, bind_error, ensure_error] at h
    rcases h with ⟨hindex, rfl⟩ | ⟨_, -, hrest⟩
    · exact ⟨entry, List.mem_cons_self, hindex, rfl⟩
    · obtain ⟨other, hmem, hother⟩ := ih hrest
      exact ⟨other, List.mem_cons_of_mem _ hmem, hother⟩

theorem checkGradient_error {block gradient : Block} {parameter : String} {error : Error}
    (hgradient : gradient.Valid) (h : checkGradient block parameter gradient = .error error) :
    ∃ fault : GradientFault, error = .gradient parameter fault ∧
      fault.Describes block parameter gradient := by
  simp only [checkGradient, bind_error, ensure_error] at h
  rcases h with ⟨hreserved, rfl⟩ | ⟨_, -, h⟩
  · exact ⟨.reserved, rfl, not_not.mp hreserved⟩
  rcases h with ⟨hpresent, rfl⟩ | ⟨_, -, h⟩
  · exact ⟨.alreadyPresent, rfl, not_not.mp hpresent⟩
  rcases h with ⟨hdtype, rfl⟩ | ⟨_, -, h⟩
  · exact ⟨.differentDType _ _, rfl, rfl, rfl, hdtype⟩
  rcases h with ⟨hfirst, rfl⟩ | ⟨_, -, h⟩
  · exact ⟨.firstSampleName _, rfl, rfl, hfirst⟩
  rcases h with hsamples | ⟨_, -, h⟩
  · obtain ⟨entry, hmem, hindex, rfl⟩ := checkSampleIndices_error hsamples
    exact ⟨.noSuchSample _ _ _, rfl, hmem, hgradient.head?_sample hmem, rfl,
      mt isSampleIndex_iff.mpr hindex⟩
  rcases h with ⟨hproperties, rfl⟩ | ⟨_, -, h⟩
  · exact ⟨.differentProperties, rfl, hproperties⟩
  rcases h with ⟨hcount, rfl⟩ | ⟨_, -, hcomponents, rfl⟩
  · exact ⟨.tooFewComponents _ _, rfl, rfl, rfl, Nat.lt_of_not_le hcount⟩
  · have hsuffix : ¬block.components <:+ gradient.components := fun hsuffix =>
      hcomponents (List.suffix_iff_eq_drop.mp hsuffix).symm
    exact ⟨.differentComponents, rfl, hsuffix⟩

-- ---------------------------------------------------------------------------
-- In place
-- ---------------------------------------------------------------------------

theorem run_attachInPlace (block : Block) (parameter : String) (gradient : Block) :
    (attachInPlace parameter gradient).run block =
      match block.addGradient parameter gradient with
      | .ok result => (.ok (), result)
      | .error error => (.error error, block) := by
  cases h : checkGradient block parameter gradient <;> simp [attachInPlace, addGradient, h] <;> rfl

-- ---------------------------------------------------------------------------
-- Laws
-- ---------------------------------------------------------------------------

structure AddGradientLaws (block : Block) (parameter : String) (gradient : Block) : Prop where
  succeeds : (∃ result, block.addGradient parameter gradient = .ok result) ↔
    block.Compatible parameter gradient
  appends : ∀ result, block.addGradient parameter gradient = .ok result → result.Valid ∧
    result = { block with gradients := .ofList (block.gradients.toList ++ [(parameter, gradient)]) }
  fails : ∀ error, block.addGradient parameter gradient = .error error →
    ∃ fault : GradientFault, error = .gradient parameter fault ∧
      fault.Describes block parameter gradient
  inPlace : ∀ outcome after, (attachInPlace parameter gradient).run block = (outcome, after) →
    outcome = .ok () ∧ block.addGradient parameter gradient = .ok after ∨
      ∃ error, outcome = .error error ∧ block.addGradient parameter gradient = .error error ∧
        after = block

end Block

theorem addGradient_laws {block gradient : Block} {parameter : String} (hblock : block.Valid)
    (hgradient : gradient.Valid) : block.AddGradientLaws parameter gradient where
  succeeds := by
    rw [Block.compatible_iff hgradient]
    constructor
    · rintro ⟨result, hresult⟩
      obtain ⟨hreserved, hfresh, hfits, -⟩ := Block.addGradient_ok.mp hresult
      exact ⟨hreserved, hfresh, hfits⟩
    · rintro ⟨hreserved, hfresh, hfits⟩
      exact ⟨_, Block.addGradient_ok.mpr ⟨hreserved, hfresh, hfits, rfl⟩⟩
  appends result hresult := by
    refine ⟨Block.addGradient_valid hblock hgradient hresult, ?_⟩
    obtain ⟨-, -, -, rfl⟩ := Block.addGradient_ok.mp hresult
    rw [← Gradients.toList_push, Gradients.ofList_toList]
  fails error herror := by
    rcases bind_error.mp herror with hcheck | ⟨_, -, hpure⟩
    · exact Block.checkGradient_error hgradient hcheck
    · cases hpure
  inPlace outcome after hrun := by
    rw [Block.run_attachInPlace] at hrun
    split at hrun
    next result hresult =>
      cases hrun
      exact .inl ⟨rfl, hresult⟩
    next error herror =>
      cases hrun
      exact .inr ⟨error, rfl, herror, rfl⟩

/-- A gradient that a block has already is accepted for another parameter only. -/
theorem addGradient_laws_nested :
    let block := nestedColumn [.one, .invalid]
    ∃ gradient, block.gradient "positions" = .ok gradient ∧ block.Valid ∧ gradient.Valid ∧
      (∀ parameter ∈ ["cell", "positions", "values"], block.AddGradientLaws parameter gradient) ∧
      block.Compatible "cell" gradient ∧ ¬block.Compatible "positions" gradient := by
  intro block
  have hblock : block.Valid := nestedTensor_valid.blocks _ List.mem_cons_self
  have hgradient : Block.Valid _ := (hblock.gradient List.mem_cons_self).2
  have hlaws (parameter : String) : block.AddGradientLaws parameter _ :=
    addGradient_laws hblock hgradient
  exact ⟨_, rfl, hblock, hgradient, fun parameter _ => hlaws parameter,
    (hlaws "cell").succeeds.mp ⟨_, rfl⟩, fun h => h.fresh List.mem_cons_self⟩

end BlockTensor
