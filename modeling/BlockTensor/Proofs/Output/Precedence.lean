import BlockTensor.Proofs.Output.Rules

/-!
# The violation that is reported

`layoutRules` lists the rules of a layout in the order in which they are
checked. `check_error` says for every input which violation is reported: that of
the smallest produced name with a fault or, if there is none, that of the
smallest requested name that is missing or breaks a rule of its layout, and then
the first rule that it breaks.
-/

namespace BlockTensor

namespace Output

-- ---------------------------------------------------------------------------
-- The rules of gradients
-- ---------------------------------------------------------------------------

def componentRules (output parameter : String) (names : List String) (components : List Labels)
    (position : Nat) : List Rule :=
  ((names.zip components).zipIdx position).map fun ((name, component), position) =>
    demand (component = counting name 3)
      (.components output (.gradientComponent parameter position name))

def gradientRules (output : String) : String × Block → List Rule
  | (parameter, gradient) =>
    demand (parameter = "strain" ∨ parameter = "positions") (.gradient output parameter) ::
      (gradientLayout? parameter).toList.flatMap fun layout =>
        demand (gradient.samples.names = layout.samples)
            (.samples output
              (.gradientNames parameter layout.samples gradient.samples.names)) ::
          demand (gradient.components.length = layout.components.length)
            (.components output (.gradientCount parameter layout.components.length)) ::
          componentRules output parameter layout.components gradient.components 0

theorem reports_components {output parameter : String} {names : List String}
    {components : List Labels} {position : Nat}
    (hnames : ∀ name ∈ names, Labels.isName name = true) :
    Reports (checkGradientComponents output parameter position names components)
      (componentRules output parameter names components position) := by
  induction names generalizing components position with
  | nil => exact .nil
  | cons name rest ih =>
    obtain ⟨hname, hrest⟩ := List.forall_mem_cons.mp hnames
    cases components with
    | nil => exact .nil
    | cons component others =>
      have hrange : Labels.range name 3 = .ok (counting name 3) := (range_three hname).mpr rfl
      rw [checkGradientComponents, hrange]
      exact .cons Iff.rfl fun _ => ih hrest

theorem gradientLayout?_eq_none_iff {parameter : String} :
    gradientLayout? parameter = none ↔ ¬(parameter = "strain" ∨ parameter = "positions") := by
  unfold gradientLayout?
  split
  · simp_all
  · split <;> simp_all

theorem reports_gradient {output : String} {item : String × Block} :
    Reports (checkGradient output item) (gradientRules output item) := by
  obtain ⟨parameter, gradient⟩ := item
  rw [checkGradient, gradientRules]
  cases hlayout : gradientLayout? parameter with
  | none =>
    have hunknown := gradientLayout?_eq_none_iff.mp hlayout
    intro violation
    simp [firstBroken_cons, firstBroken_nil, demand, hunknown]
  | some layout =>
    have hcomponents : Reports
        (checkGradientComponents output parameter 0 layout.components gradient.components)
        (componentRules output parameter layout.components gradient.components 0) :=
      reports_components (gradientLayout?_names hlayout)
    have hparameter : parameter = "strain" ∨ parameter = "positions" := by
      by_contra hunknown
      rw [gradientLayout?_eq_none_iff.mpr hunknown] at hlayout
      cases hlayout
    rw [Option.toList_some, List.flatMap_singleton]
    exact .kept hparameter (.cons Iff.rfl fun _ => .cons Iff.rfl fun _ => hcomponents)

-- ---------------------------------------------------------------------------
-- The rules of layouts
-- ---------------------------------------------------------------------------

/-- The rules of the block of a standard output. Metadata that cannot be made are
reported as such, for the samples by a rule of their own. -/
def blockRules (kind : Kind) (counts : List Nat) (perAtom : Bool) (selected : Option Labels)
    (block : Block) : List Rule :=
  let samples := expectedSamples counts perAtom selected
  let properties := Labels.range "energy" (members block kind)
  demand (block.samples.names = sampleNames perAtom)
      (.samples kind.name (.names (sampleNames perAtom) block.samples.names)) ::
    makes samples ::
    given samples (fun expected =>
      demand (∀ entry, entry ∈ block.samples.entries ↔ entry ∈ expected.entries)
        (.samples kind.name (.entries expected))) ::
    demand (block.components = []) (.components kind.name .notEmpty) ::
    either (makes properties) (given properties fun expected =>
      demand (block.properties = expected) (.properties kind.name (propertiesText kind))) ::
    block.gradients.toList.flatMap (gradientRules kind.name)

def layoutRules (kind : Kind) (counts : List Nat) (perAtom : Bool) (selected : Option Labels)
    (output : Tensor) : List Rule :=
  demand (output.keys = .single) (.keys kind.name) ::
    output.blocks.flatMap (blockRules kind counts perAtom selected)

theorem reports_layout {kind : Kind} {counts : List Nat} {request : Request}
    {selected : Option Labels} {output : Tensor} (houtput : output.Valid) :
    Reports (checkLayout kind counts request selected output)
      (layoutRules kind counts request.perAtom selected output) := by
  refine .cons Iff.rfl fun hkeys => ?_
  -- The other rules are about the one block that a single key has.
  obtain ⟨block, hblocks⟩ := blocks_of_single houtput hkeys
  have hvalid : block.Valid := houtput.blocks block (hblocks ▸ List.mem_cons_self)
  have hblock := ofMetadata_ok.mpr ((blockAt_zero houtput hkeys).mpr hblocks)
  simp only [hblock, hblocks, List.flatMap_singleton, blockRules]
  refine .cons Iff.rfl fun _ => .metadata fun expected hexpected => ?_
  have hentries := entries_ok hvalid.labelled.samples (expectedSamples_nodup hexpected)
    fun _ => Iff.rfl
  rw [given_ok hexpected]
  refine .cons hentries fun _ => .cons Iff.rfl fun _ => ?_
  rw [memberCount_eq hvalid]
  refine .merge ?_ ?_
  · refine .metadata fun properties hproperties => ?_
    rw [given_ok hproperties]
    exact .cons Iff.rfl fun _ => .flatMap fun _ _ => reports_gradient
  · rintro violation found ⟨error, herror, -⟩ ⟨properties, hproperties, -⟩
    cases herror.symm.trans hproperties

-- ---------------------------------------------------------------------------
-- All outputs
-- ---------------------------------------------------------------------------

inductive ProducedFault (requested : Named Request) (outputs : Named Tensor) (expected : DType) :
    String → Violation → Prop
  | unrequested {name : String} {output : Tensor} : outputs.find? name = some output →
      requested.find? name = none →
      ProducedFault requested outputs expected name (.unrequested name)
  | wrongDType {name : String} {output : Tensor} {request : Request} {first : Block}
      {rest : List Block} : outputs.find? name = some output →
      requested.find? name = some request → output.blocks = first :: rest →
      first.values.dtype ≠ expected → ProducedFault requested outputs expected name
        (.wrongDType name expected first.values.dtype)

inductive RequestedFault (counts : List Nat) (requested : Named Request)
    (selected : Option Labels) (outputs : Named Tensor) : String → Violation → Prop
  | missing {name : String} {request : Request} : requested.find? name = some request →
      outputs.find? name = none →
      RequestedFault counts requested selected outputs name (.missing name)
  | layout {kind : Kind} {request : Request} {output : Tensor} {violation : Violation} :
      kind.isStandard = true → requested.find? kind.name = some request →
      outputs.find? kind.name = some output →
      FirstBroken (layoutRules kind counts request.perAtom selected output) violation →
      RequestedFault counts requested selected outputs kind.name violation

section
variable {counts : List Nat} {requested : Named Request} {selected : Option Labels}
  {outputs : Named Tensor} {expected : DType}

theorem producedFault_iff {name : String} {violation : Violation} :
    ProducedFault requested outputs expected name violation ↔
      ∃ output, outputs.find? name = some output ∧
        checkProduced requested expected (name, output) = .error violation := by
  constructor
  · rintro (⟨houtput, hrequest⟩ | ⟨houtput, hrequest, hblocks, hdtype⟩)
    · refine ⟨_, houtput, ?_⟩
      simp [checkProduced, bind_error, ensure_error, Named.contains_iff, hrequest]
    · refine ⟨_, houtput, ?_⟩
      simp [checkProduced, bind_error, ensure_error, ensure_ok, Named.contains_iff, hrequest,
        hblocks, hdtype]
  · rintro ⟨output, houtput, herror⟩
    simp only [checkProduced, bind_error, ensure_error, ensure_ok, Named.contains_iff] at herror
    rcases herror with ⟨hrequest, rfl⟩ | ⟨_, ⟨request, hrequest⟩, hdtype⟩
    · refine .unrequested houtput ?_
      simpa [Option.eq_none_iff_forall_not_mem] using hrequest
    · cases hblocks : output.blocks with
      | nil =>
        rw [hblocks] at hdtype
        cases hdtype
      | cons first rest =>
        rw [hblocks] at hdtype
        obtain ⟨hne, rfl⟩ := ensure_error.mp hdtype
        exact .wrongDType houtput hrequest hblocks hne

theorem produced_ok_iff : outputs.items.forM (checkProduced requested expected) = .ok () ↔
    ∀ name found, ¬ProducedFault requested outputs expected name found := by
  constructor
  · intro hok name found hfault
    obtain ⟨output, houtput, herror⟩ := producedFault_iff.mp hfault
    have hitem := forM_ok.mp hok _ (Named.find?_eq_some_iff.mp houtput)
    cases hitem.symm.trans herror
  · intro hnone
    refine forM_ok.mpr fun (name, output) hmem => eq_ok_iff.mpr fun found herror => ?_
    exact hnone name found
      (producedFault_iff.mpr ⟨output, Named.find?_eq_some_iff.mpr hmem, herror⟩)

theorem requestedFault_iff
    (houtputs : ∀ name output, outputs.find? name = some output → output.Valid)
    {name : String} {violation : Violation} :
    RequestedFault counts requested selected outputs name violation ↔
      ∃ request, requested.find? name = some request ∧
        checkRequested counts selected outputs (name, request) = .error violation := by
  constructor
  · rintro (⟨hrequest, hmissing⟩ | ⟨hstandard, hrequest, houtput, hbroken⟩)
    · exact ⟨_, hrequest, by simp [checkRequested, hmissing]⟩
    · refine ⟨_, hrequest, ?_⟩
      have hlayout := (reports_layout (houtputs _ _ houtput) violation).mpr hbroken
      simpa [checkRequested, houtput, ofName_name hstandard, hstandard] using hlayout
  · rintro ⟨request, hrequest, herror⟩
    obtain ⟨kind, hkind⟩ : ∃ kind, Kind.ofName name = kind := ⟨_, rfl⟩
    obtain rfl : kind.name = name := by rw [← hkind, Kind.name_ofName]
    simp only [checkRequested, hkind] at herror
    cases houtput : outputs.find? kind.name with
    | none =>
      rw [houtput] at herror
      cases herror
      exact .missing hrequest houtput
    | some output =>
      simp only [houtput] at herror
      split at herror
      next hstandard =>
        exact .layout hstandard hrequest houtput
          ((reports_layout (houtputs _ _ houtput) violation).mp herror)
      next => cases herror

/-- Produced outputs go before requested ones, smaller names before larger ones,
and within a layout its rules in order. -/
theorem check_error (houtputs : ∀ name output, outputs.find? name = some output → output.Valid)
    {violation : Violation} :
    check counts requested selected outputs expected = .error violation ↔
      LeastFault (ProducedFault requested outputs expected) violation ∨
        (∀ name found, ¬ProducedFault requested outputs expected name found) ∧
          LeastFault (RequestedFault counts requested selected outputs) violation := by
  have hproduced : outputs.items.forM (checkProduced requested expected) = .error violation ↔
      LeastFault (ProducedFault requested outputs expected) violation :=
    sweep_error fun _ _ => producedFault_iff
  have hrequested :
      requested.items.forM (checkRequested counts selected outputs) = .error violation ↔
        LeastFault (RequestedFault counts requested selected outputs) violation :=
    sweep_error fun _ _ => requestedFault_iff houtputs
  rw [check, bind_error, hproduced, ← hrequested, ← produced_ok_iff]
  exact or_congr_right ⟨fun h => h.elim fun _ h => h, fun h => ⟨(), h⟩⟩

end

/-- An energy of one atom only, with a component, two properties and a gradient
of no known parameter. -/
def untidyEnergy : Tensor :=
  let gradient : Block := ⟨.float64 (.full [1, 1, 2] .one), ⟨⟨["sample"], [[0]]⟩⟩,
    [counting "xyz" 1], counting "energy" 2, .nil⟩
  ⟨.single, [⟨.float64 (.full [1, 1, 2] .one), ⟨⟨["system", "atom"], [[0, 0]]⟩⟩,
    [counting "xyz" 1], counting "energy" 2, .cons "velocities" gradient .nil⟩]⟩

def untidyOutputs : Named Tensor := Named.empty.insert "energy" untidyEnergy

def untidyRequests : Named Request :=
  (Named.empty.insert "energy_ensemble" {}).insert "energy" { perAtom := true }

theorem check_error_untidyEnergy :
    let violation : Violation :=
      .samples "energy" (.entries ⟨⟨["system", "atom"], [[0, 0], [1, 0], [1, 1]]⟩⟩)
    (∀ name output, untidyOutputs.find? name = some output → output.Valid) ∧
      check [1, 2] untidyRequests none untidyOutputs .float64 = .error violation ∧
      (LeastFault (ProducedFault untidyRequests untidyOutputs .float64) violation ∨
        (∀ name found, ¬ProducedFault untidyRequests untidyOutputs .float64 name found) ∧
          LeastFault (RequestedFault [1, 2] untidyRequests none untidyOutputs) violation) := by
  intro violation
  have houtputs : ∀ name output, untidyOutputs.find? name = some output → output.Valid :=
    Named.forall_find?_insert (Archive.valid_of_record rfl) nofun
  have hcheck : check [1, 2] untidyRequests none untidyOutputs .float64 = .error violation := by
    decide +kernel
  exact ⟨houtputs, hcheck, (check_error houtputs).mp hcheck⟩

end Output

end BlockTensor
