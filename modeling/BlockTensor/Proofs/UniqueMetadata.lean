import BlockTensor.Proofs.Built
import BlockTensor.Proofs.Projections
import BlockTensor.Proofs.SplitLaws

/-!
# How a look-up of unique metadata ends

The look-up goes through the blocks of a tensor, or through the gradients of all of them
with respect to one parameter: its targets. It needs the parameter in every block, then the
names on the axis of every target, then names that labels can have, and it reports the
first of these that fails (`UniqueOutcome`). When none does, the labels are the projections
of all entries of all targets, ascending and each once. So the result does not depend on
the order of the blocks, nor on the order of the entries in them
(`uniqueMetadata_of_reordered`).
-/

namespace BlockTensor

variable {axis : Axis} {names : List String} {parameter : Option String}

-- ---------------------------------------------------------------------------
-- Unique rows
-- ---------------------------------------------------------------------------

namespace Axis

variable {blocks : List Block}

/-- Blocks with one list of names on the axis lack the same name. -/
theorem uniqueRows_foreign {target : Block} {name : String} (hmem : target ∈ blocks)
    (hsame : ∀ block ∈ blocks, (axis.labels block).names = (axis.labels target).names)
    (hfind : names.find? (fun name => !(axis.labels target).names.contains name) = some name) :
    axis.uniqueRows names blocks =
      .error (.invalidArgument (.missingName name axis (axis.labels target).names)) := by
  have hfails : axis.checkHasNames names target = .error _ :=
    checkHasNames_error.mpr ⟨name, hfind, rfl⟩
  have hcheck : blocks.forM (axis.checkHasNames names) =
      .error (.invalidArgument (.missingName name axis (axis.labels target).names)) := by
    cases h : blocks.forM (axis.checkHasNames names) with
    | ok =>
      rw [forM_ok.mp h target hmem] at hfails
      cases hfails
    | error error =>
      obtain ⟨block, hblock, herror⟩ := exists_of_forM_error h
      obtain ⟨other, hother, rfl⟩ := checkHasNames_error.mp herror
      rw [hsame block hblock] at hother ⊢
      cases hfind.symm.trans hother
      rfl
  rw [uniqueRows, hcheck]
  rfl

/-- Names that labels can not have are refused, in a projection or, if there is no block, in
the result. -/
theorem uniqueRows_badNames {error : Error}
    (hnames : ∀ block ∈ blocks, names ⊆ (axis.labels block).names)
    (herror : Labels.checkNames names = .error error) :
    axis.uniqueRows names blocks = .error error := by
  have hcheck : blocks.forM (axis.checkHasNames names) = .ok () :=
    forM_ok.mpr fun block hmem => checkHasNames_ok.mpr (hnames block hmem)
  have hselect : ∀ block ∈ blocks, (axis.labels block).select names = .error error := by
    intro block hmem
    rw [Rows.select, Rows.columns_ok (hnames block hmem), herror]
    rfl
  rw [uniqueRows, hcheck]
  cases h : blocks.mapM fun block => (axis.labels block).select names with
  | ok projections =>
    simp only [Rows.ofFlat, herror]
    rfl
  | error other =>
    obtain ⟨block, hmem, hother⟩ := exists_of_mapM_error h
    cases hother.symm.trans (hselect block hmem)
    rfl

theorem mem_projections {entry : Entry} :
    entry ∈ axis.projections names blocks ↔
      ∃ block ∈ blocks, ∃ row ∈ (axis.labels block).entries,
        (axis.labels block).projection names row = entry := by
  simp [projections]

end Axis

-- ---------------------------------------------------------------------------
-- Targets
-- ---------------------------------------------------------------------------

def Block.target? (parameter : Option String) (block : Block) : Option Block :=
  match parameter with
  | none => some block
  | some parameter => block.gradients.find? parameter

theorem targets_ok {blocks found : List Block} : targets parameter blocks = .ok found ↔
    List.Forall₂ (fun block target => block.target? parameter = some target) blocks found := by
  cases parameter with
  | none => simp [targets, Block.target?, List.forall₂_eq_eq_eq]
  | some parameter => simp only [targets, mapM_ok, Block.gradient_ok, Block.target?]

theorem targets_error {blocks : List Block} {error : Error}
    (h : targets parameter blocks = .error error) :
    ∃ key, parameter = some key ∧ error = .noSuchGradient key := by
  cases parameter with
  | none => cases h
  | some key =>
    obtain ⟨block, -, herror⟩ := exists_of_mapM_error h
    unfold Block.gradient at herror
    split at herror
    · cases herror
    · cases herror
      exact ⟨key, rfl, rfl⟩

theorem Block.Valid.target {block target : Block} (h : block.Valid)
    (htarget : block.target? parameter = some target) : target.Valid := by
  cases parameter with
  | none =>
    cases htarget
    exact h
  | some key => exact (h.gradient (Gradients.mem_of_find? htarget)).2

/-- Gradients have the properties of their blocks, so targets agree on names as blocks do. -/
theorem Block.Agree.names_target {left right a b : Block} (h : left.Agree right)
    (hleft : left.Valid) (hright : right.Valid) (ha : left.target? parameter = some a)
    (hb : right.target? parameter = some b) : (axis.labels a).names = (axis.labels b).names := by
  cases parameter with
  | none =>
    cases ha
    cases hb
    exact h.names_labels
  | some key =>
    cases axis with
    | samples => exact h.gradients.sampleNames key a b ha hb
    | properties =>
      have hfits : left.Fits a := (hleft.gradient (Gradients.mem_of_find? ha)).1
      have hfits' : right.Fits b := (hright.gradient (Gradients.mem_of_find? hb)).1
      simp only [Axis.labels, hfits.properties, hfits'.properties, h.propertyNames]

namespace Tensor

def targets (parameter : Option String) (tensor : Tensor) : List Block :=
  tensor.blocks.filterMap (Block.target? parameter)

def LacksGradient (parameter : Option String) (tensor : Tensor) : Prop :=
  ∃ key, parameter = some key ∧ ∃ block ∈ tensor.blocks, key ∉ block.gradients.parameters

def HasNames (axis : Axis) (names : List String) (parameter : Option String)
    (tensor : Tensor) : Prop :=
  ∀ target ∈ tensor.targets parameter, names ⊆ (axis.labels target).names

section
variable {tensor : Tensor}

theorem mem_targets {target : Block} : target ∈ tensor.targets parameter ↔
    ∃ block ∈ tensor.blocks, block.target? parameter = some target :=
  List.mem_filterMap

theorem lacksGradient_iff : tensor.LacksGradient parameter ↔
    ∃ block ∈ tensor.blocks, block.target? parameter = none := by
  cases parameter with
  | none => simp [LacksGradient, Block.target?]
  | some key =>
    simp [LacksGradient, Block.target?, Gradients.mem_parameters_iff,
      Option.eq_none_iff_forall_ne_some]

theorem exists_target (h : ¬tensor.LacksGradient parameter) {block : Block}
    (hmem : block ∈ tensor.blocks) : ∃ target, block.target? parameter = some target := by
  refine Option.ne_none_iff_exists'.mp fun hnone => h ?_
  exact lacksGradient_iff.mpr ⟨block, hmem, hnone⟩

theorem Valid.target (h : tensor.Valid) {target : Block}
    (hmem : target ∈ tensor.targets parameter) : target.Valid := by
  obtain ⟨block, hblock, htarget⟩ := mem_targets.mp hmem
  exact (h.blocks block hblock).target htarget

theorem Valid.names_targets (h : tensor.Valid) {a b : Block} (ha : a ∈ tensor.targets parameter)
    (hb : b ∈ tensor.targets parameter) : (axis.labels a).names = (axis.labels b).names := by
  obtain ⟨left, hleft, ha⟩ := mem_targets.mp ha
  obtain ⟨right, hright, hb⟩ := mem_targets.mp hb
  exact (h.agree left hleft right hright).names_target (h.blocks left hleft)
    (h.blocks right hright) ha hb

-- ---------------------------------------------------------------------------
-- Outcomes
-- ---------------------------------------------------------------------------

theorem uniqueMetadata_lacking {key : String}
    (h : ∃ block ∈ tensor.blocks, key ∉ block.gradients.parameters) :
    tensor.uniqueMetadata axis names (some key) = .error (.noSuchGradient key) := by
  rw [uniqueMetadata]
  cases htargets : BlockTensor.targets (some key) tensor.blocks with
  | ok found =>
    obtain ⟨block, hmem, hkey⟩ := h
    obtain ⟨target, -, htarget⟩ := exists_of_forall₂ (targets_ok.mp htargets).flip hmem
    exact absurd (Gradients.mem_parameters_iff.mpr ⟨target, htarget⟩) hkey
  | error error =>
    obtain ⟨_, hkey, rfl⟩ := targets_error htargets
    cases hkey
    rfl

theorem uniqueMetadata_of_targets (h : ¬tensor.LacksGradient parameter) :
    tensor.uniqueMetadata axis names parameter =
      axis.uniqueRows names (tensor.targets parameter) := by
  obtain ⟨found, hfound⟩ := exists_forall₂ fun block hmem => exists_target h hmem
  rw [uniqueMetadata, targets_ok.mpr hfound, targets, filterMap_of_forall₂ hfound]
  rfl

theorem uniqueMetadata_foreign (h : tensor.Valid) (hlacks : ¬tensor.LacksGradient parameter)
    {target : Block} (hmem : target ∈ tensor.targets parameter)
    (hforeign : ¬names ⊆ (axis.labels target).names) :
    ∃ name, names.find? (fun name => !(axis.labels target).names.contains name) = some name ∧
      tensor.uniqueMetadata axis names parameter =
        .error (.invalidArgument (.missingName name axis (axis.labels target).names)) := by
  obtain ⟨name, hfind⟩ := Option.ne_none_iff_exists'.mp (mt find?_foreign.mp hforeign)
  refine ⟨name, hfind, ?_⟩
  rw [uniqueMetadata_of_targets hlacks]
  exact Axis.uniqueRows_foreign hmem (fun block hblock => h.names_targets hblock hmem) hfind

inductive UniqueOutcome (axis : Axis) (names : List String) (parameter : Option String)
    (tensor : Tensor) : Except Error Labels → Prop
  | lacking {key : String} : parameter = some key →
      (∃ block ∈ tensor.blocks, key ∉ block.gradients.parameters) →
      UniqueOutcome axis names parameter tensor (.error (.noSuchGradient key))
  | foreign {target : Block} {name : String} : ¬tensor.LacksGradient parameter →
      target ∈ tensor.targets parameter →
      names.find? (fun name => !(axis.labels target).names.contains name) = some name →
      UniqueOutcome axis names parameter tensor
        (.error (.invalidArgument (.missingName name axis (axis.labels target).names)))
  | badNames {fault : LabelsFault} : ¬tensor.LacksGradient parameter →
      tensor.HasNames axis names parameter →
      Labels.checkNames names = .error (.invalidLabels fault) →
      UniqueOutcome axis names parameter tensor (.error (.invalidLabels fault))
  | found : ¬tensor.LacksGradient parameter → tensor.HasNames axis names parameter →
      Labels.ValidNames names →
      UniqueOutcome axis names parameter tensor
        (.ok (Rows.unique ⟨names, axis.projections names (tensor.targets parameter)⟩))

theorem uniqueMetadata_outcome (h : tensor.Valid) (axis : Axis) (names : List String)
    (parameter : Option String) : UniqueOutcome axis names parameter tensor
      (tensor.uniqueMetadata axis names parameter) := by
  by_cases hlacks : tensor.LacksGradient parameter
  · obtain ⟨key, rfl, hblock⟩ := hlacks
    rw [uniqueMetadata_lacking hblock]
    exact .lacking rfl hblock
  by_cases hnames : tensor.HasNames axis names parameter
  · rw [uniqueMetadata_of_targets hlacks]
    by_cases hvalid : Labels.ValidNames names
    · rw [Axis.uniqueRows_ok hvalid hnames]
      exact .found hlacks hnames hvalid
    · obtain ⟨fault, hfault⟩ := Labels.exists_checkNames_error hvalid
      rw [Axis.uniqueRows_badNames hnames hfault]
      exact .badNames hlacks hnames hfault
  · obtain ⟨target, hmem, hforeign⟩ : ∃ target ∈ tensor.targets parameter,
        ¬names ⊆ (axis.labels target).names := by
      simpa [HasNames] using hnames
    obtain ⟨name, hfind, hresult⟩ := uniqueMetadata_foreign h hlacks hmem hforeign
    rw [hresult]
    exact .foreign hlacks hmem hfind

end

-- ---------------------------------------------------------------------------
-- Order
-- ---------------------------------------------------------------------------

end Tensor

structure Labels.Reordered (old new : Labels) : Prop where
  names : new.names = old.names
  entries : new.entries.Perm old.entries

namespace Tensor

/-- The blocks in some order, and in every target the entries of the axis in some order. -/
def Reordered (axis : Axis) (parameter : Option String) (old new : Tensor) : Prop :=
  ∃ blocks, List.Forall₂ (fun a b => Option.Rel
      (fun x y => (axis.labels x).Reordered (axis.labels y))
      (a.target? parameter) (b.target? parameter)) old.blocks blocks ∧
    new.blocks.Perm blocks

section
variable {old new : Tensor} (h : old.Reordered axis parameter new)
include h

theorem Reordered.exists_new {a : Block} (ha : a ∈ old.targets parameter) :
    ∃ b ∈ new.targets parameter, (axis.labels a).Reordered (axis.labels b) := by
  obtain ⟨block, hblock, htarget⟩ := mem_targets.mp ha
  obtain ⟨blocks, hblocks, horder⟩ := h
  obtain ⟨block', hblock', hrel⟩ := exists_of_forall₂ hblocks.flip hblock
  rw [htarget] at hrel
  generalize hb : block'.target? parameter = target at hrel
  cases hrel with
  | some hab => exact ⟨_, mem_targets.mpr ⟨block', horder.mem_iff.mpr hblock', hb⟩, hab⟩

theorem Reordered.exists_old {b : Block} (hb : b ∈ new.targets parameter) :
    ∃ a ∈ old.targets parameter, (axis.labels a).Reordered (axis.labels b) := by
  obtain ⟨block', hblock', htarget⟩ := mem_targets.mp hb
  obtain ⟨blocks, hblocks, horder⟩ := h
  obtain ⟨block, hblock, hrel⟩ := exists_of_forall₂ hblocks (horder.mem_iff.mp hblock')
  rw [htarget] at hrel
  generalize ha : block.target? parameter = target at hrel
  cases hrel with
  | some hab => exact ⟨_, mem_targets.mpr ⟨block, hblock, ha⟩, hab⟩

theorem Reordered.lacksGradient_iff :
    new.LacksGradient parameter ↔ old.LacksGradient parameter := by
  obtain ⟨blocks, hblocks, horder⟩ := h
  simp only [Tensor.lacksGradient_iff, horder.mem_iff]
  constructor
  · rintro ⟨b, hb, hnone⟩
    obtain ⟨a, ha, hrel⟩ := exists_of_forall₂ hblocks hb
    rw [hnone] at hrel
    generalize hnone' : a.target? parameter = target at hrel
    cases hrel with
    | none => exact ⟨a, ha, hnone'⟩
  · rintro ⟨a, ha, hnone⟩
    obtain ⟨b, hb, hrel⟩ := exists_of_forall₂ hblocks.flip ha
    rw [hnone] at hrel
    generalize hnone' : b.target? parameter = target at hrel
    cases hrel with
    | none => exact ⟨b, hb, hnone'⟩

theorem Reordered.hasNames_iff :
    new.HasNames axis names parameter ↔ old.HasNames axis names parameter := by
  constructor
  · intro hnames a ha
    obtain ⟨b, hb, hab⟩ := h.exists_new ha
    exact hab.names ▸ hnames b hb
  · intro hnames b hb
    obtain ⟨a, ha, hab⟩ := h.exists_old hb
    exact hab.names ▸ hnames a ha

theorem Reordered.mem_projections_iff {entry : Entry} :
    entry ∈ axis.projections names (new.targets parameter) ↔
      entry ∈ axis.projections names (old.targets parameter) := by
  simp only [Axis.mem_projections]
  constructor
  · rintro ⟨b, hb, row, hrow, rfl⟩
    obtain ⟨a, ha, hab⟩ := h.exists_old hb
    exact ⟨a, ha, row, hab.entries.mem_iff.mp hrow, by simp only [Rows.projection, hab.names]⟩
  · rintro ⟨a, ha, row, hrow, rfl⟩
    obtain ⟨b, hb, hab⟩ := h.exists_new ha
    exact ⟨b, hb, row, hab.entries.mem_iff.mpr hrow, by simp only [Rows.projection, hab.names]⟩

theorem uniqueMetadata_of_reordered (hold : old.Valid) : new.uniqueMetadata axis names parameter =
    old.uniqueMetadata axis names parameter := by
  have houtcome := uniqueMetadata_outcome hold axis names parameter
  generalize old.uniqueMetadata axis names parameter = result at houtcome ⊢
  cases houtcome with
  | @lacking key hparameter hblock =>
    obtain ⟨key', hkey', hblock'⟩ := h.lacksGradient_iff.mpr ⟨key, hparameter, hblock⟩
    cases hparameter.symm.trans hkey'
    rw [hparameter, uniqueMetadata_lacking hblock']
  | @foreign target name hlacks htarget hfind =>
    obtain ⟨b, hb, hab⟩ := h.exists_new htarget
    rw [uniqueMetadata_of_targets (mt h.lacksGradient_iff.mp hlacks), ← hab.names]
    refine Axis.uniqueRows_foreign hb (fun b' hb' => ?_) (hab.names ▸ hfind)
    -- The names of any new target are those of an old one.
    obtain ⟨a', ha', hab'⟩ := h.exists_old hb'
    rw [hab'.names, hab.names, hold.names_targets ha' htarget]
  | badNames hlacks hnames hfault =>
    rw [uniqueMetadata_of_targets (mt h.lacksGradient_iff.mp hlacks)]
    exact Axis.uniqueRows_badNames (h.hasNames_iff.mpr hnames) hfault
  | found hlacks hnames hvalid =>
    rw [uniqueMetadata_of_targets (mt h.lacksGradient_iff.mp hlacks),
      Axis.uniqueRows_ok hvalid (h.hasNames_iff.mpr hnames)]
    exact congrArg Except.ok (Rows.unique_congr rfl fun _ => h.mem_projections_iff)

end

-- ---------------------------------------------------------------------------
-- Laws
-- ---------------------------------------------------------------------------

/-- Names that are missing, repeated or, where no block has them, not well formed. -/
def BadNames (names : List String) (tensor : Tensor) : Prop :=
  names = [] ∨ ¬names.Nodup ∨
    tensor.blocks = [] ∧ ∃ name ∈ names, Labels.isName name = false

theorem badNames_iff {tensor : Tensor} (h : tensor.Valid)
    (hlacks : ¬tensor.LacksGradient parameter) (hnames : tensor.HasNames axis names parameter) :
    tensor.BadNames names ↔ ¬Labels.ValidNames names := by
  constructor
  · rintro (hempty | hrepeated | ⟨-, name, hmem, hname⟩) hvalid
    · exact hvalid.nonempty hempty
    · exact hrepeated hvalid.distinct
    · rw [hvalid.wellFormed name hmem] at hname
      cases hname
  · intro hvalid
    by_contra hgood
    obtain ⟨hne, hdistinct, hwellFormed⟩ : names ≠ [] ∧ names.Nodup ∧
        (tensor.blocks = [] → ∀ name ∈ names, Labels.isName name = true) := by
      simpa [BadNames] using hgood
    refine hvalid ⟨hne, fun name hmem => ?_, hdistinct⟩
    cases hblocks : tensor.blocks with
    | nil => exact hwellFormed hblocks name hmem
    | cons block rest =>
      -- The names of a target are well formed, and these are among them.
      obtain ⟨target, htarget⟩ :=
        exists_target hlacks (hblocks.symm ▸ List.mem_cons_self : block ∈ tensor.blocks)
      have hmem' : target ∈ tensor.targets parameter :=
        mem_targets.mpr ⟨block, hblocks.symm ▸ List.mem_cons_self, htarget⟩
      have htargetNames := (axis.labels_valid (h.target hmem')).rows.names
      exact htargetNames.wellFormed name (hnames target hmem' hmem)

structure UniqueLaws (axis : Axis) (names : List String) (parameter : Option String)
    (tensor : Tensor) : Prop where
  lacking : ∀ key, tensor.uniqueMetadata axis names parameter = .error (.noSuchGradient key) ↔
    parameter = some key ∧ ∃ block ∈ tensor.blocks, key ∉ block.gradients.parameters
  foreign :
    (∃ fault, tensor.uniqueMetadata axis names parameter = .error (.invalidArgument fault)) ↔
    ¬tensor.LacksGradient parameter ∧
      ∃ target ∈ tensor.targets parameter, ∃ name ∈ names, name ∉ (axis.labels target).names
  /-- The first name that is missing is reported, with the names that there are. -/
  reports : ∀ fault, tensor.uniqueMetadata axis names parameter = .error (.invalidArgument fault) →
    ∃ target ∈ tensor.targets parameter, ∃ name,
      names.find? (fun name => !(axis.labels target).names.contains name) = some name ∧
        fault = .missingName name axis (axis.labels target).names
  badNames : (∃ fault, tensor.uniqueMetadata axis names parameter = .error (.invalidLabels fault)) ↔
    ¬tensor.LacksGradient parameter ∧ tensor.HasNames axis names parameter ∧ tensor.BadNames names
  succeeds : (∃ labels, tensor.uniqueMetadata axis names parameter = .ok labels) ↔
    ¬tensor.LacksGradient parameter ∧ tensor.HasNames axis names parameter ∧ ¬tensor.BadNames names
  exact : ∀ labels, tensor.uniqueMetadata axis names parameter = .ok labels →
    labels.names = names ∧ labels.entries.Pairwise (fun a b => a < b) ∧
      ∀ entry, entry ∈ labels.entries ↔ ∃ target ∈ tensor.targets parameter,
        ∃ row ∈ (axis.labels target).entries, (axis.labels target).projection names row = entry
  reordered : ∀ other, tensor.Reordered axis parameter other →
    other.uniqueMetadata axis names parameter = tensor.uniqueMetadata axis names parameter

section
variable {tensor : Tensor} (h : tensor.Valid)
include h

theorem uniqueLaws : tensor.UniqueLaws axis names parameter := by
  have houtcome := uniqueMetadata_outcome h axis names parameter
  constructor
  case lacking =>
    refine fun key => ⟨fun hresult => ?_, ?_⟩
    · rw [hresult] at houtcome
      cases houtcome with
      | lacking hparameter hblock => exact ⟨hparameter, hblock⟩
    · rintro ⟨rfl, hblock⟩
      exact uniqueMetadata_lacking hblock
  case foreign =>
    constructor
    · rintro ⟨fault, hresult⟩
      rw [hresult] at houtcome
      cases houtcome with
      | foreign hlacks htarget hfind =>
        exact ⟨hlacks, _, htarget, _, List.mem_of_find?_eq_some hfind,
          by simpa using List.find?_some hfind⟩
    · rintro ⟨hlacks, target, hmem, name, hname, hforeign⟩
      obtain ⟨_, -, hresult⟩ :=
        uniqueMetadata_foreign h hlacks hmem fun hsub => hforeign (hsub hname)
      exact ⟨_, hresult⟩
  case reports =>
    intro fault hresult
    rw [hresult] at houtcome
    cases houtcome with
    | foreign _ htarget hfind => exact ⟨_, htarget, _, hfind, rfl⟩
  case badNames =>
    constructor
    · rintro ⟨fault, hresult⟩
      rw [hresult] at houtcome
      cases houtcome with
      | badNames hlacks hnames hfault =>
        refine ⟨hlacks, hnames, (badNames_iff h hlacks hnames).mpr fun hvalid => ?_⟩
        have hok : Labels.checkNames names = .ok () := Labels.checkNames_ok.mpr hvalid
        cases hok.symm.trans hfault
    · rintro ⟨hlacks, hnames, hbad⟩
      obtain ⟨fault, hfault⟩ :=
        Labels.exists_checkNames_error ((badNames_iff h hlacks hnames).mp hbad)
      refine ⟨fault, ?_⟩
      rw [uniqueMetadata_of_targets hlacks, Axis.uniqueRows_badNames hnames hfault]
  case succeeds =>
    constructor
    · rintro ⟨labels, hresult⟩
      rw [hresult] at houtcome
      cases houtcome with
      | found hlacks hnames hvalid =>
        exact ⟨hlacks, hnames, fun hbad => (badNames_iff h hlacks hnames).mp hbad hvalid⟩
    · rintro ⟨hlacks, hnames, hgood⟩
      have hvalid : Labels.ValidNames names :=
        not_not.mp (mt (badNames_iff h hlacks hnames).mpr hgood)
      exact ⟨_, (uniqueMetadata_of_targets hlacks).trans (Axis.uniqueRows_ok hvalid hnames)⟩
  case exact =>
    intro labels hresult
    rw [hresult] at houtcome
    cases houtcome with
    | found =>
      refine ⟨rfl, Rows.pairwise_unique _, fun entry => ?_⟩
      rw [Rows.mem_unique, Axis.mem_projections]
  case reordered => exact fun other hreordered => uniqueMetadata_of_reordered hreordered h

end

end Tensor

/-- The laws for every tensor; a look-up in one block is a look-up in a tensor of this block. -/
theorem unique_metadata_laws :
    (∀ tensor : Tensor, tensor.Valid → ∀ axis names parameter,
      tensor.UniqueLaws axis names parameter) ∧
    ∀ block : Block, block.Valid → ∃ tensor : Tensor, tensor.Valid ∧ tensor.blocks = [block] ∧
      ∀ axis names parameter, block.uniqueMetadata axis names parameter =
        tensor.uniqueMetadata axis names parameter := by
  refine ⟨fun tensor h axis names parameter => Tensor.uniqueLaws h, fun block h => ?_⟩
  refine ⟨⟨.single, [block]⟩, ?_, rfl, fun axis names parameter => rfl⟩
  exact ⟨Labels.single_valid, rfl, by simpa using h, by simpa using .refl block⟩

def sharedAtoms : Tensor :=
  let first : Labels := ⟨["system", "atom"], [[1, 0], [0, 0]]⟩
  let second : Labels := ⟨["system", "atom"], [[0, 2], [1, 0]]⟩
  ⟨⟨["key"], [[0], [1]]⟩, [column first [.one, .zero] .nil, column second [.zero, .one] .nil]⟩

theorem unique_metadata_sharedAtoms : sharedAtoms.Valid ∧
    sharedAtoms.UniqueLaws .samples ["atom", "system"] none ∧
    sharedAtoms.uniqueMetadata .samples ["atom", "system"] none =
      .ok ⟨["atom", "system"], [[0, 0], [0, 1], [2, 0]]⟩ ∧
    (nestedColumn []).Valid ∧ ∃ tensor : Tensor, tensor.Valid ∧ tensor.blocks = [nestedColumn []] ∧
      (nestedColumn []).uniqueMetadata .samples ["sample"] (some "positions") =
        tensor.uniqueMetadata .samples ["sample"] (some "positions") := by
  have htensor : sharedAtoms.Valid := Archive.valid_of_record rfl
  have hblock : (nestedColumn []).Valid :=
    nestedTensor_valid.blocks _ (List.mem_cons_of_mem _ List.mem_cons_self)
  obtain ⟨tensor, hvalid, hblocks, hlookup⟩ := unique_metadata_laws.2 _ hblock
  exact ⟨htensor, unique_metadata_laws.1 _ htensor _ _ _, rfl, hblock, tensor, hvalid, hblocks,
    hlookup _ _ _⟩

end BlockTensor
