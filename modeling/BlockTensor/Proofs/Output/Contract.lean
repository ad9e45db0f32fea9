import BlockTensor.Proofs.Archive.Records
import BlockTensor.Proofs.Array.Select
import BlockTensor.Proofs.Output.ExpectedSamples

/-!
# The check decides the contract

`Contract` says what outputs have to be like, without an order of checks and
without counting samples. `check_ok` follows the check function by function.
Samples are compared one way and then counted; both sides are free of repeats,
so that is an equality of sets.

Properties are compared with labels that count, and these are made only for a
count that is a label value itself. An ensemble of `2 ^ 31` members is refused
for its number, although every property it needs is a label value
(`membersFit_of_check`).
-/

namespace BlockTensor

-- ---------------------------------------------------------------------------
-- Values by name
-- ---------------------------------------------------------------------------

theorem lookup_eq_some_iff {α : Type} {items : List (String × α)} (h : Ascending items)
    {name : String} {value : α} : items.lookup name = some value ↔ (name, value) ∈ items := by
  induction items with
  | nil => simp
  | cons head rest ih =>
    obtain ⟨other, old⟩ := head
    obtain ⟨hhead, hrest⟩ := List.pairwise_cons.mp h
    rw [lookup_cons_eq, List.mem_cons, ← ih hrest]
    split
    next heq =>
      -- Names ascend strictly, so the name does not come again.
      have hnew : rest.lookup name ≠ some value := by
        intro hlookup
        have hlt := hhead _ ((ih hrest).mp hlookup)
        exact String.lt_irrefl _ (heq ▸ hlt)
      subst heq
      simp [hnew, eq_comm]
    next hne => simp [hne]

namespace Named

variable {α : Type} {map : Named α}

theorem find?_eq_some_iff {name : String} {value : α} :
    map.find? name = some value ↔ (name, value) ∈ map.items :=
  lookup_eq_some_iff map.ascending

theorem forall_find?_insert {P : α → Prop} {name : String} {value : α} (hvalue : P value)
    (hmap : ∀ key old, map.find? key = some old → P old) :
    ∀ key found, (map.insert name value).find? key = some found → P found := by
  intro key found hfound
  rw [find?_insert] at hfound
  split at hfound
  · exact Option.some.inj hfound ▸ hvalue
  · exact hmap key found hfound

theorem contains_iff {name : String} :
    map.contains name = true ↔ ∃ value, map.find? name = some value :=
  Option.isSome_iff_exists

end Named

namespace Output

theorem ofMetadata_ok {α : Type} {result : Except Error α} {a : α} :
    ofMetadata result = .ok a ↔ result = .ok a := mapError_ok

-- ---------------------------------------------------------------------------
-- The contract
-- ---------------------------------------------------------------------------

/-- One column that counts from 0 to `n - 1`. -/
def counting (name : String) (n : Nat) : Labels :=
  ⟨⟨[name], (List.range n).map fun i => [Int32.ofNat i]⟩⟩

inductive GradientFollows : String × Block → Prop
  | strain {gradient : Block} : gradient.samples.names = ["sample"] →
      gradient.components = [counting "xyz_1" 3, counting "xyz_2" 3] →
      GradientFollows ("strain", gradient)
  | positions {gradient : Block} : gradient.samples.names = ["sample", "system", "atom"] →
      gradient.components = [counting "xyz" 3] → GradientFollows ("positions", gradient)

def members (block : Block) : Kind → Nat
  | .energyEnsemble => block.properties.length
  | _ => 1

structure BlockFollows (kind : Kind) (counts : List Nat) (perAtom : Bool)
    (selected : Option Labels) (block : Block) : Prop where
  sampleNames : block.samples.names = if perAtom then ["system", "atom"] else ["system"]
  samples : ∀ entry, entry ∈ block.samples.entries ↔ IsExpected counts selected perAtom entry
  components : block.components = []
  properties : block.properties = counting "energy" (members block kind)
  gradients : ∀ item ∈ block.gradients.toList, GradientFollows item

structure Contract (counts : List Nat) (requested : Named Request) (selected : Option Labels)
    (outputs : Named Tensor) (expected : DType) : Prop where
  names : ∀ name, outputs.contains name = true ↔ requested.contains name = true
  dtype : ∀ name output block rest, outputs.find? name = some output →
    output.blocks = block :: rest → block.values.dtype = expected
  standard : ∀ kind : Kind, kind.isStandard = true → ∀ request output,
    requested.find? kind.name = some request → outputs.find? kind.name = some output →
    output.keys = .single ∧ ∃ block, output.blocks = [block] ∧
      BlockFollows kind counts request.perAtom selected block

/-- The members of an ensemble are counted by a label value. -/
def MembersFit (outputs : Named Tensor) : Prop :=
  ∀ output, outputs.find? Kind.energyEnsemble.name = some output →
    ∀ block ∈ output.blocks, block.properties.length < 0x80000000

-- ---------------------------------------------------------------------------
-- Gradients
-- ---------------------------------------------------------------------------

theorem range_three {name : String} (h : Labels.isName name = true) {labels : Labels} :
    Labels.range name 3 = .ok labels ↔ labels = counting name 3 := by
  simp [Labels.range_ok, h, counting]

theorem checkGradientComponents_ok {output parameter : String} {position : Nat}
    {names : List String} {components : List Labels} {u : Unit}
    (hnames : ∀ name ∈ names, Labels.isName name = true)
    (hlength : components.length = names.length) :
    checkGradientComponents output parameter position names components = .ok u ↔
      components = names.map fun name => counting name 3 := by
  induction names generalizing position components with
  | nil => simp [checkGradientComponents, List.length_eq_zero_iff.mp hlength]
  | cons name rest ih =>
    cases components with
    | nil => simp at hlength
    | cons component others =>
      obtain ⟨hname, hrest⟩ := List.forall_mem_cons.mp hnames
      simp only [checkGradientComponents, bind_ok, ensure_ok, ofMetadata_ok, range_three hname,
        ih hrest (by simpa using hlength), List.map_cons, List.cons.injEq]
      constructor
      · rintro ⟨_, rfl, _, hcomponent, hothers⟩
        exact ⟨hcomponent, hothers⟩
      · rintro ⟨hcomponent, hothers⟩
        exact ⟨_, rfl, (), hcomponent, hothers⟩

theorem gradientLayout?_names {parameter : String} {layout : GradientLayout}
    (h : gradientLayout? parameter = some layout) :
    ∀ name ∈ layout.components, Labels.isName name = true := by
  unfold gradientLayout? at h
  split at h
  · cases h
    decide
  · split at h
    · cases h
      decide
    · cases h

theorem gradientFollows_iff {parameter : String} {gradient : Block} :
    GradientFollows (parameter, gradient) ↔ ∃ layout, gradientLayout? parameter = some layout ∧
      gradient.samples.names = layout.samples ∧
      gradient.components = layout.components.map fun name => counting name 3 := by
  constructor
  · rintro (⟨hnames, hcomponents⟩ | ⟨hnames, hcomponents⟩)
    · exact ⟨_, rfl, hnames, hcomponents⟩
    · exact ⟨_, rfl, hnames, hcomponents⟩
  · rintro ⟨layout, hlayout, hnames, hcomponents⟩
    unfold gradientLayout? at hlayout
    split at hlayout
    next heq =>
      cases hlayout
      exact heq ▸ .strain hnames hcomponents
    next =>
      split at hlayout
      next heq =>
        cases hlayout
        exact heq ▸ .positions hnames hcomponents
      next => cases hlayout

theorem checkGradient_ok {output : String} {item : String × Block} {u : Unit} :
    checkGradient output item = .ok u ↔ GradientFollows item := by
  obtain ⟨parameter, gradient⟩ := item
  rw [gradientFollows_iff, checkGradient]
  cases hlayout : gradientLayout? parameter with
  | none => simp
  | some layout =>
    have hisName := gradientLayout?_names hlayout
    simp only [bind_ok, ensure_ok, Option.some.injEq, exists_eq_left']
    constructor
    · rintro ⟨_, hnames, _, hlength, hcomponents⟩
      exact ⟨hnames, (checkGradientComponents_ok hisName hlength).mp hcomponents⟩
    · rintro ⟨hnames, hcomponents⟩
      have hlength : gradient.components.length = layout.components.length := by
        rw [hcomponents, List.length_map]
      exact ⟨(), hnames, (), hlength,
        (checkGradientComponents_ok hisName hlength).mpr hcomponents⟩

-- ---------------------------------------------------------------------------
-- Standard outputs
-- ---------------------------------------------------------------------------

/-- Samples that are all expected, and as many, are exactly the expected ones. -/
theorem samples_ok {samples expected : List Entry} (hsamples : samples.Nodup)
    (hexpected : expected.Nodup) :
    (∀ entry ∈ samples, entry ∈ expected) ∧ samples.length = expected.length ↔
      ∀ entry, entry ∈ samples ↔ entry ∈ expected := by
  constructor
  · rintro ⟨hsubset, hlength⟩ entry
    have hall := subset_of_nodup_of_length_le hsamples hsubset (Nat.le_of_eq hlength.symm)
    exact ⟨fun hmem => hsubset entry hmem, fun hmem => hall hmem⟩
  · intro hmem
    refine ⟨fun entry => (hmem entry).mp, Nat.le_antisymm ?_ ?_⟩
    · exact (List.subperm_of_subset hsamples fun entry => (hmem entry).mp).length_le
    · exact (List.subperm_of_subset hexpected fun entry => (hmem entry).mpr).length_le

/-- The last axis of a valid block has one entry for each property. -/
theorem memberCount_eq {block : Block} (h : block.Valid) (kind : Kind) :
    memberCount kind block = members block kind := by
  cases kind with
  | energyEnsemble =>
    rw [memberCount, members, h.labelled.axes.shape]
    exact Block.getLastD_append_singleton ..
  | energy => rfl
  | custom name => rfl

theorem range_energy {n : Nat} {labels : Labels} : Labels.range "energy" n = .ok labels ↔
    n < 0x80000000 ∧ labels = counting "energy" n := by
  have hname : Labels.isName "energy" = true := by decide
  simp [Labels.range_ok, hname, counting]

theorem blocks_of_single {output : Tensor} (h : output.Valid) (hkeys : output.keys = .single) :
    ∃ block, output.blocks = [block] := by
  rw [← List.length_eq_one_iff, ← h.count, hkeys]
  rfl

theorem blockAt_zero {output : Tensor} (h : output.Valid) (hkeys : output.keys = .single)
    {block : Block} : output.blockAt 0 = .ok block ↔ output.blocks = [block] := by
  obtain ⟨only, honly⟩ := blocks_of_single h hkeys
  simp [Tensor.blockAt, honly]

theorem entries_ok {samples expected : Labels} {IsWanted : Entry → Prop}
    (hsamples : samples.Valid) (hdistinct : expected.entries.Nodup)
    (hexpected : ∀ entry, entry ∈ expected.entries ↔ IsWanted entry) :
    samples.entries.all expected.contains = true ∧ samples.length = expected.length ↔
      ∀ entry, entry ∈ samples.entries ↔ IsWanted entry := by
  have hsets := samples_ok hsamples.distinct hdistinct
  simp only [hexpected] at hsets
  rw [← hsets]
  simp [Labels.contains, Rows.length, hexpected]

theorem checkLayout_ok {kind : Kind} {counts : List Nat} {request : Request}
    {selected : Option Labels} {output : Tensor} {u : Unit} (hcounts : CountsFit counts)
    (hselected : IsSelection selected) (houtput : output.Valid) :
    checkLayout kind counts request selected output = .ok u ↔ output.keys = .single ∧
      ∃ block, output.blocks = [block] ∧ members block kind < 0x80000000 ∧
        BlockFollows kind counts request.perAtom selected block := by
  obtain ⟨expected, hexpected, hdistinct, hmem⟩ :=
    expectedSamples_ok hcounts hselected request.perAtom
  simp only [checkLayout, bind_ok, ensure_ok, ofMetadata_ok, hexpected, range_energy, forM_ok,
    checkGradient_ok]
  constructor
  · rintro ⟨_, hkeys, block, hblock, _, hnames, found, hfound, _, hentries, _, hcomponents, _,
      ⟨hbound, rfl⟩, _, hproperties, hgradients⟩
    cases hfound
    rw [blockAt_zero houtput hkeys] at hblock
    have hvalid : block.Valid := houtput.blocks block (hblock ▸ List.mem_cons_self)
    rw [memberCount_eq hvalid] at hbound hproperties
    exact ⟨hkeys, block, hblock, hbound, hnames,
      (entries_ok hvalid.labelled.samples hdistinct hmem).mp hentries, hcomponents, hproperties,
      hgradients⟩
  · rintro ⟨hkeys, block, hblock, hbound, h⟩
    have hvalid : block.Valid := houtput.blocks block (hblock ▸ List.mem_cons_self)
    have hentries := (entries_ok hvalid.labelled.samples hdistinct hmem).mpr h.samples
    rw [← blockAt_zero houtput hkeys] at hblock
    have hproperties := h.properties
    rw [← memberCount_eq hvalid] at hbound hproperties
    exact ⟨(), hkeys, block, hblock, (), h.sampleNames, expected, rfl, (), hentries, (),
      h.components, _, ⟨hbound, rfl⟩, (), hproperties, h.gradients⟩

-- ---------------------------------------------------------------------------
-- All outputs
-- ---------------------------------------------------------------------------

theorem checkProduced_ok {requested : Named Request} {expected : DType} {item : String × Tensor}
    {u : Unit} : checkProduced requested expected item = .ok u ↔
      requested.contains item.1 = true ∧ ∀ block rest, item.2.blocks = block :: rest →
        block.values.dtype = expected := by
  obtain ⟨name, output⟩ := item
  simp only [checkProduced, bind_ok, ensure_ok]
  cases output.blocks with
  | nil => simp [pure_ok]
  | cons first rest => simp [ensure_ok]

theorem checkRequested_ok {counts : List Nat} {selected : Option Labels} {outputs : Named Tensor}
    {item : String × Request} {u : Unit} : checkRequested counts selected outputs item = .ok u ↔
      ∃ output, outputs.find? item.1 = some output ∧ ((Kind.ofName item.1).isStandard = true →
        checkLayout (Kind.ofName item.1) counts item.2 selected output = .ok ()) := by
  obtain ⟨name, request⟩ := item
  simp only [checkRequested]
  cases outputs.find? name with
  | none => simp
  | some output =>
    simp only [Option.some.injEq, exists_eq_left']
    split
    next hstandard => simp [hstandard]
    next hcustom => simp [hcustom, pure_ok]

theorem ofName_name {kind : Kind} (h : kind.isStandard = true) : Kind.ofName kind.name = kind := by
  cases kind with
  | energy => rfl
  | energyEnsemble => rfl
  | custom name => cases h

theorem check_ok_iff_layouts {counts : List Nat} {requested : Named Request}
    {selected : Option Labels} {outputs : Named Tensor} {expected : DType} :
    check counts requested selected outputs expected = .ok () ↔
      (∀ name, outputs.contains name = true ↔ requested.contains name = true) ∧
      (∀ name output block rest, outputs.find? name = some output →
        output.blocks = block :: rest → block.values.dtype = expected) ∧
      ∀ kind : Kind, kind.isStandard = true → ∀ request output,
        requested.find? kind.name = some request → outputs.find? kind.name = some output →
        checkLayout kind counts request selected output = .ok () := by
  simp only [check, bind_ok, forM_ok, checkProduced_ok, checkRequested_ok, Prod.forall,
    ← Named.find?_eq_some_iff]
  constructor
  · rintro ⟨_, hproduced, hrequested⟩
    refine ⟨fun name => ⟨fun h => ?_, fun h => ?_⟩, fun name output block rest houtput hblocks => ?_,
      fun kind hstandard request output hrequest houtput => ?_⟩
    · obtain ⟨output, houtput⟩ := Named.contains_iff.mp h
      exact (hproduced name output houtput).1
    · obtain ⟨request, hrequest⟩ := Named.contains_iff.mp h
      obtain ⟨output, houtput, -⟩ := hrequested name request hrequest
      exact Named.contains_iff.mpr ⟨output, houtput⟩
    · exact (hproduced name output houtput).2 block rest hblocks
    · obtain ⟨found, hfound, hlayout⟩ := hrequested kind.name request hrequest
      obtain rfl : found = output := Option.some.inj (hfound.symm.trans houtput)
      rw [ofName_name hstandard] at hlayout
      exact hlayout hstandard
  · rintro ⟨hnames, hdtype, hlayouts⟩
    refine ⟨(), fun name output houtput => ⟨?_, ?_⟩, fun name request hrequest => ?_⟩
    · exact (hnames name).mp (Named.contains_iff.mpr ⟨output, houtput⟩)
    · exact fun block rest hblocks => hdtype name output block rest houtput hblocks
    · obtain ⟨output, houtput⟩ := Named.contains_iff.mp
        ((hnames name).mpr (Named.contains_iff.mpr ⟨request, hrequest⟩))
      have hname := Kind.name_ofName name
      exact ⟨output, houtput, fun hstandard =>
        hlayouts _ hstandard request output (hname.symm ▸ hrequest) (hname.symm ▸ houtput)⟩

theorem MembersFit.members_lt {kind : Kind} {outputs : Named Tensor} {output : Tensor}
    {block : Block} (h : MembersFit outputs) (houtput : outputs.find? kind.name = some output)
    (hblocks : output.blocks = [block]) : members block kind < 0x80000000 := by
  cases kind with
  | energyEnsemble => exact h output houtput block (hblocks ▸ List.mem_cons_self)
  | energy => exact (by decide : 1 < 0x80000000)
  | custom name => exact (by decide : 1 < 0x80000000)

section
variable {counts : List Nat} {requested : Named Request} {selected : Option Labels}
  {outputs : Named Tensor} {expected : DType} (hcounts : CountsFit counts)
  (hselected : IsSelection selected)
  (houtputs : ∀ name output, outputs.find? name = some output → output.Valid)
include hcounts hselected houtputs

theorem membersFit_of_check (h : check counts requested selected outputs expected = .ok ()) :
    MembersFit outputs := by
  obtain ⟨hnames, -, hlayouts⟩ := check_ok_iff_layouts.mp h
  intro output houtput block hblock
  obtain ⟨request, hrequest⟩ := Named.contains_iff.mp
    ((hnames _).mp (Named.contains_iff.mpr ⟨output, houtput⟩))
  have hlayout := hlayouts .energyEnsemble rfl request output hrequest houtput
  obtain ⟨-, only, honly, hbound, -⟩ :=
    (checkLayout_ok hcounts hselected (houtputs _ _ houtput)).mp hlayout
  obtain rfl : block = only := List.mem_singleton.mp (honly ▸ hblock)
  exact hbound

theorem check_ok : check counts requested selected outputs expected = .ok () ↔
    Contract counts requested selected outputs expected ∧ MembersFit outputs := by
  constructor
  · intro h
    refine ⟨?_, membersFit_of_check hcounts hselected houtputs h⟩
    obtain ⟨hnames, hdtype, hlayouts⟩ := check_ok_iff_layouts.mp h
    refine ⟨hnames, hdtype, fun kind hstandard request output hrequest houtput => ?_⟩
    have hlayout := hlayouts kind hstandard request output hrequest houtput
    obtain ⟨hkeys, block, hblocks, -, hfollows⟩ :=
      (checkLayout_ok hcounts hselected (houtputs _ _ houtput)).mp hlayout
    exact ⟨hkeys, block, hblocks, hfollows⟩
  · rintro ⟨h, hfit⟩
    refine check_ok_iff_layouts.mpr
      ⟨h.names, h.dtype, fun kind hstandard request output hrequest houtput => ?_⟩
    obtain ⟨hkeys, block, hblocks, hfollows⟩ :=
      h.standard kind hstandard request output hrequest houtput
    exact (checkLayout_ok hcounts hselected (houtputs _ _ houtput)).mpr
      ⟨hkeys, block, hblocks, hfit.members_lt houtput hblocks, hfollows⟩

end

def pickedAtoms : Labels := ⟨⟨["system", "atom"], [[0, 0], [1, 1]]⟩⟩

/-- One energy for each picked atom, the last one first, with a strain gradient
of the first one. -/
def energyOfPicked : Tensor :=
  let strain : Block := ⟨.float64 (.full [1, 3, 3, 1] .one), ⟨⟨["sample"], [[0]]⟩⟩,
    [counting "xyz_1" 3, counting "xyz_2" 3], counting "energy" 1, .nil⟩
  ⟨.single, [⟨.float64 ⟨[2, 1], [.one, .invalid]⟩, ⟨⟨["system", "atom"], [[1, 1], [0, 0]]⟩⟩, [],
    counting "energy" 1, .cons "strain" strain .nil⟩]⟩

def pickedRequest : Named Request := Named.empty.insert "energy" { perAtom := true }

def pickedOutputs : Named Tensor := Named.empty.insert "energy" energyOfPicked

theorem check_ok_energyOfPicked : CountsFit [1, 2] ∧ IsSelection (some pickedAtoms) ∧
    check [1, 2] pickedRequest (some pickedAtoms) pickedOutputs .float64 = .ok () ∧
    Contract [1, 2] pickedRequest (some pickedAtoms) pickedOutputs .float64 ∧
    MembersFit pickedOutputs := by
  have hcounts : CountsFit [1, 2] := ⟨by decide, by decide⟩
  have hselected : IsSelection (some pickedAtoms) := by
    have hpicked : Labels.ofFlat ["system", "atom"] [0, 0, 1, 1] = .ok pickedAtoms := rfl
    constructor <;> rintro labels ⟨rfl⟩
    · exact (Labels.ofFlat_valid hpicked).1
    · rfl
  have houtputs : ∀ name output, pickedOutputs.find? name = some output → output.Valid := by
    intro name output houtput
    have hmade : (Archive.TensorRecord.ofTensor energyOfPicked).tensor = .ok energyOfPicked := rfl
    rw [pickedOutputs, Named.find?_insert] at houtput
    split at houtput
    · cases houtput
      exact Archive.tensor_valid hmade
    · cases houtput
  have hcheck : check [1, 2] pickedRequest (some pickedAtoms) pickedOutputs .float64 = .ok () := by
    decide +kernel
  exact ⟨hcounts, hselected, hcheck, (check_ok hcounts hselected houtputs).mp hcheck⟩

-- ---------------------------------------------------------------------------
-- Too many members
-- ---------------------------------------------------------------------------

/-- An ensemble with `n` members, of no systems. -/
def ensembleOf (n : Nat) : Tensor :=
  ⟨.single, [⟨.float64 ⟨[0, n], []⟩, ⟨⟨["system"], []⟩⟩, [], counting "energy" n, .nil⟩]⟩

def ensembleRequest : Named Request := Named.empty.insert "energy_ensemble" {}

def ensembleOutputs (n : Nat) : Named Tensor :=
  Named.empty.insert "energy_ensemble" (ensembleOf n)

theorem find?_ensembleOutputs {n : Nat} {name : String} {output : Tensor}
    (h : (ensembleOutputs n).find? name = some output) :
    name = "energy_ensemble" ∧ output = ensembleOf n := by
  rw [ensembleOutputs, Named.find?_insert] at h
  split at h
  next hname => exact ⟨hname, (Option.some.inj h).symm⟩
  next => cases h

theorem ensembleOf_valid {n : Nat} (h : n ≤ 0x80000000) : (ensembleOf n).Valid := by
  have hsize : volume ([0, n].filter (· ≠ 0)) < sizeLimit := by
    rw [volume_filter_cons, volume_filter_cons, List.filter_nil, volume, Nat.max_zero, Nat.one_mul,
      Nat.mul_one, sizeLimit]
    omega
  have hvalues : Values.Valid (.float64 ⟨[0, n], []⟩) := ⟨by simp [volume], hsize⟩
  have hsamples : Labels.Valid ⟨⟨["system"], []⟩⟩ :=
    ⟨⟨⟨by decide, by decide, by decide⟩, by decide⟩, by decide⟩
  have hproperties : (counting "energy" n).Valid := Labels.numbers_valid (by decide) h
  have hmade : Block.make (.float64 ⟨[0, n], []⟩) ⟨⟨["system"], []⟩⟩ [] (counting "energy" n) =
      .ok ⟨.float64 ⟨[0, n], []⟩, ⟨⟨["system"], []⟩⟩, [], counting "energy" n, .nil⟩ := by
    refine Block.make_ok.mpr ⟨⟨?_, by simp⟩, rfl⟩
    simp [Values.shape, counting, Rows.length]
  have hblock := Block.make_valid hvalues hsamples (by simp) hproperties hmade
  refine ⟨Labels.single_valid, rfl, ?_, ?_⟩
  · simpa [ensembleOf] using hblock
  · simpa [ensembleOf] using Block.Agree.refl _

theorem ensembleOutputs_valid {n : Nat} (h : n ≤ 0x80000000) :
    ∀ name output, (ensembleOutputs n).find? name = some output → output.Valid :=
  Named.forall_find?_insert (ensembleOf_valid h) nofun

theorem contract_ensembleOf (n : Nat) :
    Contract [] ensembleRequest none (ensembleOutputs n) .float64 where
  names name := by
    simp only [ensembleOutputs, ensembleRequest, Named.contains, Named.find?_insert]
    split <;> simp [Named.find?, Named.empty]
  dtype name output block rest houtput hblocks := by
    rw [(find?_ensembleOutputs houtput).2] at hblocks
    cases hblocks
    rfl
  standard kind hstandard request output hrequest houtput := by
    obtain ⟨hname, rfl⟩ := find?_ensembleOutputs houtput
    obtain rfl : kind = .energyEnsemble := by
      rw [← ofName_name hstandard, hname]
      rfl
    obtain rfl : request = {} := by
      rw [ensembleRequest, Named.find?_insert, if_pos hname] at hrequest
      exact (Option.some.inj hrequest).symm
    refine ⟨rfl, _, rfl, ⟨rfl, fun entry => ⟨nofun, ?_⟩, rfl, ?_, nofun⟩⟩
    · -- There is no system to expect.
      rintro ⟨⟩
      contradiction
    · simp [members, counting, Rows.length]

theorem membersFit_ensembleOf {n : Nat} (h : MembersFit (ensembleOutputs n)) : n < 0x80000000 := by
  have houtput : (ensembleOutputs n).find? Kind.energyEnsemble.name = some (ensembleOf n) :=
    (Named.find?_insert ..).trans (if_pos rfl)
  simpa [counting, Rows.length] using h _ houtput _ List.mem_cons_self

/-- Every property of `2 ^ 31` members is a label value, but their number is none. -/
theorem not_check_ok : ¬∀ (counts : List Nat) (requested : Named Request)
    (selected : Option Labels) (outputs : Named Tensor) (expected : DType), CountsFit counts →
    IsSelection selected →
    (∀ name output, outputs.find? name = some output → output.Valid) →
    (check counts requested selected outputs expected = .ok () ↔
      Contract counts requested selected outputs expected) := by
  intro h
  have hcounts : CountsFit [] := ⟨by decide, nofun⟩
  have hselected : IsSelection none := ⟨nofun, nofun⟩
  have hvalid := ensembleOutputs_valid (Nat.le_refl 0x80000000)
  have hcontract := contract_ensembleOf 0x80000000
  have hcheck := (h [] ensembleRequest none _ .float64 hcounts hselected hvalid).mpr hcontract
  have hfit := membersFit_of_check hcounts hselected hvalid hcheck
  exact Nat.lt_irrefl _ (membersFit_ensembleOf hfit)

end Output

end BlockTensor
