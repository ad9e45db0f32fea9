import BlockTensor.Proofs.Output.ElementTypes
import BlockTensor.Proofs.Projections

/-!
# Selections with other columns

Selected atoms are given by a system and an atom. Expected atoms are compared
with the selection as it is, so that nothing but these two columns will do.
Expected systems are compared with its column of systems. So a request by
systems takes any selection that has such a column, and takes it for the first
atoms of the systems in it (`check_malformed_ok_iff`).
-/

namespace BlockTensor

def Labels.systems (selected : Labels) : Rows :=
  ⟨["system"], selected.entries.map (selected.projection ["system"])⟩

/-- Atom 0 of every system that a selection names. -/
def Labels.firstAtoms (selected : Labels) : Labels :=
  ⟨⟨["system", "atom"], selected.systems.unique.entries.map (· ++ [0])⟩⟩

namespace Output

-- ---------------------------------------------------------------------------
-- Expected samples
-- ---------------------------------------------------------------------------

section
variable {counts : List Nat} {selected samples : Labels}

theorem names_of_expectedAtoms (h : expectedSamples counts true (some selected) = .ok samples) :
    selected.names = ["system", "atom"] := by
  simp only [expectedSamples, if_true, bind_ok, Labels.intersection_ok] at h
  obtain ⟨all, hall, hnames, -⟩ := h
  obtain ⟨entries, -, hmade⟩ := bind_ok.mp hall
  rw [← hnames, (Labels.ofFlat_valid hmade).2.1]

theorem select_systems (h : "system" ∈ selected.names) :
    selected.select ["system"] = .ok selected.systems :=
  Rows.select_ok ⟨by decide, by decide, by decide⟩ (List.cons_subset.mpr ⟨h, List.nil_subset _⟩)

theorem mem_names_of_expectedSystems
    (h : expectedSamples counts false (some selected) = .ok samples) :
    "system" ∈ selected.names := by
  simp only [expectedSamples, Bool.false_eq_true, if_false, bind_ok, Rows.select] at h
  obtain ⟨_, -, _, ⟨columns, hcolumns, -⟩, -⟩ := h
  by_contra hforeign
  rw [Rows.columns, List.mapM_cons, List.idxOf?_eq_none_iff.mpr hforeign] at hcolumns
  cases hcolumns

theorem mem_systems_firstAtoms {row : Entry} :
    row ∈ selected.firstAtoms.systems.entries ↔ row ∈ selected.systems.entries := by
  have hsystem : ∀ system ∈ selected.systems.unique.entries,
      selected.firstAtoms.projection ["system"] (system ++ [0]) = system := by
    intro system hmem
    obtain ⟨entry, -, rfl⟩ := List.mem_map.mp (Rows.mem_unique.mp hmem)
    rfl
  have hentries : selected.firstAtoms.systems.entries = selected.systems.unique.entries := by
    rw [Labels.systems, Labels.firstAtoms, List.map_map]
    exact (List.map_congr_left hsystem).trans (List.map_id _)
  rw [hentries, Rows.mem_unique]

/-- Only the systems that a selection names play a part. -/
theorem expectedSystems_eq (h : "system" ∈ selected.names) :
    expectedSamples counts false (some selected) =
      (do (← Labels.range "system" counts.length).intersection selected.systems.unique) := by
  simp only [expectedSamples, select_systems h]
  rfl

theorem expectedSystems_firstAtoms (h : "system" ∈ selected.names) :
    expectedSamples counts false (some selected.firstAtoms) =
      expectedSamples counts false (some selected) := by
  have hfirst : "system" ∈ selected.firstAtoms.names := List.mem_cons_self
  have hunique : selected.firstAtoms.systems.unique = selected.systems.unique :=
    Rows.unique_congr rfl fun _ => mem_systems_firstAtoms
  rw [expectedSystems_eq hfirst, expectedSystems_eq h, hunique]

end

-- ---------------------------------------------------------------------------
-- Checks
-- ---------------------------------------------------------------------------

def IsStandardRequest (requested : Named Request) (request : Request) : Prop :=
  ∃ kind : Kind, kind.isStandard = true ∧ requested.find? kind.name = some request

section
variable {counts : List Nat} {requested : Named Request} {outputs : Named Tensor}
  {expected : DType} {request : Request}

theorem exists_expected_of_checkLayout {kind : Kind} {selected : Option Labels} {output : Tensor}
    (h : checkLayout kind counts request selected output = .ok ()) :
    ∃ samples, expectedSamples counts request.perAtom selected = .ok samples := by
  simp only [checkLayout, bind_ok, ofMetadata_ok] at h
  obtain ⟨_, -, _, -, _, -, samples, hsamples, -⟩ := h
  exact ⟨samples, hsamples⟩

theorem exists_expected_of_check {selected : Option Labels}
    (h : check counts requested selected outputs expected = .ok ())
    (hrequest : IsStandardRequest requested request) :
    ∃ samples, expectedSamples counts request.perAtom selected = .ok samples := by
  obtain ⟨kind, hstandard, hrequest⟩ := hrequest
  simp only [check, bind_ok, forM_ok, checkRequested_ok] at h
  obtain ⟨_, -, hrequested⟩ := h
  obtain ⟨output, -, hlayout⟩ := hrequested _ (Named.find?_eq_some_iff.mp hrequest)
  rw [ofName_name hstandard] at hlayout
  exact exists_expected_of_checkLayout (hlayout hstandard)

/-- Selections from which the same samples are expected are not told apart. -/
theorem check_congr {selected other : Option Labels}
    (h : ∀ request, IsStandardRequest requested request →
      expectedSamples counts request.perAtom selected =
        expectedSamples counts request.perAtom other) :
    check counts requested selected outputs expected =
      check counts requested other outputs expected := by
  have hitem : ∀ item ∈ requested.items, checkRequested counts selected outputs item =
      checkRequested counts other outputs item := by
    rintro ⟨name, request⟩ hmem
    simp only [checkRequested]
    cases outputs.find? name with
    | none => rfl
    | some output =>
      by_cases hstandard : (Kind.ofName name).isStandard = true
      · have hrequest : requested.find? (Kind.ofName name).name = some request := by
          rw [Kind.name_ofName]
          exact Named.find?_eq_some_iff.mpr hmem
        simp only [hstandard, if_true, checkLayout, h request ⟨_, hstandard, hrequest⟩]
      · simp only [if_neg hstandard]
  rw [check, check, forM_congr hitem]

/-- A selection with other columns is refused if some atoms are requested or if
it has no systems. If not, it is taken for the first atoms of its systems. -/
theorem check_malformed_ok_iff {selected : Labels} (hnames : selected.names ≠ ["system", "atom"])
    (hstandard : ∃ request, IsStandardRequest requested request) :
    check counts requested (some selected) outputs expected = .ok () ↔
      (∀ request, IsStandardRequest requested request → request.perAtom = false) ∧
        "system" ∈ selected.names ∧
        check counts requested (some selected.firstAtoms) outputs expected = .ok () := by
  have hsame (hsystems : ∀ request, IsStandardRequest requested request → request.perAtom = false)
      (hcolumn : "system" ∈ selected.names) :
      check counts requested (some selected.firstAtoms) outputs expected =
        check counts requested (some selected) outputs expected := by
    refine check_congr fun request hrequest => ?_
    rw [hsystems request hrequest, expectedSystems_firstAtoms hcolumn]
  constructor
  · intro h
    have hsystems : ∀ request, IsStandardRequest requested request → request.perAtom = false := by
      intro request hrequest
      obtain ⟨samples, hsamples⟩ := exists_expected_of_check h hrequest
      refine Bool.eq_false_iff.mpr fun hatoms => ?_
      rw [hatoms] at hsamples
      exact hnames (names_of_expectedAtoms hsamples)
    obtain ⟨request, hrequest⟩ := hstandard
    obtain ⟨samples, hsamples⟩ := exists_expected_of_check h hrequest
    rw [hsystems request hrequest] at hsamples
    have hcolumn := mem_names_of_expectedSystems hsamples
    exact ⟨hsystems, hcolumn, (hsame hsystems hcolumn).trans h⟩
  · rintro ⟨hsystems, hcolumn, h⟩
    exact (hsame hsystems hcolumn).symm.trans h

end

/-- Atoms before systems: the third atom of one that does not exist, and two of
the second system. -/
def reorderedSelection : Labels := ⟨⟨["atom", "system"], [[2, -1], [0, 1], [5, 1]]⟩⟩

def secondEnergy : Tensor :=
  ⟨.single, [⟨.float64 ⟨[1, 1], [.one]⟩, ⟨⟨["system"], [[1]]⟩⟩, [], counting "energy" 1, .nil⟩]⟩

def secondOutputs : Named Tensor := Named.empty.insert "energy" secondEnergy

def energyRequest : Named Request := Named.empty.insert "energy" {}

theorem isStandardRequest_energy : IsStandardRequest energyRequest {} := ⟨.energy, rfl, rfl⟩

theorem check_reordered :
    check [1, 2] energyRequest (some reorderedSelection) secondOutputs .float64 = .ok () := by
  decide +kernel

theorem check_malformed_ok_iff_reordered : reorderedSelection.names ≠ ["system", "atom"] ∧
    (∃ request, IsStandardRequest energyRequest request) ∧
    reorderedSelection.firstAtoms = ⟨⟨["system", "atom"], [[-1, 0], [1, 0]]⟩⟩ ∧
    check [1, 2] energyRequest (some reorderedSelection.firstAtoms) secondOutputs .float64 =
      .ok () := by
  have hnames : reorderedSelection.names ≠ ["system", "atom"] := by decide
  have hstandard := Exists.intro _ isStandardRequest_energy
  have hchecked := (check_malformed_ok_iff hnames hstandard).mp check_reordered
  exact ⟨hnames, hstandard, by decide, hchecked.2.2⟩

theorem not_check_malformed : ¬ ∀ (counts : List Nat) (requested : Named Request)
    (selected : Labels) (outputs : Named Tensor) (expected : DType),
    (∃ request, IsStandardRequest requested request) →
    (∀ name output, outputs.find? name = some output → output.Valid) → selected.Valid →
    selected.names ≠ ["system", "atom"] →
      check counts requested (some selected) outputs expected ≠ .ok () := by
  intro h
  have hmade : Labels.ofFlat ["atom", "system"] [2, -1, 0, 1, 5, 1] = .ok reorderedSelection := rfl
  have houtputs : ∀ name output, secondOutputs.find? name = some output → output.Valid :=
    Named.forall_find?_insert (Archive.valid_of_record rfl) nofun
  exact h _ _ _ _ _ ⟨_, isStandardRequest_energy⟩ houtputs (Labels.ofFlat_valid hmade).1
    (by decide) check_reordered

end Output

end BlockTensor
