import BlockTensor.Output.Contract
import BlockTensor.Proofs.LabelLaws

/-!
# The expected samples

`IsExpected` says which entries an output is expected to have, without an order
and without labels. The expected samples are labels with exactly these entries,
in ascending order, as long as the numbers of systems and atoms are label values.

In a selection by systems the atoms of a system count as one, whether they exist
or not. `SampleLaws` relates the samples by atoms to those by systems.
-/

namespace BlockTensor.Output

structure CountsFit (counts : List Nat) : Prop where
  systems : counts.length < 0x80000000
  atoms : ∀ count ∈ counts, count < 0x80000000

structure IsSelection (selected : Option Labels) : Prop where
  valid : ∀ labels ∈ selected, labels.Valid
  names : ∀ labels ∈ selected, labels.names = ["system", "atom"]

inductive IsExpected (counts : List Nat) (selected : Option Labels) :
    (perAtom : Bool) → Entry → Prop
  | atom {system count atom : Nat} : counts[system]? = some count → atom < count →
      (∀ labels ∈ selected, [Int32.ofNat system, Int32.ofNat atom] ∈ labels.entries) →
      IsExpected counts selected true [Int32.ofNat system, Int32.ofNat atom]
  | system {system : Nat} : system < counts.length →
      (∀ labels ∈ selected, ∃ atom, [Int32.ofNat system, atom] ∈ labels.entries) →
      IsExpected counts selected false [Int32.ofNat system]

-- ---------------------------------------------------------------------------
-- All atoms
-- ---------------------------------------------------------------------------

def atomsOf (system count : Nat) : List Entry :=
  (List.range count).map fun atom => [Int32.ofNat system, Int32.ofNat atom]

def allEntries (counts : List Nat) : List Entry :=
  counts.zipIdx.flatMap fun (count, system) => atomsOf system count

theorem mem_allEntries {counts : List Nat} {entry : Entry} :
    entry ∈ allEntries counts ↔ ∃ system count atom, counts[system]? = some count ∧
      atom < count ∧ entry = [Int32.ofNat system, Int32.ofNat atom] := by
  simp only [allEntries, atomsOf, List.mem_flatMap, List.mem_map, List.mem_range, Prod.exists,
    List.mk_mem_zipIdx_iff_getElem?]
  constructor
  · rintro ⟨count, system, hcount, atom, hatom, rfl⟩
    exact ⟨system, count, atom, hcount, hatom, rfl⟩
  · rintro ⟨system, count, atom, hcount, hatom, rfl⟩
    exact ⟨count, system, hcount, atom, hatom, rfl⟩

section
variable {counts : List Nat} (hcounts : CountsFit counts)
include hcounts

theorem bounds_of_mem_zipIdx {count system : Nat} (hmem : (count, system) ∈ counts.zipIdx) :
    count < 0x80000000 ∧ system < 0x80000000 := by
  rw [List.mk_mem_zipIdx_iff_getElem?] at hmem
  obtain ⟨hsystem, rfl⟩ := List.getElem?_eq_some_iff.mp hmem
  exact ⟨hcounts.atoms _ (List.getElem_mem hsystem), Nat.lt_trans hsystem hcounts.systems⟩

theorem ascending_allEntries : (allEntries counts).Pairwise fun a b => a < b := by
  have hsystems : counts.zipIdx.Pairwise fun left right => left.2 < right.2 := by
    refine List.pairwise_map.mp ?_
    rw [List.zipIdx_map_snd]
    exact List.pairwise_lt_range'
  rw [allEntries, List.pairwise_flatMap]
  constructor
  · rintro ⟨count, system⟩ hmem
    obtain ⟨hcount, -⟩ := bounds_of_mem_zipIdx hcounts hmem
    refine List.pairwise_map.mpr (List.pairwise_lt_range.imp_of_mem fun {i j} _ hj hlt => ?_)
    have hj : j < count := List.mem_range.mp hj
    have hvalue := Labels.ofNat_lt (by omega) hlt
    exact List.cons_lt_cons_iff.mpr (.inr ⟨rfl, List.cons_lt_cons_iff.mpr (.inl hvalue)⟩)
  · -- Entries of different systems differ in their first value.
    refine hsystems.imp_of_mem ?_
    rintro ⟨count, system⟩ ⟨count', system'⟩ - hmem hlt entry hentry entry' hentry'
    obtain ⟨-, hsystem⟩ := bounds_of_mem_zipIdx hcounts hmem
    obtain ⟨_, -, rfl⟩ := List.mem_map.mp hentry
    obtain ⟨_, -, rfl⟩ := List.mem_map.mp hentry'
    exact List.cons_lt_cons_iff.mpr (.inl (Labels.ofNat_lt hsystem hlt))

theorem nodup_allEntries : (allEntries counts).Nodup :=
  (ascending_allEntries hcounts).imp fun hlt => Std.ne_of_lt hlt

theorem atomEntries_ok {count system : Nat} (hmem : (count, system) ∈ counts.zipIdx) :
    atomEntries system count = .ok (atomsOf system count) := by
  obtain ⟨hcount, hsystem⟩ := bounds_of_mem_zipIdx hcounts hmem
  simp only [atomEntries, bind_ok, Labels.labelValue_ok]
  refine ⟨_, ⟨hsystem, rfl⟩, mapM_ok_map fun atom hatom => ?_⟩
  have hatom : atom < count := List.mem_range.mp hatom
  simp only [bind_ok, Labels.labelValue_ok, pure_ok]
  exact ⟨_, ⟨by omega, rfl⟩, rfl⟩

theorem allAtoms_ok : allAtoms counts = .ok ⟨⟨["system", "atom"], allEntries counts⟩⟩ := by
  have hentries : counts.zipIdx.mapM (fun (count, system) => atomEntries system count) =
      .ok (counts.zipIdx.map fun (count, system) => atomsOf system count) :=
    mapM_ok_map fun _ hmem => atomEntries_ok hcounts hmem
  have hvalid : Labels.Valid ⟨⟨["system", "atom"], allEntries counts⟩⟩ := by
    have hnames : Labels.checkNames ["system", "atom"] = .ok () := rfl
    refine ⟨⟨Labels.checkNames_ok.mp hnames, fun entry hmem => ?_⟩, nodup_allEntries hcounts⟩
    obtain ⟨_, _, _, -, -, rfl⟩ := mem_allEntries.mp hmem
    rfl
  simp only [allAtoms, bind_ok, hentries, Except.ok.injEq]
  exact ⟨_, rfl, by rw [← List.flatMap_def]; exact Labels.ofFlat_flat hvalid⟩

end

-- ---------------------------------------------------------------------------
-- All systems
-- ---------------------------------------------------------------------------

theorem select_system {labels : Labels} (h : labels.names = ["system", "atom"]) :
    labels.select ["system"] = .ok ⟨["system"], labels.entries.map (Rows.project [0])⟩ := by
  have hcolumns : labels.columns ["system"] = .ok [0] := by
    rw [Rows.columns, h]
    rfl
  have hnames : Labels.checkNames ["system"] = .ok () := rfl
  simp only [Rows.select, bind_ok, pure_ok]
  exact ⟨[0], hcolumns, (), hnames, rfl⟩

theorem mem_selectedSystems {labels : Labels} (hvalid : labels.Valid)
    (hnames : labels.names = ["system", "atom"]) {value : LabelValue} :
    [value] ∈ labels.entries.map (Rows.project [0]) ↔ ∃ atom, [value, atom] ∈ labels.entries := by
  rw [List.mem_map]
  constructor
  · rintro ⟨entry, hmem, heq⟩
    have harity : entry.length = 2 := by
      rw [hvalid.rows.arity entry hmem, Rows.size, hnames]
      rfl
    obtain ⟨system, atom, rfl⟩ := List.length_eq_two.mp harity
    obtain rfl : system = value := by simpa [Rows.project] using heq
    exact ⟨atom, hmem⟩
  · rintro ⟨atom, hmem⟩
    exact ⟨_, hmem, rfl⟩

-- ---------------------------------------------------------------------------
-- Expected samples
-- ---------------------------------------------------------------------------

section
variable {counts : List Nat} {selected : Option Labels}

structure ListsExpected (counts : List Nat) (selected : Option Labels) (perAtom : Bool)
    (samples : Labels) : Prop where
  names : samples.names = sampleNames perAtom
  ascending : samples.entries.Pairwise fun a b => a < b
  mem_iff : ∀ entry, entry ∈ samples.entries ↔ IsExpected counts selected perAtom entry

theorem ListsExpected.distinct {perAtom : Bool} {samples : Labels}
    (h : ListsExpected counts selected perAtom samples) : samples.entries.Nodup :=
  h.ascending.imp fun hlt => Std.ne_of_lt hlt

theorem expectedAtoms_ok (hcounts : CountsFit counts) (hselected : IsSelection selected) :
    ∃ expected, expectedSamples counts true selected = .ok expected ∧
      ListsExpected counts selected true expected := by
  have hexpected : ∀ entry, IsExpected counts selected true entry ↔
      entry ∈ allEntries counts ∧ ∀ labels ∈ selected, entry ∈ labels.entries := by
    intro entry
    rw [mem_allEntries]
    constructor
    · rintro ⟨hcount, hatom, hmem⟩
      exact ⟨⟨_, _, _, hcount, hatom, rfl⟩, hmem⟩
    · rintro ⟨⟨system, count, atom, hcount, hatom, rfl⟩, hmem⟩
      exact .atom hcount hatom hmem
  have hall := allAtoms_ok hcounts
  have hascending := ascending_allEntries hcounts
  cases selected with
  | none =>
    refine ⟨_, bind_ok.mpr ⟨_, hall, rfl⟩, rfl, hascending, fun entry => ?_⟩
    simp [hexpected]
  | some labels =>
    have hnames := hselected.names labels rfl
    refine ⟨_, bind_ok.mpr ⟨_, hall, Labels.intersection_ok.mpr ⟨hnames.symm, rfl⟩⟩,
      rfl, hascending.filter _, fun entry => ?_⟩
    simp [hexpected]

theorem expectedSystems_ok (hcounts : CountsFit counts) (hselected : IsSelection selected) :
    ∃ expected, expectedSamples counts false selected = .ok expected ∧
      ListsExpected counts selected false expected := by
  obtain ⟨all, hrange⟩ : ∃ all, Labels.range "system" counts.length = .ok all :=
    ⟨_, Labels.range_ok.mpr ⟨by decide, hcounts.systems, rfl⟩⟩
  have hascending := Labels.ascending_range hrange
  obtain ⟨-, -, rfl⟩ := Labels.range_ok.mp hrange
  have hexpected : ∀ entry, IsExpected counts selected false entry ↔
      entry ∈ (List.range counts.length).map (fun i => [Int32.ofNat i]) ∧
        ∀ labels ∈ selected, entry ∈ labels.entries.map (Rows.project [0]) := by
    intro entry
    rw [List.mem_map]
    constructor
    · rintro ⟨⟩
      next system hsystem hmem =>
        refine ⟨⟨system, List.mem_range.mpr hsystem, rfl⟩, fun labels hlabels => ?_⟩
        exact (mem_selectedSystems (hselected.valid labels hlabels)
          (hselected.names labels hlabels)).mpr (hmem labels hlabels)
    · rintro ⟨⟨system, hsystem, rfl⟩, hmem⟩
      refine .system (List.mem_range.mp hsystem) fun labels hlabels => ?_
      exact (mem_selectedSystems (hselected.valid labels hlabels)
        (hselected.names labels hlabels)).mp (hmem labels hlabels)
  cases selected with
  | none =>
    refine ⟨_, bind_ok.mpr ⟨_, hrange, rfl⟩, rfl, hascending, fun entry => ?_⟩
    simp [hexpected]
  | some labels =>
    have hselect := select_system (hselected.names labels rfl)
    refine ⟨_, bind_ok.mpr ⟨_, hrange, bind_ok.mpr ⟨_, hselect,
      Labels.intersection_ok.mpr ⟨rfl, rfl⟩⟩⟩, rfl, hascending.filter _, fun entry => ?_⟩
    simp [hexpected, Rows.mem_unique]

theorem expectedSamples_ok (hcounts : CountsFit counts) (hselected : IsSelection selected)
    (perAtom : Bool) :
    ∃ expected, expectedSamples counts perAtom selected = .ok expected ∧
      expected.entries.Nodup ∧
      ∀ entry, entry ∈ expected.entries ↔ IsExpected counts selected perAtom entry := by
  cases perAtom with
  | true =>
    obtain ⟨expected, hexpected, h⟩ := expectedAtoms_ok hcounts hselected
    exact ⟨expected, hexpected, h.distinct, h.mem_iff⟩
  | false =>
    obtain ⟨expected, hexpected, h⟩ := expectedSystems_ok hcounts hselected
    exact ⟨expected, hexpected, h.distinct, h.mem_iff⟩

/-- Samples that were made are distinct, whatever is selected. -/
theorem expectedSamples_nodup {perAtom : Bool} {expected : Labels}
    (h : expectedSamples counts perAtom selected = .ok expected) :
    expected.entries.Nodup := by
  have hrestricted : ∀ {all : Labels}, all.Valid → ∀ {other : Labels},
      all.intersection other = .ok expected → expected.entries.Nodup :=
    fun hall _ hcommon => (Labels.intersection_valid hall hcommon).distinct
  cases perAtom with
  | true =>
    simp only [expectedSamples, if_true, bind_ok] at h
    obtain ⟨all, hall, h⟩ := h
    obtain ⟨entries, -, hmade⟩ := bind_ok.mp hall
    have hvalid := (Labels.ofFlat_valid hmade).1
    cases selected with
    | none =>
      cases h
      exact hvalid.distinct
    | some labels => exact hrestricted hvalid h
  | false =>
    simp only [expectedSamples, Bool.false_eq_true, if_false, bind_ok] at h
    obtain ⟨all, hall, h⟩ := h
    have hvalid := Labels.range_valid hall
    cases selected with
    | none =>
      cases h
      exact hvalid.distinct
    | some labels =>
      obtain ⟨_, -, hcommon⟩ := bind_ok.mp h
      exact hrestricted hvalid hcommon

-- ---------------------------------------------------------------------------
-- Both lists of expected samples
-- ---------------------------------------------------------------------------

def IsSystem (counts : List Nat) (system : LabelValue) : Prop :=
  0 ≤ system.toInt ∧ system.toInt < counts.length

def IsAtom (counts : List Nat) (system atom : LabelValue) : Prop :=
  0 ≤ system.toInt ∧ 0 ≤ atom.toInt ∧
    ∃ count, counts[system.toInt.toNat]? = some count ∧ atom.toInt < count

def IsPicked (selected : Option Labels) (system atom : LabelValue) : Prop :=
  ∀ labels ∈ selected, [system, atom] ∈ labels.entries

/-- A system that the selection names with some atom, if a selection is made. -/
def IsNamed (selected : Option Labels) (system : LabelValue) : Prop :=
  ∀ labels ∈ selected, ∃ atom, [system, atom] ∈ labels.entries

theorem IsAtom.isSystem {system atom : LabelValue} (h : IsAtom counts system atom) :
    IsSystem counts system := by
  obtain ⟨hsystem, -, count, hcount, -⟩ := h
  obtain ⟨hlt, -⟩ := List.getElem?_eq_some_iff.mp hcount
  exact ⟨hsystem, by omega⟩

theorem IsPicked.isNamed {system atom : LabelValue} (h : IsPicked selected system atom) :
    IsNamed selected system :=
  fun labels hlabels => ⟨atom, h labels hlabels⟩

/-- Numbers that fit are label values, and label values that number something
are such numbers. -/
theorem isExpected_atom_iff (hcounts : CountsFit counts) {entry : Entry} :
    IsExpected counts selected true entry ↔ ∃ system atom, entry = [system, atom] ∧
      IsAtom counts system atom ∧ IsPicked selected system atom := by
  constructor
  · rintro ⟨⟩
    next system count atom hcount hatom hmem =>
      obtain ⟨hsystem, rfl⟩ := List.getElem?_eq_some_iff.mp hcount
      have hfits := hcounts.atoms _ (List.getElem_mem hsystem)
      have hsystems := hcounts.systems
      have hsystemValue : (Int32.ofNat system).toInt = system :=
        Int32.toInt_ofNat_of_lt (by omega)
      have hatomValue : (Int32.ofNat atom).toInt = atom := Int32.toInt_ofNat_of_lt (by omega)
      refine ⟨_, _, rfl, ⟨?_, ?_, counts[system], ?_, ?_⟩, hmem⟩
      · omega
      · omega
      · rwa [hsystemValue]
      · omega
  · rintro ⟨system, atom, rfl, ⟨hsystem, hatom, count, hcount, hlt⟩, hmem⟩
    rw [← Labels.ofNat_toInt hsystem, ← Labels.ofNat_toInt hatom]
    refine .atom hcount (by omega) ?_
    rwa [Labels.ofNat_toInt hsystem, Labels.ofNat_toInt hatom]

theorem isExpected_system_iff (hcounts : CountsFit counts) {entry : Entry} :
    IsExpected counts selected false entry ↔ ∃ system, entry = [system] ∧
      IsSystem counts system ∧ IsNamed selected system := by
  constructor
  · rintro ⟨⟩
    next system hsystem hmem =>
      have hsystems := hcounts.systems
      have hvalue : (Int32.ofNat system).toInt = system := Int32.toInt_ofNat_of_lt (by omega)
      exact ⟨_, rfl, ⟨by omega, by omega⟩, hmem⟩
  · rintro ⟨system, rfl, ⟨hsystem, hlt⟩, hmem⟩
    rw [← Labels.ofNat_toInt hsystem]
    refine .system (by omega) ?_
    rwa [Labels.ofNat_toInt hsystem]

structure SampleLaws (counts : List Nat) (selected : Option Labels) (atoms systems : Labels) :
    Prop where
  atomNames : atoms.names = ["system", "atom"]
  systemNames : systems.names = ["system"]
  atomsAscend : atoms.entries.Pairwise fun a b => a < b
  systemsAscend : systems.entries.Pairwise fun a b => a < b
  mem_atoms : ∀ entry, entry ∈ atoms.entries ↔ ∃ system atom, entry = [system, atom] ∧
    IsAtom counts system atom ∧ IsPicked selected system atom
  mem_systems : ∀ entry, entry ∈ systems.entries ↔ ∃ system, entry = [system] ∧
    IsSystem counts system ∧ IsNamed selected system
  covered : ∀ system atom, [system, atom] ∈ atoms.entries → [system] ∈ systems.entries
  /-- The systems of the atoms are all of the systems just if every existing
  system that the selection names has an existing atom that is selected. -/
  same_iff : (∀ system, [system] ∈ systems.entries ↔ ∃ atom, [system, atom] ∈ atoms.entries) ↔
    ∀ system, IsSystem counts system → IsNamed selected system →
      ∃ atom, IsAtom counts system atom ∧ IsPicked selected system atom
  all_atoms : selected = none → ∀ system atom,
    [system, atom] ∈ atoms.entries ↔ IsAtom counts system atom
  all_systems : selected = none → ∀ system, [system] ∈ systems.entries ↔ IsSystem counts system

theorem expectedSamples_laws (hcounts : CountsFit counts) (hselected : IsSelection selected) :
    ∃ atoms systems, expectedSamples counts true selected = .ok atoms ∧
      expectedSamples counts false selected = .ok systems ∧
      SampleLaws counts selected atoms systems := by
  obtain ⟨atoms, hatoms, hatomList⟩ := expectedAtoms_ok hcounts hselected
  obtain ⟨systems, hsystems, hsystemList⟩ := expectedSystems_ok hcounts hselected
  have hatom : ∀ system atom, [system, atom] ∈ atoms.entries ↔
      IsAtom counts system atom ∧ IsPicked selected system atom := by
    simp [hatomList.mem_iff, isExpected_atom_iff hcounts]
  have hsystem : ∀ system, [system] ∈ systems.entries ↔
      IsSystem counts system ∧ IsNamed selected system := by
    simp [hsystemList.mem_iff, isExpected_system_iff hcounts]
  have hcovered : ∀ system atom, [system, atom] ∈ atoms.entries → [system] ∈ systems.entries := by
    intro system atom hmem
    obtain ⟨hexists, hpicked⟩ := (hatom system atom).mp hmem
    exact (hsystem system).mpr ⟨hexists.isSystem, hpicked.isNamed⟩
  refine ⟨atoms, systems, hatoms, hsystems,
    { atomNames := hatomList.names
      systemNames := hsystemList.names
      atomsAscend := hatomList.ascending
      systemsAscend := hsystemList.ascending
      mem_atoms := fun entry => (hatomList.mem_iff entry).trans (isExpected_atom_iff hcounts)
      mem_systems := fun entry =>
        (hsystemList.mem_iff entry).trans (isExpected_system_iff hcounts)
      covered := hcovered
      same_iff := ⟨fun hsame system hexists hnamed => ?_, fun h system => ⟨fun hmem => ?_, ?_⟩⟩
      all_atoms := ?_
      all_systems := ?_ }⟩
  · obtain ⟨atom, hmem⟩ := (hsame system).mp ((hsystem system).mpr ⟨hexists, hnamed⟩)
    exact ⟨atom, (hatom system atom).mp hmem⟩
  · obtain ⟨hexists, hnamed⟩ := (hsystem system).mp hmem
    obtain ⟨atom, hpicked⟩ := h system hexists hnamed
    exact ⟨atom, (hatom system atom).mpr hpicked⟩
  · rintro ⟨atom, hmem⟩
    exact hcovered system atom hmem
  · rintro rfl system atom
    simp [hatom, IsPicked]
  · rintro rfl system
    simp [hsystem, IsNamed]

end

/-- Atoms of three systems, the second one without any: an atom that does not
exist, one of a negative system, and two that do exist. -/
def unsortedSelection : Labels := ⟨⟨["system", "atom"], [[2, 1], [1, 0], [-1, 0], [0, 5], [2, 0]]⟩⟩

theorem expectedSamples_laws_unsorted : CountsFit [2, 0, 3] ∧
    IsSelection (some unsortedSelection) ∧
    ∃ atoms systems, expectedSamples [2, 0, 3] true (some unsortedSelection) = .ok atoms ∧
      expectedSamples [2, 0, 3] false (some unsortedSelection) = .ok systems ∧
      atoms.entries = [[2, 0], [2, 1]] ∧ systems.entries = [[0], [1], [2]] ∧
      SampleLaws [2, 0, 3] (some unsortedSelection) atoms systems := by
  have hcounts : CountsFit [2, 0, 3] := ⟨by decide, by decide⟩
  have hselected : IsSelection (some unsortedSelection) := by
    have hmade : Labels.ofFlat ["system", "atom"] [2, 1, 1, 0, -1, 0, 0, 5, 2, 0] =
        .ok unsortedSelection := rfl
    constructor <;> rintro labels ⟨rfl⟩
    · exact (Labels.ofFlat_valid hmade).1
    · rfl
  obtain ⟨atoms, systems, hatoms, hsystems, hlaws⟩ := expectedSamples_laws hcounts hselected
  have hatomEntries : expectedSamples [2, 0, 3] true (some unsortedSelection) =
      .ok ⟨⟨["system", "atom"], [[2, 0], [2, 1]]⟩⟩ := by decide +kernel
  have hsystemEntries : expectedSamples [2, 0, 3] false (some unsortedSelection) =
      .ok ⟨⟨["system"], [[0], [1], [2]]⟩⟩ := by decide +kernel
  refine ⟨hcounts, hselected, atoms, systems, hatoms, hsystems, ?_, ?_, hlaws⟩
  · cases hatoms.symm.trans hatomEntries
    rfl
  · cases hsystems.symm.trans hsystemEntries
    rfl

end BlockTensor.Output
