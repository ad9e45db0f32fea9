import BlockTensor.Proofs.Projections

/-!
# Rows as sets

`unique` depends on the names of rows and on which rows occur, not on their
order or number, and two sets of rows have one form only if they are equal
(`unique_eq_unique_iff`). Any sorting gives that form, stable or not
(`dropRepeats_of_sorted`). Projections of the form and of the rows themselves
have the same form, so a projection may be made in steps.
-/

namespace BlockTensor

/-- Signed values, compared from the first column on. -/
def Entry.Before : Entry → Entry → Prop := List.Lex fun x y => x.toInt < y.toInt

theorem Entry.before_iff {left right : Entry} : left.Before right ↔ left < right := by
  have hlt : (fun x y : LabelValue => x.toInt < y.toInt) = fun x y => x < y :=
    funext fun x => funext fun y => propext Int32.lt_iff_toInt_lt.symm
  rw [Before, hlt]
  rfl

namespace Rows

variable {rows : Rows} {wide narrow : List String}

-- ---------------------------------------------------------------------------
-- Sorting
-- ---------------------------------------------------------------------------

/-- Rows in ascending order without repeats, however they were sorted. -/
theorem dropRepeats_of_sorted {sorted : List Entry} (hperm : sorted.Perm rows.entries)
    (hsorted : sorted.Pairwise fun a b => ¬b.Before a) :
    dropRepeats sorted = rows.unique.entries := by
  have hle : sorted.Pairwise fun a b => a ≤ b := by
    simpa only [Entry.before_iff, List.not_lt] using hsorted
  refine eq_of_ascending (pairwise_dropRepeats hle) rows.pairwise_unique fun entry => ?_
  rw [mem_dropRepeats, mem_unique, hperm.mem_iff]

theorem unique_eq_unique_iff {left right : Rows} :
    left.unique = right.unique ↔
      left.names = right.names ∧ ∀ entry, entry ∈ left.entries ↔ entry ∈ right.entries := by
  constructor
  · intro h
    refine ⟨congrArg (fun labels => labels.names) h, fun entry => ?_⟩
    rw [← mem_unique, h, mem_unique]
  · rintro ⟨hnames, hentries⟩
    exact unique_congr hnames hentries

theorem unique_unique (rows : Rows) : rows.unique.unique = rows.unique :=
  unique_congr rfl fun _ => mem_unique

-- ---------------------------------------------------------------------------
-- Projecting twice
-- ---------------------------------------------------------------------------

/-- A column of a projection is the column of its name. -/
theorem projection_projection {projected : Rows} (h : narrow ⊆ projected.names) (entry : Entry) :
    projected.projection narrow (rows.projection projected.names entry) =
      rows.projection narrow entry := by
  simp only [projection, project, List.map_map]
  refine List.map_congr_left fun name hmem => ?_
  have hname : projected.names[projected.names.idxOf name]? = some name :=
    List.getElem?_idxOf (h hmem)
  simp [List.getD_eq_getElem?_getD, hname]

/-- Rows that hold the projections of other rows, each at least once, have the
narrower projections of those rows. -/
theorem unique_projection {projected : Rows} (hsubset : narrow ⊆ projected.names)
    (h : ∀ entry, entry ∈ projected.entries ↔
      ∃ row ∈ rows.entries, rows.projection projected.names row = entry) :
    unique ⟨narrow, projected.entries.map (projected.projection narrow)⟩ =
      unique ⟨narrow, rows.entries.map (rows.projection narrow)⟩ := by
  refine unique_congr rfl fun entry => ?_
  simp only [List.mem_map, h, exists_exists_and_eq_and, projection_projection hsubset]

theorem unique_select_unique (hwide : Labels.ValidNames wide) (hnarrow : Labels.ValidNames narrow)
    (hinner : narrow ⊆ wide) (houter : wide ⊆ rows.names) : ∃ found : Labels,
      (do pure (← (← rows.select wide).unique.select narrow).unique) = .ok found ∧
      (do pure (← rows.select narrow).unique) = .ok found := by
  refine ⟨unique ⟨narrow, rows.entries.map (rows.projection narrow)⟩, ?_, ?_⟩
  · rw [select_ok hwide houter]
    show (do pure (← (unique _).select narrow).unique) = Except.ok (unique _)
    rw [select_ok hnarrow (show narrow ⊆ (unique ⟨wide, _⟩).names from hinner)]
    refine congrArg Except.ok (unique_projection hinner fun entry => ?_)
    rw [mem_unique]
    exact List.mem_map
  · rw [select_ok hnarrow (List.Subset.trans hinner houter)]
    rfl

end Rows

theorem Labels.sorted_perm {labels : Labels} (h : labels.Valid) :
    labels.sorted.entries.Perm labels.entries :=
  (List.perm_ext_iff_of_nodup (Rows.unique_valid h.rows).distinct h.distinct).mpr
    fun _ => Rows.mem_unique

-- ---------------------------------------------------------------------------
-- One form for each set of rows
-- ---------------------------------------------------------------------------

structure Rows.CanonicalLaws (rows : Rows) : Prop where
  valid : rows.unique.Valid
  names : rows.unique.names = rows.names
  ascending : rows.unique.entries.Pairwise Entry.Before
  members : ∀ entry, entry ∈ rows.unique.entries ↔ entry ∈ rows.entries
  /-- Any other sorting of the rows leads to the same entries. -/
  sorted : ∀ sorted : List Entry, sorted.Perm rows.entries →
    (sorted.Pairwise fun a b => ¬b.Before a) → dropRepeats sorted = rows.unique.entries
  eq_iff : ∀ other : Rows, rows.unique = other.unique ↔
    rows.names = other.names ∧ ∀ entry, entry ∈ rows.entries ↔ entry ∈ other.entries
  again : rows.unique.unique = rows.unique
  inSteps : ∀ wide narrow, narrow ≠ [] → wide.Nodup → narrow.Nodup → narrow ⊆ wide →
    wide ⊆ rows.names → ∃ found : Labels,
      (do pure (← (← rows.select wide).unique.select narrow).unique) = .ok found ∧
      (do pure (← rows.select narrow).unique) = .ok found

theorem unique_canonical {rows : Rows} {labels : Labels} (hrows : rows.Valid)
    (hlabels : labels.Valid) :
    rows.CanonicalLaws ∧ labels.sorted.entries.Perm labels.entries := by
  refine ⟨?_, Labels.sorted_perm hlabels⟩
  exact {
    valid := Rows.unique_valid hrows
    names := rfl
    ascending := rows.pairwise_unique.imp Entry.before_iff.mpr
    members := fun _ => Rows.mem_unique
    sorted := fun _ => Rows.dropRepeats_of_sorted
    eq_iff := fun _ => Rows.unique_eq_unique_iff
    again := rows.unique_unique
    inSteps := by
      intro wide narrow hne hwide hnarrow hinner houter
      have hwider : wide ≠ [] := fun h => hne (List.subset_nil.mp (h ▸ hinner))
      exact Rows.unique_select_unique (hrows.validNames hwider hwide houter)
        (hrows.validNames hne hnarrow (List.Subset.trans hinner houter)) hinner houter }

def scatteredTriples : Rows :=
  ⟨["first", "second", "third"], [[2, -1, 7], [0, 5, 7], [2, -1, 7], [-3, 5, 7]]⟩

theorem unique_canonical_scatteredTriples :
    let labels : Labels := ⟨⟨["atom"], [[3], [-1], [2]]⟩⟩
    scatteredTriples.Valid ∧ scatteredTriples.CanonicalLaws ∧
      scatteredTriples.unique.entries = [[-3, 5, 7], [0, 5, 7], [2, -1, 7]] ∧
      labels.Valid ∧ labels.sorted.entries.Perm [[3], [-1], [2]] ∧
      (do pure (← (← scatteredTriples.select ["third", "second"]).unique.select ["second"]).unique) =
        .ok ⟨⟨["second"], [[-1], [5]]⟩⟩ := by
  have hrows : Rows.ofFlat ["first", "second", "third"] [2, -1, 7, 0, 5, 7, 2, -1, 7, -3, 5, 7] =
    .ok scatteredTriples := rfl
  have hlabels : Labels.ofFlat ["atom"] [3, -1, 2] = .ok ⟨⟨["atom"], [[3], [-1], [2]]⟩⟩ := rfl
  obtain ⟨hrows, -⟩ := Rows.ofFlat_valid hrows
  obtain ⟨hlabels, -⟩ := Labels.ofFlat_valid hlabels
  obtain ⟨hlaws, hsorted⟩ := unique_canonical hrows hlabels
  refine ⟨hrows, hlaws, by decide, hlabels, hsorted, ?_⟩
  obtain ⟨found, hsteps, hdirect⟩ := hlaws.inSteps ["third", "second"] ["second"] (by decide)
    (by decide) (by decide) (by decide) (by decide)
  rw [hsteps, ← hdirect]
  rfl

end BlockTensor
