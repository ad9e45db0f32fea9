import BlockTensor.Proofs.Selections
import BlockTensor.Proofs.TensorLaws

/-!
# Projections onto columns

An entry is projected onto some columns of its labels. Cutting rows down to
columns projects every entry (`select_ok`), a group keeps the entries whose
projections it contains (`keptPositions_ok`), and unique metadata are the
projections of all entries, sorted (`uniqueRows_ok`). Only names can make any of
them fail.
-/

namespace BlockTensor

/-- No name is foreign to names that contain them all. -/
theorem find?_foreign {names others : List String} :
    (names.find? fun name => !others.contains name) = none ↔ names ⊆ others := by
  rw [List.find?_eq_none]
  refine forall₂_congr fun name _ => ?_
  simp

namespace Rows

variable {rows : Rows} {names : List String}

def projection (rows : Rows) (names : List String) (entry : Entry) : Entry :=
  project (names.map fun name => rows.names.idxOf name) entry

theorem length_projection (entry : Entry) :
    (rows.projection names entry).length = names.length := by
  rw [projection, project, List.length_map, List.length_map]

theorem columns_ok (h : names ⊆ rows.names) :
    rows.columns names = .ok (names.map fun name => rows.names.idxOf name) := by
  refine mapM_ok_map fun name hmem => ?_
  obtain ⟨position, hposition⟩ := Option.isSome_iff_exists.mp (List.isSome_idxOf?.mpr (h hmem))
  rw [List.idxOf_eq_getD_idxOf?, hposition]
  rfl

theorem select_ok (hnames : Labels.ValidNames names) (h : names ⊆ rows.names) :
    rows.select names = .ok ⟨names, rows.entries.map (rows.projection names)⟩ := by
  simp only [select, columns_ok h, bind_ok, Labels.checkNames_ok, pure_ok]
  exact ⟨_, rfl, (), hnames, rfl⟩

end Rows

/-- Distinct names of valid rows are valid names themselves. -/
theorem Rows.Valid.validNames {rows : Rows} {names : List String} (h : rows.Valid)
    (hne : names ≠ []) (hdistinct : names.Nodup) (hsubset : names ⊆ rows.names) :
    Labels.ValidNames names :=
  ⟨hne, fun name hmem => h.names.wellFormed name (hsubset hmem), hdistinct⟩

theorem Labels.Valid.validNames {labels : Labels} {names : List String} (h : labels.Valid)
    (hne : names ≠ []) (hdistinct : names.Nodup) (hsubset : names ⊆ labels.names) :
    ValidNames names :=
  h.rows.validNames hne hdistinct hsubset

-- ---------------------------------------------------------------------------
-- Groups
-- ---------------------------------------------------------------------------

/-- Whether a group keeps an entry: it contains the projection onto its columns. -/
def Labels.keeps (labels group : Labels) (entry : Entry) : Bool :=
  group.contains (labels.projection group.names entry)

theorem keptPositions_ok (axis : Axis) {labels group : Labels}
    (hgroup : Labels.ValidNames group.names) (h : group.names ⊆ labels.names) :
    keptPositions axis labels group =
      .ok (positionsWhere (labels.keeps group) labels.entries) := by
  simp only [keptPositions, find?_foreign.mpr h, Rows.select_ok hgroup h, bind_ok, pure_ok]
  exact ⟨_, rfl, positionsWhere_map ..⟩

-- ---------------------------------------------------------------------------
-- Unique metadata
-- ---------------------------------------------------------------------------

namespace Axis

variable {axis : Axis} {names : List String} {blocks : List Block}

theorem labels_valid (axis : Axis) {block : Block} (h : block.Valid) :
    (axis.labels block).Valid := by
  cases axis with
  | samples => exact h.labelled.samples
  | properties => exact h.labelled.properties

theorem checkHasNames_ok {block : Block} {u : Unit} :
    axis.checkHasNames names block = .ok u ↔ names ⊆ (axis.labels block).names := by
  rw [checkHasNames, ← find?_foreign]
  cases names.find? fun name => !(axis.labels block).names.contains name <;> simp

theorem checkHasNames_error {block : Block} {error : Error} :
    axis.checkHasNames names block = .error error ↔ ∃ name,
      names.find? (fun name => !(axis.labels block).names.contains name) = some name ∧
        error = .invalidArgument (.missingName name axis (axis.labels block).names) := by
  unfold checkHasNames
  cases names.find? fun name => !(axis.labels block).names.contains name <;> simp [eq_comm]

def projections (axis : Axis) (names : List String) (blocks : List Block) : List Entry :=
  blocks.flatMap fun block =>
    (axis.labels block).entries.map ((axis.labels block).projection names)

theorem projections_valid (hnames : Labels.ValidNames names) :
    Rows.Valid ⟨names, axis.projections names blocks⟩ := by
  refine ⟨hnames, fun entry hmem => ?_⟩
  obtain ⟨block, -, hentry⟩ := List.mem_flatMap.mp hmem
  obtain ⟨old, -, rfl⟩ := List.mem_map.mp hentry
  exact Rows.length_projection old

theorem uniqueRows_ok (hnames : Labels.ValidNames names)
    (h : ∀ block ∈ blocks, names ⊆ (axis.labels block).names) :
    axis.uniqueRows names blocks = .ok (Rows.unique ⟨names, axis.projections names blocks⟩) := by
  have hselect : blocks.mapM (fun block => (axis.labels block).select names) = .ok _ :=
    mapM_ok_map fun block hmem => Rows.select_ok hnames (h block hmem)
  have hflat : Rows.ofFlat names (axis.projections names blocks).flatten = .ok ⟨names, _⟩ :=
    Rows.ofFlat_flat (projections_valid hnames)
  simp only [uniqueRows, bind_ok, forM_ok, pure_ok]
  refine ⟨(), fun block hmem => checkHasNames_ok.mpr (h block hmem), _, hselect, _, ?_, rfl⟩
  rw [← hflat]
  simp only [Rows.flat, projections, List.flatMap_map, List.flatten_eq_flatMap, List.flatMap_assoc]

end Axis

end BlockTensor
