import BlockTensor.Proofs.Built

/-!
# Labels that are built are indexed

Only `ofFlat`, `ofEntries` and `ofRows` look for repeated entries. A range, a
sorted projection, a union and an intersection take their entries to be
distinct, and the index of any labels relies on it. `indexed_of_built` says that
it may: whatever sequence of operations gave the labels, their index finds each
entry at its one position and nothing else.
-/

namespace BlockTensor

namespace Labels

structure Indexed (labels : Labels) : Prop where
  names : ValidNames labels.names
  /-- The flat values are whole rows, and the rows are the entries. -/
  whole : labels.flat.length = labels.length * labels.size
  rows : pieces labels.length labels.size labels.flat = labels.entries
  distinct : labels.entries.Nodup
  /-- No entry was put into the index over another one. -/
  size : labels.index.size = labels.length
  position : ∀ entry i, labels.position? entry = some i ↔ labels.entries[i]? = some entry
  contains : ∀ entry, labels.contains entry = true ↔ entry ∈ labels.entries

theorem Valid.indexed {labels : Labels} (h : labels.Valid) : labels.Indexed where
  names := h.rows.names
  whole := length_flatten_of_length h.rows.arity
  rows := pieces_flatten h.rows.arity
  distinct := h.distinct
  size := Rows.size_index h.distinct
  position _ _ := position?_eq_some_iff h.distinct
  contains _ := contains_iff

end Labels

theorem indexed_of_built : ∀ labels, Built (.labels labels) → labels.Indexed :=
  fun _ h => Labels.Valid.indexed h.valid

/-- Two of the atoms `(0, 1)`, `(2, -3)` and `(5, 0)`, then all three. -/
def joinedAtoms : Labels := ⟨⟨["system", "atom"], [[2, -3], [0, 1], [5, 0]]⟩⟩

theorem built_joinedAtoms : Built (.labels joinedAtoms) := by
  have hleft : Labels.ofFlat ["system", "atom"] [2, -3, 0, 1] =
    .ok ⟨⟨["system", "atom"], [[2, -3], [0, 1]]⟩⟩ := rfl
  have hright : Labels.ofFlat ["system", "atom"] [5, 0, 2, -3] =
    .ok ⟨⟨["system", "atom"], [[5, 0], [2, -3]]⟩⟩ := rfl
  exact .union (.ofFlat hleft) (.ofFlat hright) rfl

theorem indexed_of_built_joinedAtoms : Built (.labels joinedAtoms) ∧ joinedAtoms.Indexed ∧
    joinedAtoms.position? [5, 0] = some 2 ∧ joinedAtoms.position? [5] = none :=
  ⟨built_joinedAtoms, indexed_of_built _ built_joinedAtoms, rfl, rfl⟩

end BlockTensor
