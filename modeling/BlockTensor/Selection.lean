/-!
# Rows of a list, and elements by position

Row-major data is a list that is read in rows of one length. `pieces` cuts it,
`positionsWhere` finds elements and `pick` gathers them. `flatten_pieces` says
that cutting loses nothing.
-/

namespace BlockTensor

/-- `count` consecutive pieces of `size` elements each. -/
def pieces {α : Type} : (count size : Nat) → List α → List (List α)
  | 0, _, _ => []
  | count + 1, size, items => items.take size :: pieces count size (items.drop size)

theorem flatten_pieces {α : Type} {count size : Nat} {items : List α}
    (h : items.length = count * size) : (pieces count size items).flatten = items := by
  induction count generalizing items with
  | zero => exact (List.length_eq_zero_iff.mp (by simpa using h)).symm
  | succ count ih =>
    rw [Nat.succ_mul] at h
    simp only [pieces, List.flatten_cons]
    rw [ih (by rw [List.length_drop]; omega), List.take_append_drop]

theorem length_of_mem_pieces {α : Type} {count size : Nat} {items piece : List α}
    (h : items.length = count * size) (hmem : piece ∈ pieces count size items) :
    piece.length = size := by
  induction count generalizing items with
  | zero => simp [pieces] at hmem
  | succ count ih =>
    rw [Nat.succ_mul] at h
    rcases List.mem_cons.mp hmem with rfl | hmem
    · rw [List.length_take]; omega
    · exact ih (by rw [List.length_drop]; omega) hmem

/-- The elements at `positions`, in the order of `positions`. Positions past
the end name nothing. -/
def pick {α : Type} (positions : List Nat) (items : List α) : List α :=
  positions.filterMap fun i => items[i]?

def positionsWhere {α : Type} (test : α → Bool) (items : List α) : List Nat :=
  (items.zipIdx.filter fun pair => test pair.1).map fun pair => pair.2

end BlockTensor
