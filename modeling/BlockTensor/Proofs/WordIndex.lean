import BlockTensor.Proofs.Array.Slices
import BlockTensor.Proofs.LabelIndex

/-!
# Rows at 64-bit indices

A row is cut out of the flat values between two checked words, so an index finds
its own row or stops the program, and never finds another row (`get_eq`). All
indices of rows are small enough. Past the end, an index gives nothing only while
the end of the row it would have is a word, which the last index of all never
satisfies.
-/

namespace BlockTensor

namespace Rows

/-- Memory holds the rows: their names and their values can be counted in a word. -/
structure InMemory (rows : Rows) : Prop where
  names : rows.size < wordLimit
  values : rows.flat.length < wordLimit

/-- The end of the row at an index, in rows of this size, is a word. -/
def EndsInWord (size : Nat) (index : UInt64) : Prop := (index.toNat + 1) * size < wordLimit

instance (size : Nat) (index : UInt64) : Decidable (EndsInWord size index) :=
  inferInstanceAs (Decidable (_ < _))

/-- Products come first, so that only the last index of a single column gets as far as
the sum. -/
def overflowAt (size : Nat) (index : UInt64) : Panic :=
  if size = 1 ∧ index.toNat + 1 = wordLimit then .sumOverflow else .productOverflow

section
variable {rows : Rows} {index : UInt64}

theorem length_flat (hrows : rows.Valid) : rows.flat.length = rows.length * rows.size :=
  length_flatten_of_length hrows.arity

theorem size_pos (hrows : rows.Valid) : 0 < rows.size := List.length_pos_iff.mpr hrows.names.nonempty

theorem InMemory.toNat_size (h : rows.InMemory) : (UInt64.ofNat rows.size).toNat = rows.size :=
  UInt64.toNat_ofNat_of_lt' h.names

/-- What lies between two words that are the ends of a row. -/
theorem cut_eq (hrows : rows.Valid) {i : Nat} {first last : UInt64}
    (hfirst : first.toNat = i * rows.size) (hlast : last.toNat = (i + 1) * rows.size) :
    (if first ≤ last ∧ last.toNat ≤ rows.flat.length then
      pure (some ((rows.flat.drop first.toNat).take (last.toNat - first.toNat)))
    else pure none : Except Panic (Option Entry)) = .ok rows.entries[i]? := by
  have hordered : first ≤ last := by
    rw [UInt64.le_iff_toNat_le, hfirst, hlast]
    exact Nat.mul_le_mul_right _ (Nat.le_succ i)
  have hlength : last.toNat - first.toNat = rows.size := by
    rw [hfirst, hlast, Nat.succ_mul, Nat.add_sub_cancel_left]
  have hfits : last.toNat ≤ rows.flat.length ↔ i < rows.length := by
    rw [hlast, length_flat hrows]
    exact Nat.mul_le_mul_right_iff (size_pos hrows)
  by_cases hlt : i < rows.length
  · have hrow : (pieces rows.length rows.size rows.flat)[i]? = _ := getElem?_pieces rows.flat hlt
    rw [length, flat, pieces_flatten hrows.arity] at hrow
    rw [if_pos ⟨hordered, hfits.mpr hlt⟩, hlength, hfirst, hrow]
    rfl
  · rw [if_neg fun h => hlt (hfits.mp h.2), List.getElem?_eq_none (Nat.le_of_not_lt hlt)]
    rfl

section
variable (hrows : rows.Valid) (hmemory : rows.InMemory)
include hrows hmemory

theorem get_of_endsInWord (h : EndsInWord rows.size index) :
    rows.get index = .ok (rows.row? index) := by
  have hsize := hmemory.toNat_size
  have hsum : index.toNat + (1 : UInt64).toNat < wordLimit :=
    Nat.lt_of_le_of_lt (Nat.le_mul_of_pos_right _ (size_pos hrows)) h
  have hnext : (index + 1).toNat = index.toNat + 1 := Word.toNat_sum hsum
  have hfirst : index.toNat * (UInt64.ofNat rows.size).toNat < wordLimit := by
    rw [hsize]
    exact Nat.lt_of_le_of_lt (Nat.mul_le_mul_right _ (Nat.le_succ _)) h
  have hlast : (index + 1).toNat * (UInt64.ofNat rows.size).toNat < wordLimit := by
    rwa [hsize, hnext]
  simp only [get, Word.product_of_lt hfirst, Word.sum_of_lt hsum, Word.product_of_lt hlast, bind,
    Except.bind]
  refine cut_eq hrows ?_ ?_
  · rw [Word.toNat_product hfirst, hsize]
  · rw [Word.toNat_product hlast, hnext, hsize]

theorem get_of_not_endsInWord (h : ¬EndsInWord rows.size index) :
    rows.get index = .error (overflowAt rows.size index) := by
  have hsize := hmemory.toNat_size
  have hpos := size_pos hrows
  by_cases hfirst : index.toNat * (UInt64.ofNat rows.size).toNat < wordLimit
  · by_cases hsum : index.toNat + (1 : UInt64).toNat < wordLimit
    · have hnext : (index + 1).toNat = index.toNat + 1 := Word.toNat_sum hsum
      have hlast : wordLimit ≤ (index + 1).toNat * (UInt64.ofNat rows.size).toNat := by
        rw [hsize, hnext]
        exact Nat.le_of_not_lt h
      have hover : overflowAt rows.size index = .productOverflow :=
        if_neg fun hlastindex => Nat.ne_of_lt hsum hlastindex.2
      simp only [get, Word.product_of_lt hfirst, Word.sum_of_lt hsum, bind, Except.bind,
        Word.product_of_le hlast, hover]
    · have hlastindex : index.toNat + 1 = wordLimit :=
        Nat.le_antisymm index.toNat_lt (Nat.le_of_not_lt hsum)
      have hone : rows.size = 1 := by
        -- Twice the last index is not a word.
        rw [hsize] at hfirst
        by_contra hne
        have htwo := Nat.mul_le_mul_left index.toNat (show 2 ≤ rows.size by omega)
        simp only [wordLimit] at hlastindex hfirst
        omega
      have hover : overflowAt rows.size index = .sumOverflow := if_pos ⟨hone, hlastindex⟩
      simp only [get, Word.product_of_lt hfirst, Word.sum_of_le (Nat.le_of_not_lt hsum), bind,
        Except.bind, hover]
  · have hover : overflowAt rows.size index = .productOverflow := by
      refine if_neg fun hlastindex => hfirst ?_
      rw [hsize, hlastindex.1, Nat.mul_one]
      exact index.toNat_lt
    simp only [get, Word.product_of_le (Nat.le_of_not_lt hfirst), bind, Except.bind, hover]

theorem get_eq : rows.get index =
    if EndsInWord rows.size index then .ok (rows.row? index)
    else .error (overflowAt rows.size index) := by
  split
  · exact get_of_endsInWord hrows hmemory ‹_›
  · exact get_of_not_endsInWord hrows hmemory ‹_›

theorem endsInWord_of_lt (h : index.toNat < rows.length) : EndsInWord rows.size index :=
  calc (index.toNat + 1) * rows.size
    _ ≤ rows.length * rows.size := Nat.mul_le_mul_right _ h
    _ = rows.flat.length := (length_flat hrows).symm
    _ < wordLimit := hmemory.values

end

end

theorem not_endsInWord_last {size : Nat} (h : 0 < size) :
    ¬EndsInWord size 0xffffffffffffffff :=
  Nat.not_lt.mpr (Nat.le_mul_of_pos_right wordLimit h)

end Rows

-- ---------------------------------------------------------------------------
-- Labels
-- ---------------------------------------------------------------------------

namespace Labels

variable {labels : Labels} {index : UInt64}

/-- An index below the number of entries names its entry, and any other index is out
of bounds. -/
structure BoundedAt (labels : Labels) (index : UInt64) : Prop where
  row : labels.get index = .ok (labels.row? index)
  entry : labels.entryAt index = match labels.row? index with
    | some entry => .ok entry
    | none => .error (.outOfBounds index labels.length)

theorem boundedAt_of_get (h : labels.get index = .ok (labels.row? index)) :
    labels.BoundedAt index := by
  refine ⟨h, ?_⟩
  cases hrow : labels.row? index <;> simp [entryAt, h, hrow, bind, Except.bind, pure, Except.pure]

theorem entryAt_of_error {panic : Panic} (h : labels.get index = .error panic) :
    labels.entryAt index = .error panic := by
  simp [entryAt, h, bind, Except.bind]

/-- What reading at an index gives. Labels of any rows will do, as nothing here
depends on their being distinct. -/
structure BoundLaws (labels : Labels) : Prop where
  inside : ∀ index : UInt64, index.toNat < labels.length → labels.BoundedAt index
  bounded_iff : ∀ index, labels.BoundedAt index ↔ Rows.EndsInWord labels.size index
  overflow : ∀ index, ¬Rows.EndsInWord labels.size index →
    labels.get index = .error (Rows.overflowAt labels.size index) ∧
    labels.entryAt index = .error (Rows.overflowAt labels.size index)
  /-- No index finds another row, or misses its own. -/
  own_row : ∀ index row, labels.get index = .ok row → row = labels.row? index
  own_entry : ∀ index entry, labels.entryAt index = .ok entry → labels.row? index = some entry
  last : ¬labels.BoundedAt 0xffffffffffffffff

theorem boundLaws {labels : Labels} (hrows : labels.toRows.Valid)
    (hmemory : labels.InMemory) : labels.BoundLaws := by
  have hbounded (index : UInt64) (h : Rows.EndsInWord labels.size index) :
      labels.BoundedAt index := boundedAt_of_get (Rows.get_of_endsInWord hrows hmemory h)
  have hoverflow (index : UInt64) (h : ¬Rows.EndsInWord labels.size index) :
      labels.get index = .error (Rows.overflowAt labels.size index) :=
    Rows.get_of_not_endsInWord hrows hmemory h
  have hiff (index : UInt64) : labels.BoundedAt index ↔ Rows.EndsInWord labels.size index := by
    refine ⟨fun h => ?_, hbounded index⟩
    by_contra hends
    have hrow := h.row
    rw [hoverflow index hends] at hrow
    cases hrow
  constructor
  case inside => exact fun index h => hbounded index (Rows.endsInWord_of_lt hrows hmemory h)
  case bounded_iff => exact hiff
  case overflow => exact fun index h => ⟨hoverflow index h, entryAt_of_error (hoverflow index h)⟩
  case own_row =>
    intro index row hrow
    rw [Rows.get_eq hrows hmemory] at hrow
    split at hrow
    · exact (Except.ok.inj hrow).symm
    · cases hrow
  case own_entry =>
    intro index entry hentry
    by_cases hends : Rows.EndsInWord labels.size index
    · rw [(hbounded index hends).entry] at hentry
      split at hentry
      next found hfound => rw [hfound, Except.ok.inj hentry]
      next => cases hentry
    · rw [entryAt_of_error (hoverflow index hends)] at hentry
      cases hentry
  case last => exact fun h => Rows.not_endsInWord_last (Rows.size_pos hrows) ((hiff _).mp h)

theorem boundLaws_joinedAtoms : joinedAtoms.toRows.Valid ∧ joinedAtoms.InMemory ∧
    joinedAtoms.BoundLaws ∧ joinedAtoms.get 2 = .ok (some [5, 0]) ∧
    joinedAtoms.get 3 = .ok none ∧ joinedAtoms.entryAt 3 = .error (.outOfBounds 3 3) ∧
    joinedAtoms.entryAt 0x8000000000000002 = .error .productOverflow := by
  have hvalid : joinedAtoms.toRows.Valid := (built_joinedAtoms.valid).rows
  have hmemory : joinedAtoms.InMemory := ⟨by decide, by decide⟩
  exact ⟨hvalid, hmemory, boundLaws hvalid hmemory, rfl, rfl, rfl, rfl⟩

/-- Index `2 ^ 63` is past the end of any labels, but with two columns it stops the
program where there should be nothing. -/
theorem not_boundedAt : ¬∀ (labels : Labels) (index : UInt64), labels.Valid → labels.InMemory →
    labels.BoundedAt index := by
  intro h
  have hmemory : joinedAtoms.InMemory := ⟨by decide, by decide⟩
  have hrow := (h joinedAtoms 0x8000000000000000 built_joinedAtoms.valid hmemory).row
  have hstopped : joinedAtoms.get 0x8000000000000000 = .error .productOverflow := rfl
  rw [hstopped] at hrow
  cases hrow

end Labels

end BlockTensor
