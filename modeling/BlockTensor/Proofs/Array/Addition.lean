import BlockTensor.Proofs.Sums

/-!
# Adding arrays

Arrays of one element type have a sum exactly if their shapes are equal. If not,
the error reports the first axis on which both have a length and the lengths
differ. There may be none, because one shape continues the other; then axis 0 is
reported, on which the lengths are the same unless one of the shapes has no axis
(`names_iff`).
-/

namespace BlockTensor

-- ---------------------------------------------------------------------------
-- Shapes
-- ---------------------------------------------------------------------------

/-- The first axis of both shapes on which their lengths differ. -/
structure FirstDifference (left right : List Nat) (axis leftLength rightLength : Nat) : Prop where
  atLeft : left[axis]? = some leftLength
  atRight : right[axis]? = some rightLength
  ne : leftLength ≠ rightLength
  before : ∀ i, i < axis → left[i]? = right[i]?

def Continues (left right : List Nat) : Prop := left <+: right ∨ right <+: left

theorem continues_of_zip {left right : List Nat}
    (h : ∀ pair ∈ left.zip right, pair.1 = pair.2) : Continues left right := by
  induction left generalizing right with
  | nil => exact .inl List.nil_prefix
  | cons m left ih =>
    cases right with
    | nil => exact .inr List.nil_prefix
    | cons n right =>
      rw [List.zip_cons_cons, List.forall_mem_cons] at h
      obtain ⟨hhead : m = n, hrest⟩ := h
      subst hhead
      exact (ih hrest).imp (List.prefix_cons_inj m).mpr (List.prefix_cons_inj m).mpr

section
variable {left right : List Nat} {axis other m n m' n' : Nat}

theorem FirstDifference.getElem?_ne (h : FirstDifference left right axis m n) :
    left[axis]? ≠ right[axis]? := by
  rw [h.atLeft, h.atRight]
  exact fun heq => h.ne (Option.some.inj heq)

theorem FirstDifference.not_continues (h : FirstDifference left right axis m n) :
    ¬Continues left right := by
  rintro (⟨rest, rfl⟩ | ⟨rest, rfl⟩)
  · have hlt := (List.getElem?_eq_some_iff.mp h.atLeft).1
    exact h.getElem?_ne (List.getElem?_append_left hlt).symm
  · have hlt := (List.getElem?_eq_some_iff.mp h.atRight).1
    exact h.getElem?_ne (List.getElem?_append_left hlt)

theorem FirstDifference.axis_unique (h : FirstDifference left right axis m n)
    (h' : FirstDifference left right other m' n') : axis = other := by
  rcases Nat.lt_trichotomy axis other with hlt | heq | hlt
  · exact absurd (h'.before _ hlt) h.getElem?_ne
  · exact heq
  · exact absurd (h.before _ hlt) h'.getElem?_ne

end

theorem firstDifference_or_continues (left right : List Nat) :
    (∃ m n, FirstDifference left right (Dense.mismatchAxis left right) m n) ∨
      Continues left right ∧ Dense.mismatchAxis left right = 0 := by
  unfold Dense.mismatchAxis
  cases hfind : (left.zip right).findIdx? fun pair => pair.1 != pair.2 with
  | none =>
    rw [List.findIdx?_eq_none_iff] at hfind
    exact .inr ⟨continues_of_zip fun pair hmem => by simpa using hfind pair hmem, rfl⟩
  | some axis =>
    obtain ⟨haxis, hne, hbefore⟩ := List.findIdx?_eq_some_iff_getElem.mp hfind
    rw [List.length_zip, Nat.lt_min] at haxis
    obtain ⟨hleft, hright⟩ := haxis
    refine .inl ⟨left[axis], right[axis], ?_⟩
    exact {
      atLeft := List.getElem?_eq_getElem hleft
      atRight := List.getElem?_eq_getElem hright
      ne := by simpa using hne
      before := by
        intro i (hi : i < axis)
        have hil : i < left.length := Nat.lt_trans hi hleft
        have hir : i < right.length := Nat.lt_trans hi hright
        have hsame : left[i] = right[i] := by simpa using hbefore i hi
        rw [List.getElem?_eq_getElem hil, List.getElem?_eq_getElem hir, hsame] }

-- ---------------------------------------------------------------------------
-- Sums
-- ---------------------------------------------------------------------------

namespace Values

/-- The error reports two different lengths, those of an axis on which the shapes
differ. An axis that a shape does not have counts as empty. -/
def NamesMismatch (left right : List Nat) (error : Error) : Prop :=
  ∃ axis, left[axis]? ≠ right[axis]? ∧ left.getD axis 0 ≠ right.getD axis 0 ∧
    error = .shapeMismatch (.addition axis left right) (left.getD axis 0) (right.getD axis 0)

structure AdditionLaws (a b : Values) : Prop where
  ok_iff : (∃ sum, a.add b = .ok sum) ↔ a.shape = b.shape
  sum : ∀ sum, a.add b = .ok sum → sum.shape = a.shape ∧ a.IsSum b sum
  difference : ∀ axis m n, FirstDifference a.shape b.shape axis m n →
    a.add b = .error (.shapeMismatch (.addition axis a.shape b.shape) m n)
  continuation : a.shape ≠ b.shape → Continues a.shape b.shape → a.add b =
    .error (.shapeMismatch (.addition 0 a.shape b.shape) (a.shape.headD 0) (b.shape.headD 0))
  names_iff : ∀ error, a.add b = .error error → (NamesMismatch a.shape b.shape error ↔
    ¬(Continues a.shape b.shape ∧ a.shape.headD 0 = b.shape.headD 0))

section
variable {a b : Values} (hdtype : a.dtype = b.dtype)
include hdtype

theorem add_of_shape_ne (hshape : a.shape ≠ b.shape) :
    a.add b = .error (.shapeMismatch
      (.addition (Dense.mismatchAxis a.shape b.shape) a.shape b.shape)
      (a.shape.getD (Dense.mismatchAxis a.shape b.shape) 0)
      (b.shape.getD (Dense.mismatchAxis a.shape b.shape) 0)) := by
  cases a <;> cases b <;> cases hdtype
  all_goals
    simp only [shape] at hshape ⊢
    rw [add, Dense.combine, ensure_of_not hshape]
    rfl

theorem add_of_firstDifference {axis m n : Nat}
    (h : FirstDifference a.shape b.shape axis m n) :
    a.add b = .error (.shapeMismatch (.addition axis a.shape b.shape) m n) := by
  have hshape : a.shape ≠ b.shape := fun heq => h.not_continues (heq ▸ .inl (List.prefix_refl _))
  have haxis : Dense.mismatchAxis a.shape b.shape = axis := by
    obtain ⟨m', n', hfound⟩ | ⟨hcontinues, -⟩ := firstDifference_or_continues a.shape b.shape
    · exact hfound.axis_unique h
    · exact absurd hcontinues h.not_continues
  rw [add_of_shape_ne hdtype hshape, haxis, List.getD_eq_getElem?_getD,
    List.getD_eq_getElem?_getD, h.atLeft, h.atRight]
  rfl

theorem add_of_continues (hshape : a.shape ≠ b.shape) (h : Continues a.shape b.shape) : a.add b =
    .error (.shapeMismatch (.addition 0 a.shape b.shape) (a.shape.headD 0) (b.shape.headD 0)) := by
  have haxis : Dense.mismatchAxis a.shape b.shape = 0 := by
    obtain ⟨m, n, hfound⟩ | ⟨-, haxis⟩ := firstDifference_or_continues a.shape b.shape
    · exact absurd h hfound.not_continues
    · exact haxis
  rw [add_of_shape_ne hdtype hshape, haxis]
  cases a.shape <;> cases b.shape <;> rfl

end

theorem namesMismatch_iff {left right : List Nat} {axis m n : Nat} :
    NamesMismatch left right (.shapeMismatch (.addition axis left right) m n) ↔
      left[axis]? ≠ right[axis]? ∧ m ≠ n ∧ m = left.getD axis 0 ∧ n = right.getD axis 0 := by
  constructor
  · rintro ⟨_, haxis, hlengths, h⟩
    cases h
    exact ⟨haxis, hlengths, rfl, rfl⟩
  · rintro ⟨haxis, hlengths, rfl, rfl⟩
    exact ⟨axis, haxis, hlengths, rfl⟩

theorem shape_of_add {a b sum : Values} (hdtype : a.dtype = b.dtype) (h : a.add b = .ok sum) :
    a.shape = b.shape := by
  by_contra hshape
  rw [add_of_shape_ne hdtype hshape] at h
  cases h

section
variable {a b : Values} (ha : a.Valid) (hb : b.Valid) (hdtype : a.dtype = b.dtype)
include ha hb hdtype

theorem exists_add_iff : (∃ sum, a.add b = .ok sum) ↔ a.shape = b.shape := by
  constructor
  · rintro ⟨sum, hsum⟩
    exact shape_of_add hdtype hsum
  · intro hshape
    obtain ⟨sum, hsum, -⟩ := add_of_shape ha hb hdtype hshape
    exact ⟨sum, hsum⟩

theorem add_error_namesMismatch_iff {error : Error} (herror : a.add b = .error error) :
    NamesMismatch a.shape b.shape error ↔
      ¬(Continues a.shape b.shape ∧ a.shape.headD 0 = b.shape.headD 0) := by
  obtain ⟨m, n, hfound⟩ | ⟨hcontinues, -⟩ := firstDifference_or_continues a.shape b.shape
  · rw [add_of_firstDifference hdtype hfound] at herror
    cases herror
    refine iff_of_true (namesMismatch_iff.mpr ⟨hfound.getElem?_ne, hfound.ne, ?_, ?_⟩)
      fun h => hfound.not_continues h.1
    · rw [List.getD_eq_getElem?_getD, hfound.atLeft]
      rfl
    · rw [List.getD_eq_getElem?_getD, hfound.atRight]
      rfl
  · have hshape : a.shape ≠ b.shape := fun heq => by
      obtain ⟨sum, hsum⟩ := (exists_add_iff ha hb hdtype).mpr heq
      cases hsum.symm.trans herror
    rw [add_of_continues hdtype hshape hcontinues] at herror
    cases herror
    have hhead (shape : List Nat) : shape.headD 0 = shape.getD 0 0 := by cases shape <;> rfl
    rw [namesMismatch_iff]
    constructor
    · rintro ⟨-, hne, -, -⟩ ⟨-, heq⟩
      exact hne heq
    · intro h
      have hne : a.shape.headD 0 ≠ b.shape.headD 0 := fun heq => h ⟨hcontinues, heq⟩
      refine ⟨fun hsame => hne ?_, hne, hhead _, hhead _⟩
      rw [hhead, hhead, List.getD_eq_getElem?_getD, List.getD_eq_getElem?_getD, hsame]

end

theorem addition_laws {a b : Values} (ha : a.Valid) (hb : b.Valid) (hdtype : a.dtype = b.dtype) :
    AdditionLaws a b where
  ok_iff := exists_add_iff ha hb hdtype
  sum := by
    intro sum hsum
    obtain ⟨found, hfound, hisSum⟩ := add_of_shape ha hb hdtype (shape_of_add hdtype hsum)
    cases hfound.symm.trans hsum
    exact ⟨(add_valid hsum).2.2, hisSum⟩
  difference _ _ _ := add_of_firstDifference hdtype
  continuation := add_of_continues hdtype
  names_iff _ := add_error_namesMismatch_iff ha hb hdtype

def square : Values := .float64 ⟨[2, 2], List.replicate 4 .zero⟩

def row : Values := .float64 ⟨[2], List.replicate 2 .zero⟩

theorem square_valid : square.Valid := ⟨by decide, by decide⟩

theorem row_valid : row.Valid := ⟨by decide, by decide⟩

theorem addition_laws_square :
    square.Valid ∧ row.Valid ∧ square.dtype = row.dtype ∧ AdditionLaws square row ∧
      (∃ sum, square.add square = .ok sum ∧ square.IsSum square sum) ∧
      square.add row = .error (.shapeMismatch (.addition 0 [2, 2] [2]) 2 2) := by
  have hsame := addition_laws square_valid square_valid rfl
  have hlaws := addition_laws square_valid row_valid rfl
  obtain ⟨sum, hsum⟩ := hsame.ok_iff.mpr rfl
  refine ⟨square_valid, row_valid, rfl, hlaws, ⟨sum, hsum, (hsame.sum sum hsum).2⟩, ?_⟩
  exact hlaws.continuation (by decide) (.inr ⟨[2], rfl⟩)

/-- The two lengths that are reported may be the same. -/
theorem not_namesMismatch : ¬∀ a b : Values, a.Valid → b.Valid → a.dtype = b.dtype →
    a.shape ≠ b.shape → ∃ error, a.add b = .error error ∧ NamesMismatch a.shape b.shape error := by
  intro h
  obtain ⟨error, herror, hnames⟩ := h square row square_valid row_valid rfl (by decide)
  have hdtype : square.dtype = row.dtype := rfl
  rw [add_of_continues hdtype (by decide) (.inr ⟨[2], rfl⟩)] at herror
  cases herror
  exact (namesMismatch_iff.mp hnames).2.1 rfl

end Values

end BlockTensor
