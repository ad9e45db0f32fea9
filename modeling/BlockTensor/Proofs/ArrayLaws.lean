import BlockTensor.Array.Values
import BlockTensor.Proofs.Checks

/-!
# Valid arrays

Every array operation gives a valid array. Operations on single elements keep
the element type and the shape besides (`Values.KeepsLayout`); selecting along
an axis changes the length of that axis only.
-/

namespace BlockTensor

theorem le_volume_filter_pos {shape : List Nat} {length : Nat} (hmem : length ∈ shape) :
    length ≤ volume (shape.filter (· ≠ 0)) := by
  induction shape with
  | nil => cases hmem
  | cons first rest ih =>
    by_cases hfirst : first = 0
    · rcases List.mem_cons.mp hmem with rfl | hmem
      · omega
      · simpa [hfirst] using ih hmem
    · rw [List.filter_cons_of_pos (by simpa using hfirst), volume]
      rcases List.mem_cons.mp hmem with rfl | hmem
      · exact Nat.le_mul_of_pos_right _ (volume_filter_pos rest)
      · exact Nat.le_trans (ih hmem) (Nat.le_mul_of_pos_left _ (Nat.pos_of_ne_zero hfirst))

namespace Dense

variable {α β : Type}

theorem map_valid {a : Dense α} (f : α → β) (h : a.Valid) : (a.map f).Valid :=
  ⟨by simpa [map] using h.size, h.bounded⟩

theorem full_valid {shape : List Nat} (value : α)
    (h : volume (shape.filter (· ≠ 0)) < sizeLimit) : (full shape value).Valid :=
  ⟨by simp [full], h⟩

theorem tabulate_valid {shape : List Nat} (element : Nat → α)
    (h : volume (shape.filter (· ≠ 0)) < sizeLimit) : (tabulate shape element).Valid :=
  ⟨by simp [tabulate], h⟩

theorem select_valid {a b : Dense α} {axis : Nat} {indices : List Nat}
    (h : a.select axis indices = .ok b) :
    b.Valid ∧ b.shape = a.shape.set axis indices.length := by
  unfold select at h
  split at h
  · cases h
  · split at h
    · cases h
    · obtain ⟨rfl, hvalid⟩ := ofShape_ok.mp h
      exact ⟨hvalid, rfl⟩

theorem combine_valid {op : α → α → α} {left right result : Dense α}
    (h : combine op left right = .ok result) : result.Valid ∧ result.shape = left.shape := by
  simp only [combine, bind_ok, ensure_ok] at h
  obtain ⟨_, _, h⟩ := h
  obtain ⟨rfl, hvalid⟩ := ofShape_ok.mp h
  exact ⟨hvalid, rfl⟩

theorem Valid.length_lt {a : Dense α} (h : a.Valid) {length : Nat} (hmem : length ∈ a.shape) :
    length < sizeLimit :=
  Nat.lt_of_le_of_lt (le_volume_filter_pos hmem) h.bounded

end Dense

namespace Values

structure KeepsLayout (f : Values → Values) : Prop where
  dtype : ∀ a, (f a).dtype = a.dtype
  shape : ∀ a, (f a).shape = a.shape
  valid : ∀ a, a.Valid → (f a).Valid

theorem keepsLayout_addScalar (scalar : Double) : KeepsLayout (addScalar scalar) where
  dtype a := by cases a <;> rfl
  shape a := by cases a <;> rfl
  valid a h := by cases a <;> exact Dense.map_valid _ h

theorem keepsLayout_mulScalar (scalar : Double) : KeepsLayout (mulScalar scalar) where
  dtype a := by cases a <;> rfl
  shape a := by cases a <;> rfl
  valid a h := by cases a <;> exact Dense.map_valid _ h

theorem keepsLayout_logistic : KeepsLayout logistic where
  dtype a := by cases a <;> rfl
  shape a := by cases a <;> rfl
  valid a h := by cases a <;> exact Dense.map_valid _ h

theorem keepsLayout_zeroed : KeepsLayout zeroed where
  dtype a := by cases a <;> rfl
  shape a := by cases a <;> rfl
  valid a h := by cases a <;> exact Dense.full_valid _ h.bounded

theorem keepsLayout_redrawn (draw : Nat → Float) (low high : Double) :
    KeepsLayout fun a => a.redrawn draw low high where
  dtype a := by cases a <;> rfl
  shape a := by cases a <;> rfl
  valid a h := by cases a <;> exact Dense.tabulate_valid _ h.bounded

theorem checked_ok {a b : Values} : a.checked = .ok b ↔ a = b ∧ b.Valid := by
  cases a <;> simp only [checked, map_ok, Dense.ofShape_ok] <;> constructor
  · rintro ⟨array, ⟨rfl, hvalid⟩, rfl⟩
    exact ⟨rfl, hvalid⟩
  · rintro ⟨rfl, hvalid⟩
    exact ⟨_, ⟨rfl, hvalid⟩, rfl⟩
  · rintro ⟨array, ⟨rfl, hvalid⟩, rfl⟩
    exact ⟨rfl, hvalid⟩
  · rintro ⟨rfl, hvalid⟩
    exact ⟨_, ⟨rfl, hvalid⟩, rfl⟩

theorem select_valid {a b : Values} {axis : Nat} {indices : List Nat}
    (h : a.select axis indices = .ok b) :
    b.Valid ∧ b.dtype = a.dtype ∧ b.shape = a.shape.set axis indices.length := by
  cases a <;> simp only [select, map_ok] at h <;> obtain ⟨array, harray, rfl⟩ := h
  · obtain ⟨hvalid, hshape⟩ := Dense.select_valid harray
    exact ⟨hvalid, rfl, hshape⟩
  · obtain ⟨hvalid, hshape⟩ := Dense.select_valid harray
    exact ⟨hvalid, rfl, hshape⟩

theorem add_valid {left right sum : Values} (h : left.add right = .ok sum) :
    sum.Valid ∧ sum.dtype = left.dtype ∧ sum.shape = left.shape := by
  cases left <;> cases right <;> simp only [add, map_ok, reduceCtorEq] at h <;>
    obtain ⟨array, harray, rfl⟩ := h
  · obtain ⟨hvalid, hshape⟩ := Dense.combine_valid harray
    exact ⟨hvalid, rfl, hshape⟩
  · obtain ⟨hvalid, hshape⟩ := Dense.combine_valid harray
    exact ⟨hvalid, rfl, hshape⟩

theorem Valid.length_lt {a : Values} (h : a.Valid) {length : Nat} (hmem : length ∈ a.shape) :
    length < sizeLimit := by
  cases a <;> exact Dense.Valid.length_lt h hmem

end Values

end BlockTensor
