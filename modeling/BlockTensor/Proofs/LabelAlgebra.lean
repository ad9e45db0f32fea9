import BlockTensor.Proofs.LabelLaws

/-!
# The algebra of ordered sets

Labels over one list of names are an ordered set. A union puts the new entries
of the right operand behind the left one, and an intersection leaves entries of
the left operand out, so neither changes an order. The laws of sets hold of them
as equations between sequences, apart from the two that exchange the operands
(`ordered_algebra`). Over different names both are refused.
-/

namespace BlockTensor.Labels

variable {a b c : Labels}

-- ---------------------------------------------------------------------------
-- Results without the check of the names
-- ---------------------------------------------------------------------------

def joined (left right : Labels) : Labels :=
  ⟨⟨left.names, left.entries ++ right.entries.filter fun entry => entry ∉ left.entries⟩⟩

def common (left right : Labels) : Labels :=
  ⟨⟨left.names, left.entries.filter fun entry => entry ∈ right.entries⟩⟩

@[simp] theorem names_joined : (a.joined b).names = a.names := rfl

@[simp] theorem names_common : (a.common b).names = a.names := rfl

theorem mem_joined {entry : Entry} :
    entry ∈ (a.joined b).entries ↔ entry ∈ a.entries ∨ entry ∈ b.entries := by
  by_cases h : entry ∈ a.entries <;> simp [joined, h]

theorem mem_common {entry : Entry} :
    entry ∈ (a.common b).entries ↔ entry ∈ a.entries ∧ entry ∈ b.entries := by
  simp [common]

theorem union_eq (h : a.names = b.names) : a.union b = .ok (a.joined b) :=
  union_ok.mpr ⟨h, by simp only [joined, decide_not, List.contains_eq_mem]⟩

theorem intersection_eq (h : a.names = b.names) : a.intersection b = .ok (a.common b) :=
  intersection_ok.mpr ⟨h, by simp only [common, ← List.contains_eq_mem]⟩

theorem union_of_names_ne (h : a.names ≠ b.names) :
    a.union b = .error (.invalidLabels (.differentNames "union" a.names b.names)) := by
  rw [union, checkSameNames, ensure_of_not h]
  rfl

theorem intersection_of_names_ne (h : a.names ≠ b.names) :
    a.intersection b =
      .error (.invalidLabels (.differentNames "intersection" a.names b.names)) := by
  rw [intersection, checkSameNames, ensure_of_not h]
  rfl

-- ---------------------------------------------------------------------------
-- Laws
-- ---------------------------------------------------------------------------

theorem joined_of_subset (h : b.entries ⊆ a.entries) : a.joined b = a := by
  have hnone : (b.entries.filter fun entry => entry ∉ a.entries) = [] := by
    simpa using fun entry hmem => h hmem
  rw [joined, hnone, List.append_nil]

theorem common_of_subset (h : a.entries ⊆ b.entries) : a.common b = a := by
  have hall : (a.entries.filter fun entry => entry ∈ b.entries) = a.entries := by
    simpa using fun entry hmem => h hmem
  rw [common, hall]

theorem joined_assoc : (a.joined b).joined c = a.joined (b.joined c) := by
  have hlast : (c.entries.filter fun entry => entry ∉ (a.joined b).entries) =
      (c.entries.filter fun entry => entry ∉ b.entries).filter fun entry => entry ∉ a.entries := by
    rw [List.filter_filter]
    refine List.filter_congr fun entry _ => ?_
    simp only [mem_joined, not_or, Bool.decide_and]
  rw [joined, hlast]
  simp only [joined, List.filter_append, List.append_assoc]

theorem common_assoc : (a.common b).common c = a.common (b.common c) := by
  have hboth : (a.entries.filter fun entry => entry ∈ (b.common c).entries) =
      (a.entries.filter fun entry => entry ∈ b.entries).filter fun entry => entry ∈ c.entries := by
    rw [List.filter_filter]
    refine List.filter_congr fun entry _ => ?_
    simp only [mem_common, Bool.decide_and, Bool.and_comm]
  rw [common, common, common, hboth]

theorem common_joined_left : (a.joined b).common a = a := by
  have hold : (a.entries.filter fun entry => entry ∈ a.entries) = a.entries := by simp
  have hnew : ((b.entries.filter fun entry => entry ∉ a.entries).filter
      fun entry => entry ∈ a.entries) = [] := by simp
  rw [common, joined, List.filter_append, hold, hnew, List.append_nil]

theorem joined_common : a.joined (b.common c) = (a.joined b).common (a.joined c) := by
  have hold : (a.entries.filter fun entry => entry ∈ (a.joined c).entries) = a.entries := by
    simpa using fun entry hmem => mem_joined.mpr (.inl hmem)
  have hnew : ((b.entries.filter fun entry => entry ∉ a.entries).filter
      fun entry => entry ∈ (a.joined c).entries) =
        (b.common c).entries.filter fun entry => entry ∉ a.entries := by
    rw [common, List.filter_filter, List.filter_filter]
    refine List.filter_congr fun entry _ => ?_
    by_cases h : entry ∈ a.entries <;> simp [mem_joined, h]
  conv_rhs => rw [common, joined, List.filter_append, hold, hnew]
  rfl

/-- The entries that are in both are counted once on either side. -/
theorem length_joined_add_length_common (ha : a.entries.Nodup) (hb : b.entries.Nodup) :
    (a.joined b).length + (a.common b).length = a.length + b.length := by
  have hsame (entry : Entry) : entry ∈ (a.common b).entries ↔ entry ∈ (b.common a).entries := by
    rw [mem_common, mem_common, and_comm]
  have hperm := (List.perm_ext_iff_of_nodup (ha.filter _) (hb.filter _)).mpr hsame
  have hsplit := (List.filter_append_perm (fun entry => entry ∈ a.entries) b.entries).length_eq
  have hcommon := hperm.length_eq
  simp only [joined, common, Rows.length, List.length_append, decide_not] at hsplit hcommon ⊢
  omega

-- ---------------------------------------------------------------------------
-- Union and intersection
-- ---------------------------------------------------------------------------

/-- Labels over one list of names, as sequences. -/
structure OrderedAlgebra (a b c : Labels) : Prop where
  union : a.union b = .ok
    ⟨⟨a.names, a.entries ++ b.entries.filter fun entry => entry ∉ a.entries⟩⟩
  position : ∀ all, a.union b = .ok all → ∀ entry i, a.position? entry = some i →
    all.position? entry = some i
  intersection : a.intersection b = .ok
    ⟨⟨a.names, a.entries.filter fun entry => entry ∈ b.entries⟩⟩
  union_assoc : ∃ all, (do (← a.union b).union c) = .ok all ∧ (do a.union (← b.union c)) = .ok all
  intersection_assoc : ∃ both, (do (← a.intersection b).intersection c) = .ok both ∧
    (do a.intersection (← b.intersection c)) = .ok both
  union_self : a.union a = .ok a
  intersection_self : a.intersection a = .ok a
  intersection_of_union : (do (← a.union b).intersection a) = .ok a
  intersection_union : (do a.intersection (← a.union b)) = .ok a
  union_intersection : (do a.union (← a.intersection b)) = .ok a
  distributes : ∃ kept, (do a.union (← b.intersection c)) = .ok kept ∧
    (do (← a.union b).intersection (← a.union c)) = .ok kept
  length : ∀ all both, a.union b = .ok all → a.intersection b = .ok both →
    all.length + both.length = a.length + b.length

theorem position?_joined (ha : a.Valid) (hb : b.Valid) (hnames : a.names = b.names)
    {entry : Entry} {i : Nat} (h : a.position? entry = some i) :
    (a.joined b).position? entry = some i := by
  rw [position?_eq_some_iff ha.distinct] at h
  rw [position?_eq_some_iff (union_valid ha hb (union_eq hnames)).distinct]
  exact List.getElem?_append_left (List.getElem?_eq_some_iff.mp h).1 ▸ h

theorem orderedAlgebra_of_names (ha : a.Valid) (hb : b.Valid) (hab : a.names = b.names)
    (hac : a.names = c.names) : OrderedAlgebra a b c where
  union := union_eq hab
  position all hall entry i h := by
    cases (union_eq hab).symm.trans hall
    exact position?_joined ha hb hab h
  intersection := intersection_eq hab
  union_assoc := by
    rw [union_eq hab, union_eq (hab.symm.trans hac)]
    exact ⟨_, union_eq hac, joined_assoc ▸ union_eq hab⟩
  intersection_assoc := by
    rw [intersection_eq hab, intersection_eq (hab.symm.trans hac)]
    exact ⟨_, intersection_eq hac, common_assoc ▸ intersection_eq hab⟩
  union_self := by rw [union_eq rfl, joined_of_subset (List.Subset.refl _)]
  intersection_self := by rw [intersection_eq rfl, common_of_subset (List.Subset.refl _)]
  intersection_of_union := by
    rw [union_eq hab]
    show (a.joined b).intersection a = .ok a
    rw [intersection_eq names_joined, common_joined_left]
  intersection_union := by
    rw [union_eq hab]
    show a.intersection (a.joined b) = .ok a
    rw [intersection_eq names_joined.symm,
      common_of_subset fun entry hmem => mem_joined.mpr (.inl hmem)]
  union_intersection := by
    rw [intersection_eq hab]
    show a.union (a.common b) = .ok a
    rw [union_eq names_common.symm, joined_of_subset fun entry hmem => (mem_common.mp hmem).1]
  distributes := by
    rw [union_eq hab, union_eq hac, intersection_eq (hab.symm.trans hac)]
    exact ⟨_, union_eq hab, joined_common ▸ intersection_eq rfl⟩
  length all both hall hboth := by
    cases (union_eq hab).symm.trans hall
    cases (intersection_eq hab).symm.trans hboth
    exact length_joined_add_length_common ha.distinct hb.distinct

theorem ordered_algebra (ha : a.Valid) (hb : b.Valid) :
    (a.names = b.names → ∀ c : Labels, c.Valid → c.names = a.names → OrderedAlgebra a b c) ∧
      (a.names ≠ b.names →
        a.union b = .error (.invalidLabels (.differentNames "union" a.names b.names)) ∧
          a.intersection b =
            .error (.invalidLabels (.differentNames "intersection" a.names b.names))) := by
  constructor
  · intro hab c _ hac
    exact orderedAlgebra_of_names ha hb hab hac.symm
  · intro hne
    exact ⟨union_of_names_ne hne, intersection_of_names_ne hne⟩

def someAtoms (first second third : Entry) : Labels :=
  ⟨⟨["system", "atom"], [first, second, third]⟩⟩

theorem ordered_algebra_atoms :
    let a := someAtoms [2, -3] [0, 1] [5, 0]
    let b := someAtoms [7, 7] [5, 0] [2, -3]
    let c := someAtoms [5, 0] [-1, 4] [7, 7]
    a.Valid ∧ b.Valid ∧ c.Valid ∧ OrderedAlgebra a b c ∧
      a.union single = .error (.invalidLabels (.differentNames "union" ["system", "atom"] ["_"])) ∧
      a.intersection single =
        .error (.invalidLabels (.differentNames "intersection" ["system", "atom"] ["_"])) := by
  have ha : ofFlat ["system", "atom"] [2, -3, 0, 1, 5, 0] =
    .ok (someAtoms [2, -3] [0, 1] [5, 0]) := rfl
  have hb : ofFlat ["system", "atom"] [7, 7, 5, 0, 2, -3] =
    .ok (someAtoms [7, 7] [5, 0] [2, -3]) := rfl
  have hc : ofFlat ["system", "atom"] [5, 0, -1, 4, 7, 7] =
    .ok (someAtoms [5, 0] [-1, 4] [7, 7]) := rfl
  obtain ⟨ha, -⟩ := ofFlat_valid ha
  obtain ⟨hb, -⟩ := ofFlat_valid hb
  obtain ⟨hc, -⟩ := ofFlat_valid hc
  have hother := (ordered_algebra ha single_valid).2 (by decide)
  exact ⟨ha, hb, hc, (ordered_algebra ha hb).1 rfl _ hc rfl, hother⟩

end BlockTensor.Labels
