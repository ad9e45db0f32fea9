import BlockTensor.Proofs.Selections
import BlockTensor.Proofs.SplitLaws

/-!
# Renumbered samples

The samples that are kept are numbered anew from 0. A gradient entry whose
sample is kept gets the new number in front, and the other entries go
(`renumber_eq`). Numbers that are label values are enough to tell the samples
apart, so entries that were distinct stay distinct (`renumbered_valid`).
Renumbering twice is renumbering by what is kept in the end (`renumber_renumber`).
-/

namespace BlockTensor

/-- The position among the samples of the parent that a gradient entry refers to. -/
def Entry.sample (entry : Entry) : Nat := (entry.headD 0).toInt.toNat

def numbered (kept : List Nat) : List (Nat × LabelValue) :=
  kept.zip ((List.range kept.length).map Int32.ofNat)

-- ---------------------------------------------------------------------------
-- New numbers
-- ---------------------------------------------------------------------------

theorem renumbering_ok {kept : List Nat} {numbering : List (Nat × LabelValue)} :
    renumbering kept = .ok numbering ↔ kept.length ≤ 0x80000000 ∧ numbering = numbered kept := by
  have hvalue (hcount : kept.length ≤ 0x80000000) : (List.range kept.length).mapM labelValue =
      .ok ((List.range kept.length).map Int32.ofNat) := by
    refine mapM_ok_map fun i hmem => Labels.labelValue_ok.mpr ⟨?_, rfl⟩
    exact Nat.lt_of_lt_of_le (List.mem_range.mp hmem) hcount
  simp only [renumbering, bind_ok, pure_ok]
  constructor
  · rintro ⟨values, hvalues, rfl⟩
    have hcount : kept.length ≤ 0x80000000 := by
      refine Nat.not_lt.mp fun hlt => ?_
      -- The first number that is too large would be one of the new ones.
      obtain ⟨_, -, hvalue⟩ := exists_of_forall₂ (mapM_ok.mp hvalues).flip (List.mem_range.mpr hlt)
      exact absurd (Labels.labelValue_ok.mp hvalue).1 (by decide)
    rw [hvalue hcount] at hvalues
    cases hvalues
    exact ⟨hcount, rfl⟩
  · rintro ⟨hcount, rfl⟩
    exact ⟨_, hvalue hcount, rfl⟩

theorem lookup_zip_range' {α : Type} (f : Nat → α) (kept : List Nat) (old start : Nat) :
    (kept.zip ((List.range' start kept.length).map f)).lookup old =
      (kept.idxOf? old).map fun new => f (start + new) := by
  induction kept generalizing start with
  | nil => rfl
  | cons first rest ih =>
    rw [List.length_cons, List.range'_succ, List.map_cons, List.zip_cons_cons, List.lookup_cons,
      List.idxOf?_cons, ih]
    by_cases h : old = first
    · simp [h]
    · have hne : (old == first) = false := beq_false_of_ne h
      have hne' : (first == old) = false := beq_false_of_ne (Ne.symm h)
      simp [hne, hne', Option.map_map, Function.comp_def, Nat.add_assoc, Nat.add_comm 1]

theorem lookup_numbered (kept : List Nat) (old : Nat) :
    (numbered kept).lookup old = (kept.idxOf? old).map Int32.ofNat := by
  have h := lookup_zip_range' Int32.ofNat kept old 0
  simp only [Nat.zero_add] at h
  rwa [← List.range_eq_range'] at h

theorem renumber_eq {kept : List Nat} {entry : Entry} (h : entry ≠ []) :
    renumber (numbered kept) entry =
      (kept.idxOf? entry.sample).map fun new => Int32.ofNat new :: entry.tail := by
  cases entry with
  | nil => exact absurd rfl h
  | cons first rest =>
    rw [renumber, lookup_numbered, Option.map_map]
    rfl

-- ---------------------------------------------------------------------------
-- Entries of a gradient
-- ---------------------------------------------------------------------------

/-- A label value that refers to a sample is given by the position. -/
theorem eq_of_sample {count : Nat} {left right : LabelValue}
    (hleft : Block.isSampleIndex count left = true)
    (hright : Block.isSampleIndex count right = true)
    (h : left.toInt.toNat = right.toInt.toNat) : left = right := by
  rw [Block.isSampleIndex_iff] at hleft hright
  exact Int32.toInt_inj.mp (by omega)

theorem sample_lt {count : Nat} {entry : Entry}
    (h : Block.isSampleIndex count (entry.headD 0) = true) : entry.sample < count := by
  rw [Block.isSampleIndex_iff] at h
  rw [Entry.sample]
  omega

theorem isSampleIndex_ofNat {count new : Nat} (hcount : count ≤ 0x80000000) (h : new < count) :
    Block.isSampleIndex count (Int32.ofNat new) = true := by
  rw [Block.isSampleIndex_iff, Int32.toInt_ofNat_of_lt (Nat.lt_of_lt_of_le h hcount)]
  exact ⟨Int.natCast_nonneg new, Int.ofNat_lt.mpr h⟩

theorem sample_ofNat {new : Nat} {rest : Entry} (h : new < 0x80000000) :
    Entry.sample (Int32.ofNat new :: rest) = new := by
  rw [Entry.sample, List.headD_cons, Int32.toInt_ofNat_of_lt h, Int.toNat_natCast]

/-- Entries that become equal were equal. -/
theorem renumber_inj {kept : List Nat} {count : Nat} {left right new : Entry}
    (hkept : kept.length ≤ 0x80000000)
    (hleft : left ≠ [] ∧ Block.isSampleIndex count (left.headD 0) = true)
    (hright : right ≠ [] ∧ Block.isSampleIndex count (right.headD 0) = true)
    (h : renumber (numbered kept) left = some new)
    (h' : renumber (numbered kept) right = some new) : left = right := by
  rw [renumber_eq hleft.1, Option.map_eq_some_iff] at h
  rw [renumber_eq hright.1, Option.map_eq_some_iff] at h'
  obtain ⟨i, hi, rfl⟩ := h
  obtain ⟨j, hj, heq⟩ := h'
  obtain ⟨hilt, hold, -⟩ := List.idxOf?_eq_some_iff.mp hi
  obtain ⟨hjlt, hold', -⟩ := List.idxOf?_eq_some_iff.mp hj
  obtain ⟨hnumber, htail⟩ := List.cons.inj heq
  obtain rfl := Labels.ofNat_inj (Nat.lt_of_lt_of_le hjlt hkept) (Nat.lt_of_lt_of_le hilt hkept)
    hnumber
  have hhead := eq_of_sample hleft.2 hright.2 (hold.symm.trans hold')
  cases left with
  | nil => exact absurd rfl hleft.1
  | cons first rest =>
    cases right with
    | nil => exact absurd rfl hright.1
    | cons first' rest' => exact congrArg₂ List.cons hhead htail.symm

/-- The entries of a gradient, of which those without a kept sample go. -/
theorem renumbered_valid {kept : List Nat} {count : Nat} {labels : Labels}
    (hkept : kept.length ≤ 0x80000000) (h : labels.Valid)
    (hsamples : ∀ entry ∈ labels.entries, Block.isSampleIndex count (entry.headD 0) = true) :
    Labels.Valid ⟨labels.names, labels.entries.filterMap (renumber (numbered kept))⟩ := by
  have hne : ∀ entry ∈ labels.entries, entry ≠ [] := fun entry hmem => h.ne_nil hmem
  refine ⟨⟨h.rows.names, fun new hmem => ?_⟩, List.pairwise_filterMap.mpr ?_⟩
  · obtain ⟨entry, hentry, hnew⟩ := List.mem_filterMap.mp hmem
    rw [renumber_eq (hne entry hentry), Option.map_eq_some_iff] at hnew
    obtain ⟨i, -, rfl⟩ := hnew
    have harity := h.rows.arity entry hentry
    have hpos := List.length_pos_iff.mpr (hne entry hentry)
    rw [List.length_cons, List.length_tail]
    exact (Nat.sub_add_cancel hpos).trans harity
  · refine h.distinct.imp_of_mem fun ha hb hdistinct new hnew new' hnew' heq => ?_
    exact hdistinct (renumber_inj hkept ⟨hne _ ha, hsamples _ ha⟩ ⟨hne _ hb, hsamples _ hb⟩ hnew
      (heq ▸ hnew'))

-- ---------------------------------------------------------------------------
-- Numbers of numbers
-- ---------------------------------------------------------------------------

theorem idxOf?_pick {first second : List Nat} (hfirst : first.Nodup)
    (hsecond : ∀ j ∈ second, j < first.length) (old : Nat) :
    (pick second first).idxOf? old = (first.idxOf? old).bind second.idxOf? := by
  cases h : first.idxOf? old with
  | none =>
    have hgone := List.idxOf?_eq_none_iff.mp h
    exact List.idxOf?_eq_none_iff.mpr fun hmem => hgone (mem_of_mem_pick hmem)
  | some i =>
    obtain ⟨hi, rfl, -⟩ := List.idxOf?_eq_some_iff.mp h
    rw [Option.bind_some]
    induction second with
    | nil => rfl
    | cons j rest ih =>
      obtain ⟨hj, hrest⟩ := List.forall_mem_cons.mp hsecond
      have hsame : (first[j] == first[i]) = (j == i) := by
        rw [Bool.eq_iff_iff, beq_iff_eq, beq_iff_eq, hfirst.getElem_inj_iff]
      rw [pick, List.filterMap_cons_some (List.getElem?_eq_getElem hj), List.idxOf?_cons,
        List.idxOf?_cons, hsame]
      rw [← pick, ih hrest]

theorem renumber_renumber {first second : List Nat} (hfirst : first.Nodup)
    (hcount : first.length ≤ 0x80000000) (hsecond : ∀ j ∈ second, j < first.length)
    {entry : Entry} (hne : entry ≠ []) :
    (renumber (numbered first) entry).bind (renumber (numbered second)) =
      renumber (numbered (pick second first)) entry := by
  rw [renumber_eq hne, renumber_eq hne, idxOf?_pick hfirst hsecond]
  cases h : first.idxOf? entry.sample with
  | none => rfl
  | some i =>
    obtain ⟨hi, -⟩ := List.idxOf?_eq_some_iff.mp h
    rw [Option.map_some, Option.bind_some, Option.bind_some, renumber_eq (List.cons_ne_nil _ _),
      sample_ofNat (Nat.lt_of_lt_of_le hi hcount), List.tail_cons]

end BlockTensor
