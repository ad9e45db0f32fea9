import BlockTensor.Labels.Basic
import Std.Data.TreeMap.Lemmas

/-!
# The index of labels

Entries are found through an index from entries to positions, not by a scan. The
index is right when no entry occurs twice: `index_eq_some_iff` says that it then
finds each entry at its position and nothing else. Whether it has an entry at
all does not depend on that (`contains_index`).
-/

namespace BlockTensor

/-- The position of every entry. Of an entry that occurs twice, the last. -/
def Rows.index (rows : Rows) : Std.TreeMap Entry Nat := .ofList rows.entries.zipIdx

@[simp] theorem Rows.contains_index (rows : Rows) (entry : Entry) :
    rows.index.contains entry = rows.entries.contains entry := by
  rw [index, Std.TreeMap.contains_ofList, List.zipIdx_map_fst]

section
variable {rows : Rows} (h : rows.entries.Nodup)
include h

theorem Rows.pairwise_zipIdx :
    rows.entries.zipIdx.Pairwise fun a b => ¬compare a.1 b.1 = .eq := by
  have hkeys : (rows.entries.zipIdx.map Prod.fst).Nodup := by rwa [List.zipIdx_map_fst]
  exact (List.pairwise_map.mp hkeys).imp fun hne heq => hne (Std.LawfulEqOrd.eq_of_compare heq)

theorem Rows.size_index : rows.index.size = rows.length := by
  rw [index, Std.TreeMap.size_ofList (pairwise_zipIdx h), List.length_zipIdx, length]

theorem Rows.index_eq_some_iff {entry : Entry} {position : Nat} :
    rows.index[entry]? = some position ↔ rows.entries[position]? = some entry := by
  have hfound {i : Nat} (hentry : rows.entries[i]? = some entry) : rows.index[entry]? = some i :=
    Std.TreeMap.getElem?_ofList_of_mem Std.ReflOrd.compare_self (pairwise_zipIdx h)
      (List.mk_mem_zipIdx_iff_getElem?.mpr hentry)
  refine ⟨fun hindex => ?_, hfound⟩
  -- What is in the index is an entry, and its position is the one that was found.
  have hmem : entry ∈ rows.entries := by
    rw [← List.contains_iff_mem, ← contains_index, Std.TreeMap.contains_eq_isSome_getElem?, hindex]
    rfl
  obtain ⟨i, hi⟩ := List.mem_iff_getElem?.mp hmem
  rw [hfound hi] at hindex
  cases hindex
  exact hi

end

namespace Labels

def position? (labels : Labels) (entry : Entry) : Option Nat := labels.index[entry]?

def contains (labels : Labels) (entry : Entry) : Bool := labels.index.contains entry

theorem contains_iff {labels : Labels} {entry : Entry} :
    labels.contains entry = true ↔ entry ∈ labels.entries := by
  rw [contains, Rows.contains_index, List.contains_iff_mem]

theorem position?_eq_some_iff {labels : Labels} (h : labels.entries.Nodup) {entry : Entry}
    {position : Nat} :
    labels.position? entry = some position ↔ labels.entries[position]? = some entry :=
  Rows.index_eq_some_iff h

end Labels

end BlockTensor
