import BlockTensor.Proofs.Array.Rows
import Mathlib.Data.List.Perm.Basic

/-!
# Elements and their positions

Picking the positions at which a test holds is filtering (`pick_positionsWhere`),
and what stands beside the elements can be picked along (`filter_zip`). Filtering
by every key in turn takes a list apart and loses nothing (`perm_flatMap_filter`).
-/

namespace BlockTensor

variable {α β γ : Type}

-- ---------------------------------------------------------------------------
-- Positions
-- ---------------------------------------------------------------------------

theorem mem_positionsWhere {test : α → Bool} {items : List α} {i : Nat} :
    i ∈ positionsWhere test items ↔ ∃ item, items[i]? = some item ∧ test item = true := by
  simp only [positionsWhere, List.mem_map, List.mem_filter, Prod.exists,
    List.mk_mem_zipIdx_iff_getElem?]
  constructor
  · rintro ⟨item, _, ⟨hitem, htest⟩, rfl⟩
    exact ⟨item, hitem, htest⟩
  · rintro ⟨item, hitem, htest⟩
    exact ⟨item, i, ⟨hitem, htest⟩, rfl⟩

theorem lt_of_mem_positionsWhere {test : α → Bool} {items : List α} {i : Nat}
    (h : i ∈ positionsWhere test items) : i < items.length := by
  obtain ⟨_, hitem, -⟩ := mem_positionsWhere.mp h
  exact (List.getElem?_eq_some_iff.mp hitem).1

theorem positionsWhere_map (f : α → β) (test : β → Bool) (items : List α) :
    positionsWhere test (items.map f) = positionsWhere (fun item => test (f item)) items := by
  rw [positionsWhere, positionsWhere, List.zipIdx_map, List.filter_map, List.map_map]
  rfl

theorem positionsWhere_congr {test test' : α → Bool} {items : List α}
    (h : ∀ item ∈ items, test item = test' item) :
    positionsWhere test items = positionsWhere test' items := by
  rw [positionsWhere, positionsWhere]
  exact congrArg _ (List.filter_congr fun pair hmem => h _ (List.fst_mem_of_mem_zipIdx hmem))

-- ---------------------------------------------------------------------------
-- Picking
-- ---------------------------------------------------------------------------

theorem pick_positionsWhere (test : α → Bool) (items : List α) :
    pick (positionsWhere test items) items = items.filter test := by
  have hfound : ∀ pair ∈ items.zipIdx.filter fun pair => test pair.1,
      items[pair.2]? = some pair.1 :=
    fun pair hmem => List.mk_mem_zipIdx_iff_getElem?.mp (List.mem_filter.mp hmem).1
  have hfst : (items.zipIdx.filter fun pair => test pair.1).map Prod.fst = items.filter test := by
    have hmap := List.filter_map (f := Prod.fst) (p := test) (l := items.zipIdx)
    rw [List.zipIdx_map_fst] at hmap
    exact hmap.symm
  rw [← hfst, pick, positionsWhere, List.filterMap_map, ← List.filterMap_eq_map]
  exact List.filterMap_congr hfound

theorem length_positionsWhere (test : α → Bool) (items : List α) :
    (positionsWhere test items).length = (items.filter test).length := by
  rw [← pick_positionsWhere, length_pick fun _ => lt_of_mem_positionsWhere]

/-- What keeps every element keeps the places of all of them. -/
theorem getElem?_filterMap {f : α → Option β} {items : List α}
    (h : ∀ item ∈ items, (f item).isSome) (j : Nat) :
    (items.filterMap f)[j]? = items[j]?.bind f := by
  induction items generalizing j with
  | nil => rfl
  | cons item rest ih =>
    obtain ⟨hitem, hrest⟩ := List.forall_mem_cons.mp h
    obtain ⟨value, hvalue⟩ := Option.isSome_iff_exists.mp hitem
    rw [List.filterMap_cons_some hvalue]
    cases j with
    | zero => simp [hvalue]
    | succ j =>
      rw [List.getElem?_cons_succ, List.getElem?_cons_succ]
      exact ih hrest j

theorem getElem?_pick {positions : List Nat} {items : List α}
    (h : ∀ i ∈ positions, i < items.length) (j : Nat) :
    (pick positions items)[j]? = positions[j]?.bind fun i => items[i]? :=
  getElem?_filterMap (fun i hmem => by simpa using h i hmem) j

theorem pick_pick {first second : List Nat} {items : List α} (h : ∀ i ∈ first, i < items.length) :
    pick second (pick first items) = pick (pick second first) items := by
  have hget (j : Nat) : (pick first items)[j]? = first[j]?.bind fun i => items[i]? :=
    getElem?_pick h j
  rw [pick, funext hget, pick, pick, List.filterMap_filterMap]

theorem pick_range {positions : List Nat} {n : Nat} (h : ∀ i ∈ positions, i < n) :
    pick positions (List.range n) = positions := by
  have hfound : ∀ i ∈ positions, (List.range n)[i]? = some i := fun i hmem =>
    List.getElem?_range (h i hmem)
  rw [pick, List.filterMap_congr hfound, List.filterMap_some]

theorem pick_all (items : List α) : pick (List.range items.length) items = items := by
  refine List.ext_getElem? fun j => ?_
  rw [getElem?_pick fun _ => List.mem_range.mp]
  by_cases h : j < items.length
  · rw [List.getElem?_range h, Option.bind_some]
  · have hle := Nat.le_of_not_lt h
    rw [List.getElem?_eq_none (by simpa using hle), Option.bind_none, List.getElem?_eq_none hle]

theorem pick_sublist {positions : List Nat} {items : List α}
    (h : positions.Sublist (List.range items.length)) : (pick positions items).Sublist items := by
  have hpick := h.filterMap fun i => items[i]?
  rwa [← pick, ← pick, pick_all] at hpick

theorem pick_zip {items : List α} {others : List β} (h : items.length = others.length)
    (positions : List Nat) :
    pick positions (items.zip others) = (pick positions items).zip (pick positions others) := by
  induction positions with
  | nil => rfl
  | cons i rest ih =>
    cases hi : items[i]? with
    | none =>
      have hle := List.getElem?_eq_none_iff.mp hi
      have hi' : others[i]? = none := List.getElem?_eq_none_iff.mpr (h ▸ hle)
      have hpair : (items.zip others)[i]? = none := by
        rw [List.getElem?_eq_none_iff, List.length_zip]
        omega
      rw [pick, pick, pick, List.filterMap_cons_none hpair, List.filterMap_cons_none hi,
        List.filterMap_cons_none hi']
      exact ih
    | some item =>
      obtain ⟨hlt, -⟩ := List.getElem?_eq_some_iff.mp hi
      have hi' := List.getElem?_eq_getElem (h ▸ hlt)
      have hpair : (items.zip others)[i]? = some (item, others[i]) :=
        List.getElem?_zip_eq_some.mpr ⟨hi, hi'⟩
      rw [pick, pick, pick, List.filterMap_cons_some hpair, List.filterMap_cons_some hi,
        List.filterMap_cons_some hi', List.zip_cons_cons]
      exact congrArg _ ih

section
variable {items : List α} {others : List β} (h : items.length = others.length)
include h

theorem pick_positionsWhere_zip (test : α → Bool) :
    pick (positionsWhere test items) (items.zip others) =
      (items.zip others).filter fun pair => test pair.1 := by
  have hfst : (items.zip others).map Prod.fst = items := List.map_fst_zip (Nat.le_of_eq h)
  have hpositions := positionsWhere_map Prod.fst test (items.zip others)
  rw [hfst] at hpositions
  rw [hpositions, pick_positionsWhere]

theorem pick_positionsWhere_snd (test : α → Bool) :
    pick (positionsWhere test items) others =
      ((items.zip others).filter fun pair => test pair.1).map Prod.snd := by
  have hsnd : (items.zip others).map Prod.snd = others := List.map_snd_zip (Nat.le_of_eq h.symm)
  rw [← pick_positionsWhere_zip h, ← pick_map, hsnd]

theorem filter_zip (test : α → Bool) :
    (items.filter test).zip (pick (positionsWhere test items) others) =
      (items.zip others).filter fun pair => test pair.1 := by
  rw [← pick_positionsWhere_zip h, pick_zip h, pick_positionsWhere]

theorem filterMap_zip (f : α → Option γ) :
    (items.filterMap f).zip (pick (positionsWhere (fun item => (f item).isSome) items) others) =
      (items.zip others).filterMap fun pair => (f pair.1).map fun new => (new, pair.2) := by
  have hfst : (items.zip others).map Prod.fst = items := List.map_fst_zip (Nat.le_of_eq h)
  rw [pick_positionsWhere_snd h]
  conv_lhs => enter [1, 2]; rw [← hfst]
  rw [List.filterMap_map]
  induction items.zip others with
  | nil => rfl
  | cons pair rest ih =>
    cases hpair : f pair.1 <;> simp_all

end

theorem length_filterMap (f : α → Option β) (items : List α) : (items.filterMap f).length =
    (positionsWhere (fun item => (f item).isSome) items).length := by
  rw [length_positionsWhere, ← List.countP_eq_length_filter]
  exact List.length_filterMap_eq_countP

/-- Positions among the elements that are left, as positions among all of them. -/
theorem pick_positionsWhere_filterMap (f : α → Option β) (test : β → Bool) (items : List α) :
    pick (positionsWhere test (items.filterMap f))
        (positionsWhere (fun item => (f item).isSome) items) =
      positionsWhere (fun item => (f item).any test) items := by
  have hcount : items.length = (List.range items.length).length := List.length_range.symm
  have hall (test : α → Bool) : pick (positionsWhere test items) (List.range items.length) =
      positionsWhere test items := pick_range fun _ => lt_of_mem_positionsWhere
  have hzip := filterMap_zip hcount f
  rw [hall] at hzip
  rw [pick_positionsWhere_snd (length_filterMap f items), hzip,
    ← hall fun item => (f item).any test, pick_positionsWhere_snd hcount]
  induction items.zip (List.range items.length) with
  | nil => rfl
  | cons pair rest ih =>
    cases hpair : f pair.1 <;> simp_all [List.filter_cons]
    split <;> simp_all

theorem pick_positionsWhere_filter (first second : α → Bool) (items : List α) :
    pick (positionsWhere second (items.filter first)) (positionsWhere first items) =
      positionsWhere (fun item => first item && second item) items := by
  have h := pick_positionsWhere_filterMap (Option.guard first) second items
  simpa only [List.filterMap_eq_filter, Option.isSome_guard, Option.any_guard] using h

-- ---------------------------------------------------------------------------
-- Classes
-- ---------------------------------------------------------------------------

theorem perm_flatMap_filter [DecidableEq β] (f : α → β) {keys : List β} {items : List α}
    (hkeys : keys.Nodup) (hitems : ∀ item ∈ items, f item ∈ keys) :
    (keys.flatMap fun key => items.filter fun item => f item = key).Perm items := by
  induction keys generalizing items with
  | nil =>
    have hempty : items = [] := List.eq_nil_iff_forall_not_mem.mpr fun item hmem =>
      nomatch hitems item hmem
    rw [hempty, List.flatMap_nil]
  | cons key rest ih =>
    obtain ⟨hnew, hrest⟩ := List.nodup_cons.mp hkeys
    -- The items of the other keys are the items that are left without this key.
    have hothers : (rest.flatMap fun other => items.filter fun item => f item = other) =
        rest.flatMap fun other => (items.filter fun item => !decide (f item = key)).filter
          fun item => f item = other := by
      refine List.flatMap_congr fun other hmem => ?_
      have hne : other ≠ key := fun heq => hnew (heq ▸ hmem)
      rw [List.filter_filter]
      refine List.filter_congr fun item _ => ?_
      by_cases h : f item = other <;> simp [h, hne]
    have hleft : ∀ item ∈ items.filter fun item => !decide (f item = key), f item ∈ rest := by
      intro item hmem
      obtain ⟨hmem, hkey⟩ := List.mem_filter.mp hmem
      exact (List.mem_cons.mp (hitems item hmem)).resolve_left (by simpa using hkey)
    rw [List.flatMap_cons, hothers]
    exact ((ih hrest hleft).append_left _).trans (List.filter_append_perm _ items)

end BlockTensor
