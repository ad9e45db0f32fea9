import BlockTensor.Proofs.Built
import BlockTensor.Proofs.Projections
import BlockTensor.Tensor.Lookup
import Mathlib.Data.List.GetD

/-!
# Blocks by selection, by entry and by position

A selection is compared with every key in turn; a full entry is looked up in the
index of the keys. `lookups_agree` says that the two find the same blocks: a
selection gives the blocks whose keys have all of its values, and one that
spells out an entry gives the block at the position of that entry.
-/

namespace BlockTensor

/-- Distinct items that are all the same. -/
theorem eq_nil_or_singleton {α : Type} {items : List α} (hdistinct : items.Nodup)
    (hsame : ∀ a ∈ items, ∀ b ∈ items, a = b) : items = [] ∨ ∃ a, items = [a] := by
  cases items with
  | nil => exact .inl rfl
  | cons first rest =>
    cases rest with
    | nil => exact .inr ⟨first, rfl⟩
    | cons second rest =>
      have heq : first = second := hsame first (by simp) second (by simp)
      simp [heq] at hdistinct

-- ---------------------------------------------------------------------------
-- Values under names
-- ---------------------------------------------------------------------------

section
variable {names : List String} {entry : Entry}

theorem mem_zip_iff (hnames : names.Nodup) (harity : entry.length = names.length) {name : String}
    (hname : name ∈ names) {value : LabelValue} :
    (name, value) ∈ names.zip entry ↔ entry.getD (names.idxOf name) 0 = value := by
  have hlt : names.idxOf name < entry.length := harity ▸ List.idxOf_lt_length_of_mem hname
  rw [List.getD_eq_getElem _ _ hlt, List.mem_iff_getElem?]
  simp only [List.getElem?_zip_eq_some]
  constructor
  · rintro ⟨i, hget, hvalue⟩
    obtain ⟨hi, rfl⟩ := List.getElem?_eq_some_iff.mp hget
    simp only [hnames.idxOf_getElem] at hlt ⊢
    exact Option.some.inj ((List.getElem?_eq_getElem hlt).symm.trans hvalue)
  · rintro rfl
    exact ⟨_, List.getElem?_idxOf hname, List.getElem?_eq_getElem hlt⟩

theorem eq_of_zip_subset (hnames : names.Nodup) {other : Entry}
    (harity : entry.length = names.length) (hother : other.length = names.length)
    (h : names.zip entry ⊆ names.zip other) : entry = other := by
  refine List.ext_getElem (harity.trans hother.symm) fun i hi hi' => ?_
  have hname : i < names.length := harity ▸ hi
  have hpair : (names.zip entry)[i]? = some (names[i], entry[i]) :=
    List.getElem?_zip_eq_some.mpr ⟨List.getElem?_eq_getElem hname, List.getElem?_eq_getElem hi⟩
  have hvalue :=
    (mem_zip_iff hnames hother (List.getElem_mem hname)).mp (h (List.mem_of_getElem? hpair))
  simpa [hnames.idxOf_getElem, hi'] using hvalue.symm

end

namespace Rows

def hasAll (rows : Rows) (selection : List (String × LabelValue)) (entry : Entry) : Bool :=
  selection.all fun item => (rows.names.zip entry).contains item

/-- A selection of every column with the values of an entry, in any order. -/
def Spells (rows : Rows) (selection : List (String × LabelValue)) (entry : Entry) : Prop :=
  ∀ item, item ∈ selection ↔ item ∈ rows.names.zip entry

variable {rows : Rows} {selection : List (String × LabelValue)} {entry : Entry}

theorem hasAll_iff :
    rows.hasAll selection entry = true ↔ selection ⊆ rows.names.zip entry := by
  simp [hasAll, List.subset_def]

/-- Values for all columns leave no choice. -/
theorem eq_of_hasAll (hnames : rows.names.Nodup) (hfull : rows.names ⊆ selection.map Prod.fst)
    {other : Entry} (harity : entry.length = rows.size) (hother : other.length = rows.size)
    (h : rows.hasAll selection entry = true) (h' : rows.hasAll selection other = true) :
    entry = other := by
  rw [hasAll_iff] at h h'
  refine eq_of_zip_subset hnames harity hother fun pair hmem => ?_
  have hname : pair.1 ∈ rows.names := (List.of_mem_zip hmem).1
  obtain ⟨item, hitem, heq⟩ := List.mem_map.mp (hfull hname)
  have hvalue : item.2 = pair.2 := by
    have hselected := h hitem
    rw [← Prod.eta item, heq, mem_zip_iff hnames harity hname] at hselected
    rw [← hselected]
    exact (mem_zip_iff hnames harity hname).mp hmem
  rw [← Prod.ext heq hvalue]
  exact h' hitem

theorem Spells.names (harity : entry.length = rows.size) (h : rows.Spells selection entry) :
    selection.map Prod.fst ⊆ rows.names ∧ rows.names ⊆ selection.map Prod.fst := by
  have hzip : (rows.names.zip entry).map Prod.fst = rows.names :=
    List.map_fst_zip (Nat.le_of_eq harity.symm)
  constructor
  · intro name hname
    obtain ⟨item, hitem, rfl⟩ := List.mem_map.mp hname
    exact (List.of_mem_zip ((h item).mp hitem)).1
  · intro name hname
    rw [← hzip] at hname
    obtain ⟨item, hitem, rfl⟩ := List.mem_map.mp hname
    exact List.mem_map_of_mem ((h item).mpr hitem)

theorem Spells.hasAll (h : rows.Spells selection entry) : rows.hasAll selection entry = true :=
  hasAll_iff.mpr fun item hmem => (h item).mp hmem

theorem columns_error {names : List String} {foreign : String}
    (h : names.find? (fun name => !rows.names.contains name) = some foreign) :
    rows.columns names = .error (.unknownColumn foreign rows.names) := by
  induction names with
  | nil => cases h
  | cons name rest ih =>
    rw [columns, List.mapM_cons]
    by_cases hname : name ∈ rows.names
    · obtain ⟨position, hposition⟩ := Option.isSome_iff_exists.mp (List.isSome_idxOf?.mpr hname)
      have hrest : rest.find? (fun name => !rows.names.contains name) = some foreign := by
        simpa [hname] using h
      rw [columns] at ih
      rw [hposition, ih hrest]
      rfl
    · obtain rfl : name = foreign := by simpa [hname] using h
      rw [List.idxOf?_eq_none_iff.mpr hname]
      rfl

end Rows

namespace Labels

variable {labels : Labels} {selection : List (String × LabelValue)}

theorem matching_ok (h : labels.Valid) (hnames : selection.map Prod.fst ⊆ labels.names) :
    labels.matching selection = .ok (positionsWhere (labels.hasAll selection) labels.entries) := by
  simp only [matching, Rows.columns_ok hnames, bind_ok, pure_ok]
  refine ⟨_, rfl, positionsWhere_congr fun entry hmem => ?_⟩
  rw [Bool.eq_iff_iff, Rows.hasAll_iff, beq_iff_eq, Rows.project, List.map_map, List.map_map,
    List.map_inj_left]
  refine forall₂_congr fun item hitem => ?_
  exact (mem_zip_iff h.rows.names.distinct (h.rows.arity entry hmem)
    (hnames (List.mem_map_of_mem hitem))).symm

theorem matching_error {foreign : String}
    (h : (selection.map Prod.fst).find? (fun name => !labels.names.contains name) = some foreign) :
    labels.matching selection = .error (.unknownColumn foreign labels.names) := by
  rw [matching, Rows.columns_error h]
  rfl

end Labels

namespace Tensor

-- ---------------------------------------------------------------------------
-- Selections
-- ---------------------------------------------------------------------------

def selected (tensor : Tensor) (selection : List (String × LabelValue)) : List Block :=
  (tensor.items.filter fun item => tensor.keys.hasAll selection item.1).map Prod.snd

section
variable {tensor : Tensor} {selection : List (String × LabelValue)}

theorem blockAt_ok {index : Nat} {block : Block} :
    tensor.blockAt index = .ok block ↔ tensor.blocks[index]? = some block := by
  rw [blockAt]
  cases tensor.blocks[index]? <;> simp

theorem isFullKey_iff {names : List String} :
    isFullKey names selection = true ↔ names ⊆ selection.map Prod.fst := by
  simp [isFullKey, List.subset_def]

theorem map_fst_items (h : tensor.Valid) : tensor.items.map Prod.fst = tensor.keys.entries :=
  List.map_fst_zip (Nat.le_of_eq h.count)

theorem blocksMatching_ok (h : tensor.Valid) (hnames : selection.map Prod.fst ⊆ tensor.keys.names) :
    tensor.blocksMatching selection = .ok (tensor.selected selection) := by
  simp only [blocksMatching, Labels.matching_ok h.keys hnames, bind_ok, pure_ok]
  exact ⟨_, rfl, pick_positionsWhere_snd h.count _⟩

/-- The number of selected blocks decides. -/
theorem block_eq (h : tensor.Valid) (hnames : selection.map Prod.fst ⊆ tensor.keys.names) :
    tensor.block selection = match tensor.selected selection with
      | [block] => .ok block
      | [] =>
        if isFullKey tensor.keys.names selection then .error (.noMatchingBlock selection)
        else .error (.notOneMatch selection 0)
      | several => .error (.notOneMatch selection several.length) := by
  have hselected : pick _ tensor.blocks = tensor.selected selection :=
    pick_positionsWhere_snd h.count (tensor.keys.hasAll selection)
  have hlt : ∀ i ∈ positionsWhere (tensor.keys.hasAll selection) tensor.keys.entries,
      i < tensor.blocks.length := fun i hmem => h.count ▸ lt_of_mem_positionsWhere hmem
  rw [← hselected, Tensor.block, Labels.matching_ok h.keys hnames]
  generalize positionsWhere (tensor.keys.hasAll selection) tensor.keys.entries = positions at hlt
  have hcons {i : Nat} {rest : List Nat} (hi : i < tensor.blocks.length) :
      pick (i :: rest) tensor.blocks = tensor.blocks[i] :: pick rest tensor.blocks :=
    List.filterMap_cons_some (List.getElem?_eq_getElem hi)
  cases positions with
  | nil => rfl
  | cons i rest =>
    obtain ⟨hi, hrest⟩ := List.forall_mem_cons.mp hlt
    cases rest with
    | nil =>
      rw [hcons hi]
      exact blockAt_ok.mpr (List.getElem?_eq_getElem hi)
    | cons j rest =>
      obtain ⟨hj, hrest⟩ := List.forall_mem_cons.mp hrest
      rw [hcons hi, hcons hj]
      show Except.error (Error.notOneMatch selection (i :: j :: rest).length) =
        .error (.notOneMatch selection (_ :: _ :: pick rest tensor.blocks).length)
      simp only [List.length_cons, length_pick hrest]

theorem mem_selected {block : Block} : block ∈ tensor.selected selection ↔
    ∃ key, (key, block) ∈ tensor.items ∧ tensor.keys.hasAll selection key = true := by
  simp [selected]

/-- Keys are distinct, so values for all columns select at most one of them. -/
theorem selected_of_full (h : tensor.Valid) (hfull : tensor.keys.names ⊆ selection.map Prod.fst) :
    tensor.selected selection = [] ∨ ∃ block, tensor.selected selection = [block] := by
  have hkeys : (tensor.items.map Prod.fst).Nodup := by
    rw [map_fst_items h]
    exact h.keys.distinct
  have hsame : ∀ a ∈ tensor.items.filter fun item => tensor.keys.hasAll selection item.1,
      ∀ b ∈ tensor.items.filter fun item => tensor.keys.hasAll selection item.1, a = b := by
    intro a ha b hb
    obtain ⟨ha, hhas⟩ := List.mem_filter.mp ha
    obtain ⟨hb, hhas'⟩ := List.mem_filter.mp hb
    have harity := h.keys.rows.arity _ (List.of_mem_zip ha).1
    have harity' := h.keys.rows.arity _ (List.of_mem_zip hb).1
    refine List.inj_on_of_nodup_map hkeys ha hb ?_
    exact Rows.eq_of_hasAll h.keys.rows.names.distinct hfull harity harity' hhas hhas'
  rw [selected]
  rcases eq_nil_or_singleton (hkeys.of_map.filter _) hsame with hnone | ⟨item, hone⟩
  · exact .inl (by simp [hnone])
  · exact .inr ⟨item.2, by simp [hone]⟩

-- ---------------------------------------------------------------------------
-- Entries
-- ---------------------------------------------------------------------------

theorem blockOf_eq {entry : Entry} (harity : entry.length = tensor.keys.size) :
    tensor.blockOf entry = match tensor.keys.position? entry with
      | some index => tensor.blockAt index
      | none => .error (.noMatchingBlock (tensor.keys.names.zip entry)) := by
  rw [blockOf, ensure_of harity]
  rfl

theorem blockOf_ok (h : tensor.keys.Valid) {entry : Entry} {block : Block} :
    tensor.blockOf entry = .ok block ↔ (entry, block) ∈ tensor.items := by
  simp only [items, List.mem_iff_getElem?, List.getElem?_zip_eq_some,
    ← Labels.position?_eq_some_iff h.distinct, ← blockAt_ok]
  constructor
  · intro hblock
    have harity : entry.length = tensor.keys.size := by
      simp only [blockOf, bind_ok, ensure_ok] at hblock
      obtain ⟨_, harity, -⟩ := hblock
      exact harity
    rw [blockOf_eq harity] at hblock
    split at hblock
    next i hi => exact ⟨i, hi, hblock⟩
    next => cases hblock
  · rintro ⟨i, hi, hblock⟩
    have hmem : entry ∈ tensor.keys.entries :=
      List.mem_of_getElem? ((Labels.position?_eq_some_iff h.distinct).mp hi)
    rw [blockOf_eq (h.rows.arity entry hmem), hi]
    exact hblock

end

-- ---------------------------------------------------------------------------
-- All look-ups
-- ---------------------------------------------------------------------------

structure SelectionLaws (tensor : Tensor) (selection : List (String × LabelValue)) : Prop where
  /-- The first name that is no column of the keys is reported. -/
  unknown : ∀ foreign, (selection.map Prod.fst).find?
      (fun name => !tensor.keys.names.contains name) = some foreign →
    tensor.block selection = .error (.unknownColumn foreign tensor.keys.names) ∧
      tensor.blocksMatching selection = .error (.unknownColumn foreign tensor.keys.names)
  several : selection.map Prod.fst ⊆ tensor.keys.names →
    tensor.blocksMatching selection = .ok (tensor.selected selection)
  one : selection.map Prod.fst ⊆ tensor.keys.names → ∀ block,
    tensor.selected selection = [block] → tensor.block selection = .ok block
  none : selection.map Prod.fst ⊆ tensor.keys.names →
    tensor.keys.names ⊆ selection.map Prod.fst → tensor.selected selection = [] →
    tensor.block selection = .error (.noMatchingBlock selection)
  other : selection.map Prod.fst ⊆ tensor.keys.names → (tensor.selected selection).length ≠ 1 →
    ¬(tensor.keys.names ⊆ selection.map Prod.fst ∧ tensor.selected selection = []) →
    tensor.block selection =
      .error (.notOneMatch selection (tensor.selected selection).length)
  /-- Values for all columns are never ambiguous. -/
  full : tensor.keys.names ⊆ selection.map Prod.fst → ∀ shown count,
    tensor.block selection ≠ .error (.notOneMatch shown count)

structure EntryLaws (tensor : Tensor) (entry : Entry) : Prop where
  found : ∀ index, tensor.keys.position? entry = some index → ∃ block,
    tensor.blockAt index = .ok block ∧ tensor.blockOf entry = .ok block ∧
      ∀ selection, tensor.keys.Spells selection entry → tensor.block selection = .ok block
  missing : tensor.keys.position? entry = none →
    tensor.blockOf entry = .error (.noMatchingBlock (tensor.keys.names.zip entry)) ∧
      ∀ selection, tensor.keys.Spells selection entry →
        tensor.block selection = .error (.noMatchingBlock selection)

section
variable {tensor : Tensor} (h : tensor.Valid)
include h

theorem selectionLaws (selection : List (String × LabelValue)) :
    tensor.SelectionLaws selection where
  unknown foreign hforeign := by
    have hmatching := Labels.matching_error hforeign
    rw [Tensor.block, blocksMatching, hmatching]
    exact ⟨rfl, rfl⟩
  several hnames := blocksMatching_ok h hnames
  one hnames block hone := by simp [block_eq h hnames, hone]
  none hnames hfull hnone := by simp [block_eq h hnames, hnone, isFullKey_iff.mpr hfull]
  other hnames hlength hfull := by
    rw [block_eq h hnames]
    split
    next block hone => simp [hone] at hlength
    next hnone =>
      have hpartial : ¬tensor.keys.names ⊆ selection.map Prod.fst :=
        fun hall => hfull ⟨hall, hnone⟩
      simp [hnone, isFullKey_iff, hpartial]
    next => rfl
  full hfull shown count := by
    cases hforeign :
        (selection.map Prod.fst).find? fun name => !tensor.keys.names.contains name with
    | some foreign =>
      rw [Tensor.block, Labels.matching_error hforeign]
      exact nofun
    | none =>
      rw [block_eq h (find?_foreign.mp hforeign)]
      rcases selected_of_full h hfull with hnone | ⟨block, hone⟩
      · simp [hnone, isFullKey_iff.mpr hfull]
      · simp [hone]

theorem entryLaws {entry : Entry} (harity : entry.length = tensor.keys.size) :
    tensor.EntryLaws entry where
  found index hindex := by
    have hentry := (Labels.position?_eq_some_iff h.keys.distinct).mp hindex
    have hlt : index < tensor.blocks.length := by
      rw [← h.count]
      exact (List.getElem?_eq_some_iff.mp hentry).1
    have hat := blockAt_ok.mpr (List.getElem?_eq_getElem hlt)
    have hof : tensor.blockOf entry = .ok tensor.blocks[index] := by
      rw [blockOf_eq harity, hindex]
      exact hat
    refine ⟨_, hat, hof, fun selection hspells => ?_⟩
    obtain ⟨hnames, hfull⟩ := hspells.names harity
    have hmem : tensor.blocks[index] ∈ tensor.selected selection :=
      mem_selected.mpr ⟨entry, (blockOf_ok h.keys).mp hof, hspells.hasAll⟩
    rcases selected_of_full h hfull with hnone | ⟨block, hone⟩
    · simp [hnone] at hmem
    · obtain rfl : tensor.blocks[index] = block := by simpa [hone] using hmem
      exact (selectionLaws h selection).one hnames _ hone
  missing hmissing := by
    refine ⟨by simp [blockOf_eq harity, hmissing], fun selection hspells => ?_⟩
    obtain ⟨hnames, hfull⟩ := hspells.names harity
    refine (selectionLaws h selection).none hnames hfull ?_
    refine List.eq_nil_iff_forall_not_mem.mpr fun block hmem => ?_
    -- A selected key would be the entry itself, which has no position.
    obtain ⟨key, hkey, hhas⟩ := mem_selected.mp hmem
    have hentry := (List.of_mem_zip hkey).1
    rw [Rows.eq_of_hasAll h.keys.rows.names.distinct hfull (h.keys.rows.arity key hentry) harity
      hhas hspells.hasAll] at hentry
    obtain ⟨i, hi⟩ := List.mem_iff_getElem?.mp hentry
    simp [(Labels.position?_eq_some_iff h.keys.distinct).mpr hi] at hmissing

end

theorem lookups_agree {tensor : Tensor} (h : tensor.Valid) :
    (∀ selection, tensor.SelectionLaws selection) ∧
      ∀ entry, entry.length = tensor.keys.size → tensor.EntryLaws entry :=
  ⟨selectionLaws h, fun _ => entryLaws h⟩

def pairedKeys : Tensor :=
  ⟨⟨["a", "b"], [[0, 1], [1, 0], [0, 0]]⟩, [flatColumn [.one], flatColumn [], flatColumn [.zero]]⟩

/-- A full key out of order, a partial one, one that contradicts itself and one
with a foreign name. -/
theorem lookups_agree_pairedKeys : pairedKeys.Valid ∧
    (∀ selection ∈ [[("b", 0), ("a", 1)], [("a", 0)], [("a", 0), ("b", 0), ("a", 1)],
      [("c", 0), ("d", 0)]], pairedKeys.SelectionLaws selection) ∧
    [1, 0].length = pairedKeys.keys.size ∧ pairedKeys.EntryLaws [1, 0] ∧
    pairedKeys.keys.Spells [("b", 0), ("a", 1)] [1, 0] ∧
    pairedKeys.selected [("a", 0)] = [flatColumn [.one], flatColumn [.zero]] := by
  have hvalid : pairedKeys.Valid := Archive.valid_of_record rfl
  obtain ⟨hselections, hentries⟩ := lookups_agree hvalid
  refine ⟨hvalid, fun selection _ => hselections selection, rfl, hentries _ rfl, ?_, rfl⟩
  intro item
  simp [pairedKeys, or_comm]

end Tensor

end BlockTensor
