import BlockTensor.Labels.Algebra
import BlockTensor.Labels.Lookup
import BlockTensor.Metadata.Split
import BlockTensor.Proofs.Checks
import Mathlib.Data.List.Nodup

/-!
# Valid labels

Every constructor and every set operation gives valid labels. `ofFlat_flat`
says the converse: valid labels are what the constructors make of their own
names and values, so a check never refuses them again.
-/

namespace BlockTensor

-- ---------------------------------------------------------------------------
-- Rows and their flat values
-- ---------------------------------------------------------------------------

theorem length_flatten_of_length {α : Type} {rows : List (List α)} {size : Nat}
    (h : ∀ row ∈ rows, row.length = size) : rows.flatten.length = rows.length * size := by
  induction rows with
  | nil => simp
  | cons row rest ih =>
    rw [List.flatten_cons, List.length_append, h row List.mem_cons_self,
      ih fun other hmem => h other (List.mem_cons_of_mem _ hmem), List.length_cons,
      Nat.succ_mul, Nat.add_comm]

theorem pieces_flatten {α : Type} {rows : List (List α)} {size : Nat}
    (h : ∀ row ∈ rows, row.length = size) : pieces rows.length size rows.flatten = rows := by
  induction rows with
  | nil => rfl
  | cons row rest ih =>
    have hrow : row.length = size := h row List.mem_cons_self
    simp only [List.length_cons, pieces, List.flatten_cons]
    rw [List.take_left' hrow, List.drop_left' hrow,
      ih fun other hmem => h other (List.mem_cons_of_mem _ hmem)]

theorem pieces_one {α : Type} (items : List α) :
    pieces items.length 1 items = items.map fun item => [item] := by
  have h : pieces _ 1 (items.map fun item => [item]).flatten = _ := pieces_flatten (by simp)
  rwa [List.length_map, ← List.flatMap_def, List.flatMap_singleton'] at h

theorem Rows.ofFlat_flat {rows : Rows} (h : rows.Valid) :
    ofFlat rows.names rows.flat = .ok rows := by
  have hlength : rows.flat.length = rows.entries.length * rows.names.length :=
    length_flatten_of_length h.arity
  have hpos : 0 < rows.names.length := List.length_pos_iff.mpr h.names.nonempty
  simp only [ofFlat, bind_ok, ensure_ok, Labels.checkNames_ok, pure_ok]
  refine ⟨(), h.names, (), by simp [hlength], ?_⟩
  rw [hlength, Nat.mul_div_cancel _ hpos]
  exact congrArg (Rows.mk rows.names) (pieces_flatten h.arity)

theorem Rows.select_valid {rows projected : Rows} {names : List String}
    (h : rows.select names = .ok projected) : projected.Valid ∧ projected.names = names := by
  simp only [select, bind_ok, Labels.checkNames_ok, pure_ok] at h
  obtain ⟨columns, hcolumns, _, hnames, rfl⟩ := h
  have hlength : columns.length = names.length := by
    simp only [Rows.columns, mapM_ok] at hcolumns
    exact hcolumns.length_eq.symm
  refine ⟨⟨hnames, ?_⟩, rfl⟩
  intro entry hmem
  obtain ⟨row, -, rfl⟩ := List.mem_map.mp hmem
  simp [project, size, hlength]

theorem Labels.Valid.ne_nil {labels : Labels} (h : labels.Valid) {entry : Entry}
    (hmem : entry ∈ labels.entries) : entry ≠ [] := by
  rintro rfl
  have harity := h.rows.arity [] hmem
  exact h.rows.names.nonempty (List.length_eq_zero_iff.mp harity.symm)

namespace Labels

-- ---------------------------------------------------------------------------
-- Constructors
-- ---------------------------------------------------------------------------

theorem checkNamesAfter_error {seen names : List String} {error : Error}
    (h : checkNamesAfter seen names = .error error) : ∃ name,
      error = .invalidLabels (.badName name) ∨ error = .invalidLabels (.repeatedName name) := by
  induction names generalizing seen with
  | nil => cases h
  | cons name rest ih =>
    simp only [checkNamesAfter, bind_error, ensure_error] at h
    rcases h with ⟨-, rfl⟩ | ⟨_, -, ⟨-, rfl⟩ | ⟨_, -, hrest⟩⟩
    · exact ⟨name, .inl rfl⟩
    · exact ⟨name, .inr rfl⟩
    · exact ih hrest

theorem checkNames_error {names : List String} {error : Error}
    (h : checkNames names = .error error) : error = .invalidLabels .noNames ∨ ∃ name,
      error = .invalidLabels (.badName name) ∨ error = .invalidLabels (.repeatedName name) := by
  simp only [checkNames, bind_error, ensure_error] at h
  rcases h with ⟨-, rfl⟩ | ⟨_, -, h⟩
  · exact .inl rfl
  · exact .inr (checkNamesAfter_error h)

theorem exists_checkNames_error {names : List String} (h : ¬ValidNames names) :
    ∃ fault, checkNames names = .error (.invalidLabels fault) := by
  cases hcheck : checkNames names with
  | ok => exact absurd (checkNames_ok.mp hcheck) h
  | error error =>
    obtain rfl | ⟨name, rfl | rfl⟩ := checkNames_error hcheck
    · exact ⟨_, rfl⟩
    · exact ⟨_, rfl⟩
    · exact ⟨_, rfl⟩

theorem ofFlat_flat {labels : Labels} (h : labels.Valid) :
    ofFlat labels.names labels.flat = .ok labels := by
  simp only [ofFlat, bind_ok, ofRows_ok]
  exact ⟨labels.toRows, Rows.ofFlat_flat h.rows, h.distinct, rfl⟩

theorem ofRows_valid {rows : Rows} {labels : Labels} (hrows : rows.Valid)
    (h : ofRows rows = .ok labels) : labels.Valid := by
  obtain ⟨hdistinct, rfl⟩ := ofRows_ok.mp h
  exact ⟨hrows, hdistinct⟩

theorem checkArity_ok {size position : Nat} {entries : List Entry} {u : Unit} :
    checkArity size position entries = .ok u ↔ ∀ entry ∈ entries, entry.length = size := by
  induction entries generalizing position with
  | nil => simp [checkArity]
  | cons entry rest ih => simp [checkArity, bind_ok, ensure_ok, ih]

theorem ofEntries_ok {names : List String} {entries : List Entry} {labels : Labels} :
    ofEntries names entries = .ok labels ↔ labels.Valid ∧ labels = ⟨⟨names, entries⟩⟩ := by
  simp only [ofEntries, bind_ok, checkArity_ok]
  constructor
  · rintro ⟨_, harity, h⟩
    obtain ⟨hvalid, rfl, hflat⟩ := ofFlat_valid h
    have hpos : 0 < labels.names.length := List.length_pos_iff.mpr hvalid.rows.names.nonempty
    have hcount : labels.entries.length = entries.length := by
      have hleft := length_flatten_of_length hvalid.rows.arity
      have hright := length_flatten_of_length harity
      rw [← hflat, Rows.flat, hleft] at hright
      exact Nat.eq_of_mul_eq_mul_right hpos hright
    -- Rows of one width are given by their number and their flat values.
    have hentries : labels.entries = entries := by
      rw [← pieces_flatten hvalid.rows.arity, ← pieces_flatten harity, hcount]
      exact congrArg _ hflat
    exact ⟨hvalid, by rw [← hentries]⟩
  · rintro ⟨hvalid, rfl⟩
    exact ⟨(), hvalid.rows.arity, ofFlat_flat hvalid⟩

theorem single_valid : single.Valid :=
  ⟨⟨⟨by decide, by decide, by decide⟩, by decide⟩, by decide⟩

theorem labelValue_ok {n : Nat} {value : LabelValue} :
    labelValue n = .ok value ↔ n < 0x80000000 ∧ value = Int32.ofNat n := by
  unfold labelValue
  split
  next hn => simp [hn, eq_comm]
  next hn => simp [hn]

/-- Label values that differ as counts differ as values. -/
theorem ofNat_inj {m n : Nat} (hm : m < 0x80000000) (hn : n < 0x80000000)
    (h : Int32.ofNat m = Int32.ofNat n) : m = n := by
  have hint := congrArg Int32.toInt h
  rw [Int32.toInt_ofNat_of_lt hm, Int32.toInt_ofNat_of_lt hn] at hint
  exact Int.ofNat_inj.mp hint

theorem ofNat_lt {m n : Nat} (hn : n < 0x80000000) (h : m < n) :
    Int32.ofNat m < Int32.ofNat n := by
  rw [Int32.lt_iff_toInt_lt, Int32.toInt_ofNat_of_lt (Nat.lt_trans h hn),
    Int32.toInt_ofNat_of_lt hn]
  exact Int.ofNat_lt.mpr h

/-- A label value that is not negative is the count of its number. -/
theorem ofNat_toInt {value : LabelValue} (h : 0 ≤ value.toInt) :
    Int32.ofNat value.toInt.toNat = value := by
  have hlt : value.toInt.toNat < 0x80000000 := by
    have hbound := value.toInt_lt
    omega
  rw [← Int32.toInt_inj, Int32.toInt_ofNat_of_lt hlt, Int.toNat_of_nonneg h]

/-- A range is one well formed column that counts its entries; the count has to
be a label value itself. -/
theorem range_ok {name : String} {n : Nat} {labels : Labels} :
    range name n = .ok labels ↔ isName name = true ∧ n < 0x80000000 ∧
      labels = ⟨⟨[name], (List.range n).map fun i => [Int32.ofNat i]⟩⟩ := by
  have hpieces : pieces n 1 ((List.range n).map Int32.ofNat) =
      (List.range n).map fun i => [Int32.ofNat i] := by
    have h := pieces_one ((List.range n).map Int32.ofNat)
    rwa [List.length_map, List.length_range, List.map_map] at h
  have hname : ValidNames [name] ↔ isName name = true :=
    ⟨fun h => h.wellFormed name List.mem_cons_self, fun h => ⟨by simp, by simpa, by simp⟩⟩
  simp only [range, Rows.ofFlat, bind_ok, labelValue_ok, checkNames_ok, ensure_ok, pure_ok,
    List.length_map, List.length_range, List.length_cons, List.length_nil, Nat.zero_add,
    Nat.div_one, hpieces, hname]
  constructor
  · rintro ⟨_, ⟨hn, _⟩, rows, ⟨_, hisName, _, _, rfl⟩, rfl⟩
    exact ⟨hisName, hn, rfl⟩
  · rintro ⟨hisName, hn, rfl⟩
    exact ⟨_, ⟨hn, rfl⟩, _, ⟨(), hisName, (), Nat.mod_one n, rfl⟩, rfl⟩

/-- Numbers below a count are label values even where the count itself is none. -/
theorem ascending_numbers {n : Nat} (h : n ≤ 0x80000000) :
    ((List.range n).map fun i => [Int32.ofNat i]).Pairwise fun a b : Entry => a < b := by
  refine List.pairwise_map.mpr (List.pairwise_lt_range.imp_of_mem fun {i j} _ hj hlt => ?_)
  have hj : j < n := List.mem_range.mp hj
  exact List.cons_lt_cons_iff.mpr (.inl (ofNat_lt (by omega) hlt))

theorem numbers_valid {name : String} {n : Nat} (hname : isName name = true)
    (h : n ≤ 0x80000000) :
    Labels.Valid ⟨⟨[name], (List.range n).map fun i => [Int32.ofNat i]⟩⟩ :=
  ⟨⟨⟨by simp, by simpa using hname, by simp⟩, by simp [Rows.size]⟩,
    (ascending_numbers h).imp fun hlt => Std.ne_of_lt hlt⟩

theorem ascending_range {name : String} {n : Nat} {labels : Labels}
    (h : range name n = .ok labels) : labels.entries.Pairwise fun a b => a < b := by
  obtain ⟨-, hn, rfl⟩ := range_ok.mp h
  exact ascending_numbers (Nat.le_of_lt hn)

theorem range_valid {name : String} {n : Nat} {labels : Labels}
    (h : range name n = .ok labels) : labels.Valid := by
  obtain ⟨hname, hn, rfl⟩ := range_ok.mp h
  exact numbers_valid hname (Nat.le_of_lt hn)

end Labels

-- ---------------------------------------------------------------------------
-- Sorted distinct entries
-- ---------------------------------------------------------------------------

theorem mem_dropRepeats {entries : List Entry} {entry : Entry} :
    entry ∈ dropRepeats entries ↔ entry ∈ entries := by
  fun_induction dropRepeats entries with
  | case1 => rfl
  | case2 => rfl
  | case3 first rest ih => simp [ih]
  | case4 first next rest hne ih => simp [ih]

theorem pairwise_insertBy {α : Type} {precedes : α → α → Bool} {item : α} {items : List α}
    (htotal : ∀ a b, precedes a b = true ∨ precedes b a = true)
    (htrans : ∀ a b c, precedes a b = true → precedes b c = true → precedes a c = true)
    (h : items.Pairwise fun a b => precedes a b = true) :
    (insertBy precedes item items).Pairwise fun a b => precedes a b = true := by
  induction items with
  | nil => simp [insertBy]
  | cons head rest ih =>
    obtain ⟨hhead, hrest⟩ := List.pairwise_cons.mp h
    simp only [insertBy]
    split
    next hitem =>
      refine List.pairwise_cons.mpr ⟨fun other hmem => ?_, h⟩
      rcases List.mem_cons.mp hmem with rfl | hmem
      · exact hitem
      · exact htrans _ _ _ hitem (hhead other hmem)
    next hitem =>
      refine List.pairwise_cons.mpr ⟨fun other hmem => ?_, ih hrest⟩
      rcases List.mem_cons.mp ((perm_insertBy precedes item rest).mem_iff.mp hmem) with rfl | hmem
      · exact (htotal head other).resolve_right hitem
      · exact hhead other hmem

theorem pairwise_sortBy {α : Type} {precedes : α → α → Bool}
    (htotal : ∀ a b, precedes a b = true ∨ precedes b a = true)
    (htrans : ∀ a b c, precedes a b = true → precedes b c = true → precedes a c = true)
    (items : List α) : (sortBy precedes items).Pairwise fun a b => precedes a b = true := by
  induction items with
  | nil => exact .nil
  | cons item rest ih => exact pairwise_insertBy htotal htrans ih

theorem pairwise_sortBy_le (entries : List Entry) :
    (sortBy Entry.le entries).Pairwise fun a b => a ≤ b := by
  refine (pairwise_sortBy ?_ ?_ entries).imp fun h => of_decide_eq_true h
  · intro a b
    simpa [Entry.le] using List.le_total a b
  · intro a b c hab hbc
    exact decide_eq_true (List.le_trans (of_decide_eq_true hab) (of_decide_eq_true hbc))

theorem pairwise_dropRepeats {entries : List Entry} (h : entries.Pairwise fun a b => a ≤ b) :
    (dropRepeats entries).Pairwise fun a b => a < b := by
  fun_induction dropRepeats entries with
  | case1 => exact .nil
  | case2 entry => exact List.pairwise_singleton _ _
  | case3 first rest ih => exact ih (List.pairwise_cons.mp h).2
  | case4 first next rest hne ih =>
    obtain ⟨hfirst, hrest⟩ := List.pairwise_cons.mp h
    refine List.pairwise_cons.mpr ⟨fun entry hmem => ?_, ih hrest⟩
    rcases List.mem_cons.mp (mem_dropRepeats.mp hmem) with rfl | hmem
    · exact Std.lt_of_le_of_ne (hfirst _ List.mem_cons_self) hne
    · have hnext : first < next := Std.lt_of_le_of_ne (hfirst _ List.mem_cons_self) hne
      exact Std.lt_of_lt_of_le hnext ((List.pairwise_cons.mp hrest).1 entry hmem)

theorem Rows.mem_unique {rows : Rows} {entry : Entry} :
    entry ∈ rows.unique.entries ↔ entry ∈ rows.entries := by
  simp only [unique, mem_dropRepeats]
  exact (perm_sortBy Entry.le rows.entries).mem_iff

theorem Rows.pairwise_unique (rows : Rows) : rows.unique.entries.Pairwise fun a b => a < b :=
  pairwise_dropRepeats (pairwise_sortBy_le rows.entries)

theorem Rows.unique_valid {rows : Rows} (h : rows.Valid) : rows.unique.Valid := by
  refine ⟨⟨h.names, fun entry hmem => h.arity entry (mem_unique.mp hmem)⟩, ?_⟩
  exact rows.pairwise_unique.imp fun hlt => Std.ne_of_lt hlt

/-- Entries in strictly ascending order are given by which they are. -/
theorem eq_of_ascending {left right : List Entry} (hleft : left.Pairwise fun a b => a < b)
    (hright : right.Pairwise fun a b => a < b) (h : ∀ entry, entry ∈ left ↔ entry ∈ right) :
    left = right := by
  have hperm := (List.perm_ext_iff_of_nodup (hleft.imp fun hlt => Std.ne_of_lt hlt)
    (hright.imp fun hlt => Std.ne_of_lt hlt)).mpr h
  exact hperm.eq_of_pairwise (fun a b _ _ hab hba => absurd hba (List.lt_asymm hab)) hleft hright

/-- Neither the order of the rows nor how often one occurs plays a part. -/
theorem Rows.unique_congr {left right : Rows} (hnames : left.names = right.names)
    (h : ∀ entry, entry ∈ left.entries ↔ entry ∈ right.entries) : left.unique = right.unique := by
  have hentries : left.unique.entries = right.unique.entries := by
    refine eq_of_ascending left.pairwise_unique right.pairwise_unique fun entry => ?_
    rw [mem_unique, mem_unique, h]
  show (⟨⟨left.names, left.unique.entries⟩⟩ : Labels) = ⟨⟨right.names, right.unique.entries⟩⟩
  rw [hnames, hentries]

namespace Labels

-- ---------------------------------------------------------------------------
-- Set operations
-- ---------------------------------------------------------------------------

theorem union_ok {left right labels : Labels} :
    left.union right = .ok labels ↔ left.names = right.names ∧
      labels = ⟨⟨left.names,
        left.entries ++ right.entries.filter fun entry => !left.entries.contains entry⟩⟩ := by
  simp only [union, contains, Rows.contains_index, checkSameNames, bind_ok, ensure_ok, pure_ok]
  constructor
  · rintro ⟨_, hnames, rfl⟩
    exact ⟨hnames, rfl⟩
  · rintro ⟨hnames, rfl⟩
    exact ⟨(), hnames, rfl⟩

theorem union_valid {left right labels : Labels} (hleft : left.Valid) (hright : right.Valid)
    (h : left.union right = .ok labels) : labels.Valid := by
  obtain ⟨hnames, rfl⟩ := union_ok.mp h
  refine ⟨⟨hleft.rows.names, fun entry hmem => ?_⟩, ?_⟩
  · rcases List.mem_append.mp hmem with hmem | hmem
    · exact hleft.rows.arity entry hmem
    · have harity := hright.rows.arity entry (List.mem_of_mem_filter hmem)
      rwa [Rows.size, ← hnames] at harity
  · refine hleft.distinct.append (hright.distinct.filter _) fun entry hmem hfilter => ?_
    simpa [hmem] using (List.mem_filter.mp hfilter).2

theorem intersection_ok {left right labels : Labels} :
    left.intersection right = .ok labels ↔ left.names = right.names ∧
      labels = ⟨⟨left.names, left.entries.filter right.entries.contains⟩⟩ := by
  simp only [intersection, contains, Rows.contains_index, checkSameNames, bind_ok, ensure_ok,
    pure_ok]
  constructor
  · rintro ⟨_, hnames, rfl⟩
    exact ⟨hnames, rfl⟩
  · rintro ⟨hnames, rfl⟩
    exact ⟨(), hnames, rfl⟩

theorem intersection_valid {left right labels : Labels} (hleft : left.Valid)
    (h : left.intersection right = .ok labels) : labels.Valid := by
  obtain ⟨-, rfl⟩ := intersection_ok.mp h
  exact ⟨⟨hleft.rows.names, fun entry hmem => hleft.rows.arity entry (List.mem_of_mem_filter hmem)⟩,
    hleft.distinct.filter _⟩

theorem entriesAt_valid {labels part : Labels} {positions : List Nat}
    (h : labels.entriesAt positions = .ok part) : part.Valid :=
  (ofFlat_valid h).1

end Labels

end BlockTensor
