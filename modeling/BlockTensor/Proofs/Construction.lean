import BlockTensor.Proofs.LabelLaws

/-!
# What makes labels

The constructor of labels accepts a list of names and a list of entries exactly
if the names are distinct identifiers and the entries are distinct and have one
value per name. What it refuses has a fault of labels; entries that are merely
repeated are reported by the first repeat (`FirstRepeat`). Flat values are
accepted or refused like the rows that they are cut into.
-/

namespace BlockTensor.Labels

-- ---------------------------------------------------------------------------
-- Names
-- ---------------------------------------------------------------------------

def IsLetter (c : Char) : Prop := 'a' ≤ c ∧ c ≤ 'z' ∨ 'A' ≤ c ∧ c ≤ 'Z'

def IsDigit (c : Char) : Prop := '0' ≤ c ∧ c ≤ '9'

@[mk_iff]
structure IsIdentifier (name : String) : Prop where
  nonempty : name ≠ ""
  characters : ∀ c ∈ name.toList, IsLetter c ∨ IsDigit c ∨ c = '_'
  start : ∀ c ∈ name.toList.head?, ¬IsDigit c

theorem isAlpha_iff {c : Char} : c.isAlpha = true ↔ IsLetter c := by
  have hcases : c.isAlpha = (decide (c.val ≥ 'A'.val ∧ c.val ≤ 'Z'.val) ||
      (decide (c.val ≥ 'a'.val) && decide (c.val ≤ 'z'.val))) := rfl
  simp [hcases, IsLetter, Char.le_def, or_comm]

theorem isDigit_iff {c : Char} : c.isDigit = true ↔ IsDigit c := by
  simp [Char.isDigit, IsDigit, Char.le_def]

theorem not_isDigit_of_isLetter {c : Char} (h : IsLetter c) : ¬IsDigit c := by
  intro hdigit
  obtain ⟨h, -⟩ | ⟨h, -⟩ := h
  · exact absurd (Char.le_trans h hdigit.2) (by decide)
  · exact absurd (Char.le_trans h hdigit.2) (by decide)

theorem isName_iff {name : String} : isName name = true ↔ IsIdentifier name := by
  have hchar {c : Char} : (c.isAlphanum || c == '_') = true ↔ IsLetter c ∨ IsDigit c ∨ c = '_' := by
    simp [Char.isAlphanum, isAlpha_iff, isDigit_iff, or_assoc]
  have hstart {c : Char} : (c.isAlpha || c == '_') = true ↔
      (IsLetter c ∨ IsDigit c ∨ c = '_') ∧ ¬IsDigit c := by
    rw [Bool.or_eq_true, isAlpha_iff, beq_iff_eq]
    constructor
    · rintro (hletter | rfl)
      · exact ⟨.inl hletter, not_isDigit_of_isLetter hletter⟩
      · exact ⟨.inr (.inr rfl), by unfold IsDigit; decide⟩
    · rintro ⟨hletter | hdigit | hunderscore, hno⟩
      · exact .inl hletter
      · exact absurd hdigit hno
      · exact .inr hunderscore
  rw [isIdentifier_iff, isName, ne_eq, ← String.toList_eq_nil_iff]
  cases name.toList with
  | nil => simp
  | cons first rest =>
    simp only [Bool.and_eq_true, List.all_eq_true, hchar, hstart]
    simp [and_assoc, and_comm]

/-- At least one name, all of them identifiers, none twice. -/
def IsHeading (names : List String) : Prop :=
  names ≠ [] ∧ (∀ name ∈ names, IsIdentifier name) ∧ names.Nodup

theorem validNames_iff {names : List String} : ValidNames names ↔ IsHeading names := by
  simp only [IsHeading, ← isName_iff]
  exact ⟨fun h => ⟨h.nonempty, h.wellFormed, h.distinct⟩, fun ⟨hne, hnames, hdistinct⟩ =>
    ⟨hne, hnames, hdistinct⟩⟩

-- ---------------------------------------------------------------------------
-- Repeated entries
-- ---------------------------------------------------------------------------

/-- The entry at `second` is the first one that occurred before, and it did so
once, at `first`. -/
structure FirstRepeat (entries : List Entry) (entry : Entry) (first second : Nat) : Prop where
  earlier : first < second
  atFirst : entries[first]? = some entry
  atSecond : entries[second]? = some entry
  least : ∀ i j, i < j → j < second → entries[i]? ≠ entries[j]?
  only : ∀ i, i < second → entries[i]? = some entry → i = first

theorem FirstRepeat.not_nodup {entries : List Entry} {entry : Entry} {first second : Nat}
    (h : FirstRepeat entries entry first second) : ¬entries.Nodup := by
  intro hdistinct
  have hsecond := (List.getElem?_eq_some_iff.mp h.atSecond).1
  exact List.nodup_iff_getElem?_ne_getElem?.mp hdistinct _ _ h.earlier hsecond
    (h.atFirst.trans h.atSecond.symm)

theorem FirstRepeat.unique {entries : List Entry} {entry other : Entry}
    {first second first' second' : Nat} (h : FirstRepeat entries entry first second)
    (h' : FirstRepeat entries other first' second') :
    entry = other ∧ first = first' ∧ second = second' := by
  have hsecond : second = second' := by
    rcases Nat.lt_trichotomy second second' with hlt | heq | hlt
    · exact absurd (h.atFirst.trans h.atSecond.symm) (h'.least _ _ h.earlier hlt)
    · exact heq
    · exact absurd (h'.atFirst.trans h'.atSecond.symm) (h.least _ _ h'.earlier hlt)
  subst hsecond
  obtain rfl : entry = other := Option.some.inj (h.atSecond.symm.trans h'.atSecond)
  exact ⟨rfl, h'.only _ h.earlier h.atFirst, rfl⟩

theorem firstRepeat_of_idxOf? {seen rest : List Entry} {entry : Entry} {first : Nat}
    (hseen : seen.Nodup) (h : seen.idxOf? entry = some first) :
    FirstRepeat (seen ++ entry :: rest) entry first seen.length := by
  obtain ⟨hfirst, hentry, -⟩ := List.idxOf?_eq_some_iff.mp h
  have hentry : seen[first]? = some entry := List.getElem?_eq_some_iff.mpr ⟨hfirst, hentry⟩
  have hleft {i : Nat} (hi : i < seen.length) : (seen ++ entry :: rest)[i]? = seen[i]? :=
    List.getElem?_append_left hi
  have hdistinct := List.nodup_iff_getElem?_ne_getElem?.mp hseen
  exact {
    earlier := hfirst
    atFirst := (hleft hfirst).trans hentry
    atSecond := by simp
    least := by
      intro i j hij hj
      rw [hleft (Nat.lt_trans hij hj), hleft hj]
      exact hdistinct i j hij hj
    only := by
      intro i hi hsame
      rw [hleft hi, ← hentry] at hsame
      rcases Nat.lt_trichotomy i first with hlt | heq | hlt
      · exact absurd hsame (hdistinct _ _ hlt hfirst)
      · exact heq
      · exact absurd hsame.symm (hdistinct _ _ hlt hi) }

/-- Places are counted through the entries that were seen and those that are
checked after them. -/
theorem firstRepeat_of_checkDistinctAfter {seen entries : List Entry} {error : Error}
    (hseen : seen.Nodup) (h : checkDistinctAfter seen entries = .error error) :
    ∃ entry first second, FirstRepeat (seen ++ entries) entry first second ∧
      error = .invalidLabels (.repeatedEntry entry first second) := by
  induction entries generalizing seen with
  | nil => cases h
  | cons entry rest ih =>
    rw [checkDistinctAfter] at h
    cases hposition : seen.idxOf? entry with
    | none =>
      rw [hposition] at h
      have hnew : entry ∉ seen := List.idxOf?_eq_none_iff.mp hposition
      have hnext : (seen ++ [entry]).Nodup :=
        hseen.append (List.nodup_singleton entry) (by simpa)
      simpa using ih hnext h
    | some first =>
      rw [hposition] at h
      cases h
      exact ⟨entry, first, _, firstRepeat_of_idxOf? hseen hposition, rfl⟩

theorem checkDistinctAfter_error {entries : List Entry} {error : Error} :
    checkDistinctAfter [] entries = .error error ↔
      ∃ entry first second, FirstRepeat entries entry first second ∧
        error = .invalidLabels (.repeatedEntry entry first second) := by
  constructor
  · exact firstRepeat_of_checkDistinctAfter List.nodup_nil
  · rintro ⟨entry, first, second, hrepeat, rfl⟩
    cases hcheck : checkDistinctAfter [] entries with
    | ok => exact absurd (checkDistinctAfter_ok.mp hcheck).2 hrepeat.not_nodup
    | error found =>
      obtain ⟨other, first', second', hfound, rfl⟩ :=
        firstRepeat_of_checkDistinctAfter List.nodup_nil hcheck
      obtain ⟨rfl, rfl, rfl⟩ := hrepeat.unique hfound
      rfl

-- ---------------------------------------------------------------------------
-- Entries
-- ---------------------------------------------------------------------------

theorem checkArity_error {size position : Nat} {entries : List Entry} {error : Error}
    (h : checkArity size position entries = .error error) :
    ∃ place values, error = .invalidLabels (.entryArity place values size) := by
  induction entries generalizing position with
  | nil => cases h
  | cons entry rest ih =>
    simp only [checkArity, bind_error, ensure_error] at h
    rcases h with ⟨-, rfl⟩ | ⟨_, -, hrest⟩
    · exact ⟨_, _, rfl⟩
    · exact ih hrest

section
variable {names : List String} {entries : List Entry}

theorem ofEntries_of_arity (h : ∀ entry ∈ entries, entry.length = names.length) :
    ofEntries names entries = ofFlat names entries.flatten := by
  have harity : checkArity names.length 0 entries = .ok () := checkArity_ok.mpr h
  rw [ofEntries, harity]
  rfl

/-- Only repeats are left to be found. -/
theorem ofEntries_of_heading (hnames : IsHeading names)
    (h : ∀ entry ∈ entries, entry.length = names.length) :
    ofEntries names entries = (checkDistinctAfter [] entries).map fun _ => ⟨⟨names, entries⟩⟩ := by
  have hvalid : Rows.Valid ⟨names, entries⟩ := ⟨validNames_iff.mpr hnames, h⟩
  have hrows : Rows.ofFlat names entries.flatten = .ok ⟨names, entries⟩ := Rows.ofFlat_flat hvalid
  rw [ofEntries_of_arity h, ofFlat, hrows]
  show ofRows ⟨names, entries⟩ = _
  rw [ofRows]
  cases checkDistinctAfter [] entries <;> rfl

theorem ofEntries_error {error : Error} (h : ofEntries names entries = .error error) :
    (∃ place values, error = .invalidLabels (.entryArity place values names.length)) ∨
    checkNames names = .error error ∨
    IsHeading names ∧ (∀ entry ∈ entries, entry.length = names.length) ∧
      ∃ entry first second, FirstRepeat entries entry first second ∧
        error = .invalidLabels (.repeatedEntry entry first second) := by
  by_cases harity : ∀ entry ∈ entries, entry.length = names.length
  · by_cases hnames : IsHeading names
    · rw [ofEntries_of_heading hnames harity] at h
      cases hcheck : checkDistinctAfter [] entries with
      | ok => rw [hcheck] at h; cases h
      | error found =>
        rw [hcheck] at h
        cases h
        exact .inr (.inr ⟨hnames, harity, checkDistinctAfter_error.mp hcheck⟩)
    · obtain ⟨fault, hfault⟩ := exists_checkNames_error (mt validNames_iff.mp hnames)
      rw [ofEntries_of_arity harity, ofFlat, Rows.ofFlat, hfault] at h
      cases h
      exact .inr (.inl hfault)
  · rw [ofEntries, bind_error] at h
    rcases h with h | ⟨_, hcheck, -⟩
    · exact .inl (checkArity_error h)
    · exact absurd (checkArity_ok.mp hcheck) harity

end

-- ---------------------------------------------------------------------------
-- Construction
-- ---------------------------------------------------------------------------

structure ConstructionLaws (names : List String) (entries : List Entry) : Prop where
  ok_iff : (∃ labels, ofEntries names entries = .ok labels) ↔
    IsHeading names ∧ (∀ entry ∈ entries, entry.length = names.length) ∧ entries.Nodup
  made : ∀ labels, ofEntries names entries = .ok labels → labels.names = names ∧
    labels.entries = entries ∧ ofFlat names entries.flatten = .ok labels
  fault : ∀ error, ofEntries names entries = .error error → ∃ fault, error = .invalidLabels fault
  /-- Two places are reported if nothing else is wrong. -/
  repeated_iff : ∀ entry first second,
    ofEntries names entries = .error (.invalidLabels (.repeatedEntry entry first second)) ↔
      IsHeading names ∧ (∀ entry ∈ entries, entry.length = names.length) ∧
        FirstRepeat entries entry first second
  exists_repeat : ¬entries.Nodup → ∃ entry first second, FirstRepeat entries entry first second

structure FlatLaws (names : List String) (values : List LabelValue) : Prop where
  rows : names.length ∣ values.length → ∃ rows : List Entry, rows.flatten = values ∧
    (∀ row ∈ rows, row.length = names.length) ∧ ofFlat names values = ofEntries names rows
  broken : ¬names.length ∣ values.length →
    ∃ fault, ofFlat names values = .error (.invalidLabels fault)

theorem exists_firstRepeat {entries : List Entry} (h : ¬entries.Nodup) :
    ∃ entry first second, FirstRepeat entries entry first second := by
  cases hcheck : checkDistinctAfter [] entries with
  | ok => exact absurd (checkDistinctAfter_ok.mp hcheck).2 h
  | error =>
    obtain ⟨entry, first, second, hrepeat, -⟩ := checkDistinctAfter_error.mp hcheck
    exact ⟨entry, first, second, hrepeat⟩

theorem constructionLaws (names : List String) (entries : List Entry) :
    ConstructionLaws names entries where
  ok_iff := by
    simp only [ofEntries_ok, ← validNames_iff]
    constructor
    · rintro ⟨_, hvalid, rfl⟩
      exact ⟨hvalid.rows.names, hvalid.rows.arity, hvalid.distinct⟩
    · rintro ⟨hnames, harity, hdistinct⟩
      exact ⟨_, ⟨⟨hnames, harity⟩, hdistinct⟩, rfl⟩
  made := by
    intro labels h
    obtain ⟨hvalid, rfl⟩ := ofEntries_ok.mp h
    exact ⟨rfl, rfl, ofFlat_flat hvalid⟩
  fault := by
    intro error h
    obtain ⟨_, _, rfl⟩ | hnames | ⟨-, -, _, _, _, -, rfl⟩ := ofEntries_error h
    · exact ⟨_, rfl⟩
    · obtain rfl | ⟨_, rfl | rfl⟩ := checkNames_error hnames
      · exact ⟨_, rfl⟩
      · exact ⟨_, rfl⟩
      · exact ⟨_, rfl⟩
    · exact ⟨_, rfl⟩
  repeated_iff := by
    intro entry first second
    constructor
    · intro h
      obtain ⟨_, _, h⟩ | hnames | ⟨hnames, harity, _, _, _, hrepeat, h⟩ := ofEntries_error h
      · cases h
      · obtain h | ⟨_, h | h⟩ := checkNames_error hnames <;> cases h
      · cases h
        exact ⟨hnames, harity, hrepeat⟩
    · rintro ⟨hnames, harity, hrepeat⟩
      rw [ofEntries_of_heading hnames harity,
        checkDistinctAfter_error.mpr ⟨_, _, _, hrepeat, rfl⟩]
      rfl
  exists_repeat := exists_firstRepeat

theorem flatLaws (names : List String) (values : List LabelValue) : FlatLaws names values where
  rows := by
    intro hwhole
    have hlength : values.length = values.length / names.length * names.length :=
      (Nat.div_mul_cancel hwhole).symm
    refine ⟨pieces (values.length / names.length) names.length values, flatten_pieces hlength,
      fun row hmem => length_of_mem_pieces hlength hmem, ?_⟩
    rw [ofEntries_of_arity fun row hmem => length_of_mem_pieces hlength hmem,
      flatten_pieces hlength]
  broken := by
    intro hbroken
    by_cases hnames : ValidNames names
    · have hcheck : checkNames names = .ok () := checkNames_ok.mpr hnames
      have hrow : ¬values.length % names.length = 0 := mt Nat.dvd_of_mod_eq_zero hbroken
      refine ⟨.brokenRow values.length names.length, ?_⟩
      rw [ofFlat, Rows.ofFlat, hcheck, ensure_of_not hrow]
      rfl
    · obtain ⟨fault, hfault⟩ := exists_checkNames_error hnames
      rw [ofFlat, Rows.ofFlat, hfault]
      exact ⟨fault, rfl⟩

theorem construction_laws (names : List String) (entries : List Entry) (values : List LabelValue) :
    ConstructionLaws names entries ∧ FlatLaws names values :=
  ⟨constructionLaws names entries, flatLaws names values⟩

example : ofEntries ["a"] [[0], [1], [0], [1]] =
    .error (.invalidLabels (.repeatedEntry [0] 0 2)) := rfl

end BlockTensor.Labels
