import BlockTensor.Labels.Names
import BlockTensor.Selection

/-!
# Building label rows and labels

`Rows.ofFlat` checks names and cuts a flat list of values into rows.
`Labels.ofRows` refuses a repeated entry and names the two positions. The other
constructors go through these two, except `Labels.range`, whose entries are
distinct by construction.

`Rows.Valid` and `Labels.Valid` say what the constructors promise.
-/

namespace BlockTensor

def labelValue (n : Nat) : Except Error LabelValue :=
  if n < 0x80000000 then .ok (Int32.ofNat n) else .error (.invalidLabels (.valueTooLarge n))

def Rows.ofFlat (names : List String) (values : List LabelValue) : Except Error Rows := do
  Labels.checkNames names
  ensure (values.length % names.length = 0)
    (.invalidLabels (.brokenRow values.length names.length))
  pure ⟨names, pieces (values.length / names.length) names.length values⟩

structure Rows.Valid (rows : Rows) : Prop where
  names : Labels.ValidNames rows.names
  arity : ∀ entry ∈ rows.entries, entry.length = rows.size

theorem Rows.ofFlat_valid {names : List String} {values : List LabelValue} {rows : Rows}
    (h : ofFlat names values = .ok rows) :
    rows.Valid ∧ rows.names = names ∧ rows.flat = values := by
  simp only [ofFlat, bind_ok, ensure_ok, Labels.checkNames_ok, pure_ok] at h
  obtain ⟨_, hnames, _, hwhole, rfl⟩ := h
  have hlength : values.length = values.length / names.length * names.length :=
    (Nat.div_mul_cancel (Nat.dvd_of_mod_eq_zero hwhole)).symm
  exact ⟨⟨hnames, fun entry hmem => length_of_mem_pieces hlength hmem⟩, rfl,
    flatten_pieces hlength⟩

namespace Labels

structure Valid (labels : Labels) : Prop where
  rows : labels.toRows.Valid
  distinct : labels.entries.Nodup

/-- Checks that `entries` repeat neither each other nor the entries in `seen`,
which precede them. The fault names the earlier position and the repeated one. -/
def checkDistinctAfter (seen : List Entry) : List Entry → Except Error Unit
  | [] => .ok ()
  | entry :: rest =>
    match seen.idxOf? entry with
    | some first => .error (.invalidLabels (.repeatedEntry entry first seen.length))
    | none => checkDistinctAfter (seen ++ [entry]) rest

theorem checkDistinctAfter_ok {seen entries : List Entry} {u : Unit} :
    checkDistinctAfter seen entries = .ok u ↔
      (∀ entry ∈ entries, entry ∉ seen) ∧ entries.Nodup := by
  induction entries generalizing seen with
  | nil => simp [checkDistinctAfter]
  | cons entry rest ih =>
    have hfind : seen.idxOf? entry = none ↔ entry ∉ seen := by simp
    simp only [checkDistinctAfter]
    cases hposition : seen.idxOf? entry with
    | some first =>
      have hmem : entry ∈ seen := by
        rcases Decidable.em (entry ∈ seen) with h | h
        · exact h
        · rw [hfind.mpr h] at hposition
          cases hposition
      simp [hmem]
    | none =>
      have hmem : entry ∉ seen := hfind.mp hposition
      simp only [ih, List.mem_append, List.mem_cons, List.not_mem_nil, or_false, not_or,
        List.nodup_cons, forall_eq_or_imp]
      constructor
      · rintro ⟨hall, hdistinct⟩
        exact ⟨⟨hmem, fun other h => (hall other h).1⟩,
          fun h => (hall entry h).2 rfl, hdistinct⟩
      · rintro ⟨⟨_, hall⟩, hnew, hdistinct⟩
        exact ⟨fun other h => ⟨hall other h, fun heq => hnew (heq ▸ h)⟩, hdistinct⟩

def ofRows (rows : Rows) : Except Error Labels := do
  checkDistinctAfter [] rows.entries
  pure ⟨rows⟩

theorem ofRows_ok {rows : Rows} {labels : Labels} :
    ofRows rows = .ok labels ↔ rows.entries.Nodup ∧ labels = ⟨rows⟩ := by
  simp only [ofRows, bind_ok, checkDistinctAfter_ok, pure_ok]
  constructor
  · rintro ⟨_, ⟨_, hdistinct⟩, rfl⟩
    exact ⟨hdistinct, rfl⟩
  · rintro ⟨hdistinct, rfl⟩
    exact ⟨(), ⟨by simp, hdistinct⟩, rfl⟩

def ofFlat (names : List String) (values : List LabelValue) : Except Error Labels := do
  ofRows (← Rows.ofFlat names values)

theorem ofFlat_valid {names : List String} {values : List LabelValue} {labels : Labels}
    (h : ofFlat names values = .ok labels) :
    labels.Valid ∧ labels.names = names ∧ labels.flat = values := by
  simp only [ofFlat, bind_ok, ofRows_ok] at h
  obtain ⟨rows, hrows, hdistinct, rfl⟩ := h
  obtain ⟨hvalid, hnames, hflat⟩ := Rows.ofFlat_valid hrows
  exact ⟨⟨hvalid, hdistinct⟩, hnames, hflat⟩

/-- Checks that every entry has `size` values; `position` is the place of the
first of them. -/
def checkArity (size : Nat) (position : Nat) : List Entry → Except Error Unit
  | [] => .ok ()
  | entry :: rest => do
    ensure (entry.length = size) (.invalidLabels (.entryArity position entry.length size))
    checkArity size (position + 1) rest

def ofEntries (names : List String) (entries : List Entry) : Except Error Labels := do
  checkArity names.length 0 entries
  ofFlat names entries.flatten

def empty (names : List String) : Except Error Labels := ofFlat names []

/-- One column that counts from 0 to `n - 1`. -/
def range (name : String) (n : Nat) : Except Error Labels := do
  let _ ← labelValue n
  pure ⟨← Rows.ofFlat [name] ((List.range n).map Int32.ofNat)⟩

end Labels

end BlockTensor
