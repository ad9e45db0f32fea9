import BlockTensor.Output.Request
import BlockTensor.Proofs.Json.Values

/-!
# Texts of fields

The values a field of a request can have: texts, truth values and lists of texts. Each
has its grammar, and its reader accepts blanks followed by a text of the grammar and
nothing else (`Reads`).
-/

namespace BlockTensor.Output.Request

open Json

-- ---------------------------------------------------------------------------
-- Items one after the other
-- ---------------------------------------------------------------------------

/-- The items between two brackets, or those from the second on, and the blanks behind
them. -/
inductive Sequence {α : Type} (Item : α → List Char → Prop) :
    (first : Bool) → List α → List Char → Prop where
  | nil {first : Bool} {gap : List Char} (h : IsBlanks gap) : Sequence Item first [] gap
  | cons {first : Bool} {separator text rest : List Char} {item : α} {items : List α}
    (hseparator : Separator first separator) (hitem : Item item text)
    (hrest : Sequence Item false items rest) :
    Sequence Item first (item :: items) (separator ++ text ++ rest)

section

variable {α : Type} {Item : α → List Char → Prop} {items : List α} {text : List Char}

theorem Sequence.length_le {first : Bool} (h : Sequence Item first items text)
    (hbegins : ∀ item text, Item item text → Begins text) : items.length ≤ text.length := by
  induction h with
  | nil => exact Nat.zero_le _
  | cons _ hitem _ ih =>
    obtain ⟨c, tail, rfl, _⟩ := hbegins _ _ hitem
    simp only [List.length_cons, List.length_append]
    omega

theorem Sequence.ends (h : Sequence Item false items text) (frame : Frame) (rest : List Char) :
    Ends (text ++ frame.bracket :: rest) := by
  cases h with
  | nil h => exact h.ends (ends_bracket frame rest)
  | cons hseparator =>
    simp only [List.append_assoc]
    exact hseparator.ends _

end

-- ---------------------------------------------------------------------------
-- Readers
-- ---------------------------------------------------------------------------

structure Reads {α : Type} (read : List Char → Option (α × List Char))
    (Text : α → List Char → Prop) : Prop where
  begins : ∀ {value text}, Text value text → Begins text
  complete : ∀ {value text}, Text value text → ∀ {gap}, IsBlanks gap → ∀ rest,
    read (gap ++ (text ++ rest)) = some (value, rest)
  sound : ∀ {value text rest}, read text = some (value, rest) →
    ∃ gap part, IsBlanks gap ∧ Text value part ∧ text = gap ++ (part ++ rest)

theorem Reads.read_text {α : Type} {read : List Char → Option (α × List Char)}
    {Text : α → List Char → Prop} (h : Reads read Text) {value : α} {text : List Char}
    (htext : Text value text) (rest : List Char) : read (text ++ rest) = some (value, rest) :=
  h.complete htext IsBlanks.nil rest

theorem begins_of_spells {text literal : List Char} (h : Spells text literal) : Begins literal :=
  (IsScalar.text h.isLiteral).begins

theorem reads_text : Reads readText fun value text => Spells value.toList text where
  begins := begins_of_spells
  complete := by
    intro value text h gap hgap rest
    have hread : read? (text ++ rest) = some (value.toList, rest) := read?_iff.mpr ⟨text, h, rfl⟩
    simp [readText, hgap.skip ((begins_of_spells h).append rest), hread]
  sound := by
    intro value text rest h
    obtain ⟨⟨chars, after⟩, hread, h⟩ := Option.bind_eq_some_iff.mp h
    cases h
    obtain ⟨gap, hgap, htext⟩ := exists_blanks text
    obtain ⟨literal, hliteral, hsplit⟩ := read?_iff.mp hread
    exact ⟨gap, literal, hgap, by simpa using hliteral, by rw [← hsplit, ← htext]⟩

theorem begins_writeBool (value : Bool) : Begins (writeBool value) := by
  cases value
  · exact IsScalar.falseWord.begins
  · exact IsScalar.trueWord.begins

theorem reads_bool : Reads readBool fun value text => text = writeBool value where
  begins := by
    rintro value _ rfl
    exact begins_writeBool value
  complete := by
    rintro value _ rfl gap hgap rest
    rw [readBool, hgap.skip ((begins_writeBool value).append rest)]
    cases value <;> rfl
  sound := by
    intro value text rest h
    have hsplit : skipBlanks text = writeBool value ++ rest := by
      unfold readBool at h
      split at h
      next hblanks =>
        obtain ⟨after, hword, h⟩ := Option.map_eq_some_iff.mp h
        cases h
        rw [hblanks, after?_iff.mp hword]
        rfl
      next hblanks =>
        obtain ⟨after, hword, h⟩ := Option.map_eq_some_iff.mp h
        cases h
        rw [hblanks, after?_iff.mp hword]
        rfl
      · cases h
    obtain ⟨gap, hgap, htext⟩ := exists_blanks text
    exact ⟨gap, _, hgap, rfl, by rw [← hsplit, ← htext]⟩

def IsTexts (texts : List String) (text : List Char) : Prop :=
  ∃ items, Sequence (fun text literal => Spells text.toList literal) true texts items ∧
    text = '[' :: items ++ [']']

theorem readTextsFrom_complete {first : Bool} {texts : List String} {items : List Char}
    (h : Sequence (fun text literal => Spells text.toList literal) first texts items)
    (rest : List Char) {fuel : Nat} (hfuel : texts.length < fuel) :
    readTextsFrom fuel first (items ++ ']' :: rest) = some (texts, rest) := by
  induction h generalizing fuel with
  | @nil first gap h =>
    obtain ⟨fuel, rfl⟩ := Nat.exists_eq_add_one_of_ne_zero (Nat.ne_zero_of_lt hfuel)
    have hnext : next? first ']' (gap ++ ']' :: rest) = some (.done rest) :=
      next?_closing first .list h rest
    simp [readTextsFrom, hnext]
  | @cons first separator literal items text texts hseparator hliteral hitems ih =>
    obtain ⟨fuel, rfl⟩ := Nat.exists_eq_add_one_of_ne_zero (Nat.ne_zero_of_lt hfuel)
    have hnext : next? first ']' (separator ++ (literal ++ (items ++ ']' :: rest))) =
        some (.item (literal ++ (items ++ ']' :: rest))) :=
      next?_separated .list hseparator ((reads_text.begins hliteral).append _)
    simp [readTextsFrom, hnext, reads_text.read_text hliteral, ih (Nat.lt_of_succ_lt_succ hfuel)]

theorem readTextsFrom_sound {fuel : Nat} {first : Bool} {texts : List String}
    {text rest : List Char} (h : readTextsFrom fuel first text = some (texts, rest)) :
    ∃ items, Sequence (fun text literal => Spells text.toList literal) first texts items ∧
      text = items ++ ']' :: rest := by
  induction fuel generalizing first texts text with
  | zero => cases h
  | succ fuel ih =>
    obtain ⟨next, hnext, hread⟩ := Option.bind_eq_some_iff.mp h
    have hsplits : next.Splits first .list text := splits_of_next? hnext
    cases next with
    | done after =>
      cases hread
      obtain ⟨gap, hgap, rfl⟩ := hsplits
      exact ⟨gap, .nil hgap, rfl⟩
    | item tail =>
      obtain ⟨separator, hseparator, rfl⟩ := hsplits
      obtain ⟨⟨item, _⟩, hitem, hread⟩ := Option.bind_eq_some_iff.mp hread
      obtain ⟨⟨items, _⟩, hitems, hread⟩ := Option.bind_eq_some_iff.mp hread
      cases hread
      obtain ⟨gap, literal, hgap, hliteral, rfl⟩ := reads_text.sound hitem
      obtain ⟨others, hothers, rfl⟩ := ih hitems
      exact ⟨_, .cons (hseparator.append hgap) hliteral hothers, by simp⟩

theorem IsTexts.begins {texts : List String} {text : List Char} (h : IsTexts texts text) :
    Begins text := by
  obtain ⟨items, _, rfl⟩ := h
  exact ⟨'[', _, rfl, Frame.list.opening_solid⟩

theorem reads_texts : Reads readTexts IsTexts where
  begins := IsTexts.begins
  complete := by
    intro texts text h gap hgap rest
    rw [readTexts, hgap.skip (h.begins.append rest)]
    obtain ⟨items, hitems, rfl⟩ := h
    have hlength := hitems.length_le fun _ _ => begins_of_spells
    have hfuel : texts.length < (items ++ ']' :: rest).length + 1 := by
      simp only [List.length_append]
      omega
    simpa using readTextsFrom_complete hitems rest hfuel
  sound := by
    intro texts text rest h
    unfold readTexts at h
    split at h
    next hblanks =>
      obtain ⟨-, gap, hgap, rfl⟩ := exists_blanks_of_cons hblanks
      obtain ⟨items, hitems, rfl⟩ := readTextsFrom_sound h
      exact ⟨gap, _, hgap, ⟨items, hitems, rfl⟩, by simp⟩
    · cases h

end BlockTensor.Output.Request
