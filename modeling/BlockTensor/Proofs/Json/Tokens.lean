import BlockTensor.Json.Value
import BlockTensor.Proofs.Json.Literals
import Mathlib.Tactic.SplitIfs

/-!
# Blanks, separators and scalars

The small parts of a JSON text, each with the two directions of its reading: a text of
this form is read, and what is read has this form. A number has no end of its own, so
for it the first direction needs the text after it to end the number (`Ends`).
-/

namespace BlockTensor.Json

-- ---------------------------------------------------------------------------
-- Blanks
-- ---------------------------------------------------------------------------

def IsBlanks (gap : List Char) : Prop := ∀ c ∈ gap, isBlank c = true

theorem IsBlanks.nil : IsBlanks [] := by simp [IsBlanks]

theorem IsBlanks.append {gap more : List Char} (hgap : IsBlanks gap) (hmore : IsBlanks more) :
    IsBlanks (gap ++ more) := by
  intro c hc
  exact (List.mem_append.mp hc).elim (hgap c) (hmore c)

theorem IsBlanks.skipBlanks {gap : List Char} (h : IsBlanks gap) (text : List Char) :
    skipBlanks (gap ++ text) = skipBlanks text :=
  List.dropWhile_append_of_pos h

theorem skipBlanks_cons {c : Char} (h : isBlank c = false) (text : List Char) :
    skipBlanks (c :: text) = c :: text := by
  simp [skipBlanks, h]

theorem exists_blanks (text : List Char) : ∃ gap, IsBlanks gap ∧ text = gap ++ skipBlanks text :=
  ⟨text.takeWhile isBlank, List.all_eq_true.mp List.all_takeWhile,
    List.takeWhile_append_dropWhile.symm⟩

theorem skipBlanks_eq_nil_iff {text : List Char} : skipBlanks text = [] ↔ IsBlanks text := by
  constructor
  · intro h
    obtain ⟨gap, hgap, htext⟩ := exists_blanks text
    rw [htext, h, List.append_nil]
    exact hgap
  · intro h
    have hskip := h.skipBlanks []
    rwa [List.append_nil] at hskip

theorem exists_blanks_of_cons {text rest : List Char} {c : Char} (h : skipBlanks text = c :: rest) :
    isBlank c = false ∧ ∃ gap, IsBlanks gap ∧ text = gap ++ c :: rest := by
  obtain ⟨gap, hgap, htext⟩ := exists_blanks text
  refine ⟨?_, gap, hgap, h ▸ htext⟩
  have hhead := List.head?_dropWhile_not isBlank text
  rw [← skipBlanks, h] at hhead
  simpa using hhead

-- ---------------------------------------------------------------------------
-- Separators
-- ---------------------------------------------------------------------------

/-- What stands before an item: blanks before the first, blanks around a comma before
the others. -/
inductive Separator : (first : Bool) → List Char → Prop where
  | opening {gap : List Char} (h : IsBlanks gap) : Separator true gap
  | comma {before after : List Char} (hbefore : IsBlanks before) (hafter : IsBlanks after) :
    Separator false (before ++ ',' :: after)

theorem Separator.append {first : Bool} {separator gap : List Char} (h : Separator first separator)
    (hgap : IsBlanks gap) : Separator first (separator ++ gap) := by
  cases h with
  | opening h => exact .opening (h.append hgap)
  | comma hbefore hafter =>
    rw [List.append_assoc, List.cons_append]
    exact .comma hbefore (hafter.append hgap)

/-- The text starts with a character that is no blank and closes nothing. -/
def Begins (text : List Char) : Prop :=
  ∃ c rest, text = c :: rest ∧ isBlank c = false ∧ ∀ frame : Frame, c ≠ frame.bracket

theorem Begins.append {text : List Char} (h : Begins text) (rest : List Char) :
    Begins (text ++ rest) := by
  obtain ⟨c, tail, rfl, hc⟩ := h
  exact ⟨c, tail ++ rest, rfl, hc⟩

theorem Begins.skipBlanks {text : List Char} (h : Begins text) : skipBlanks text = text := by
  obtain ⟨c, rest, rfl, hblank, _⟩ := h
  exact skipBlanks_cons hblank rest

theorem IsBlanks.skip {gap text : List Char} (h : IsBlanks gap) (hbegins : Begins text) :
    Json.skipBlanks (gap ++ text) = text := by
  rw [h.skipBlanks, hbegins.skipBlanks]

theorem Frame.bracket_solid (frame : Frame) :
    isBlank frame.bracket = false ∧ frame.bracket ≠ ',' := by
  cases frame <;> decide

theorem next?_closing (first : Bool) (frame : Frame) {gap : List Char} (h : IsBlanks gap)
    (rest : List Char) : next? first frame.bracket (gap ++ frame.bracket :: rest) =
      some (.done rest) := by
  simp [next?, h.skipBlanks, skipBlanks_cons frame.bracket_solid.1]

theorem next?_separated {first : Bool} (frame : Frame) {separator text : List Char}
    (h : Separator first separator) (hbegins : Begins text) :
    next? first frame.bracket (separator ++ text) = some (.item text) := by
  obtain ⟨c, rest, rfl, hblank, hbracket⟩ := hbegins
  cases h with
  | opening h => simp [next?, h.skipBlanks, skipBlanks_cons hblank, hbracket frame]
  | comma hbefore hafter =>
    have hcomma : isBlank ',' = false := by decide
    simp [next?, hbefore.skipBlanks, hafter.skipBlanks, skipBlanks_cons hblank,
      skipBlanks_cons hcomma, hbracket frame, frame.bracket_solid.2.symm]

def Next.Splits (first : Bool) (frame : Frame) (text : List Char) : Next → Prop
  | .done rest => ∃ gap, IsBlanks gap ∧ text = gap ++ frame.bracket :: rest
  | .item rest => ∃ separator, Separator first separator ∧ text = separator ++ rest

theorem splits_of_next? {first : Bool} {frame : Frame} {text : List Char} {next : Next}
    (h : next? first frame.bracket text = some next) : next.Splits first frame text := by
  rw [next?] at h
  split at h
  · cases h
  next c rest hblanks =>
  obtain ⟨-, gap, hgap, rfl⟩ := exists_blanks_of_cons hblanks
  split_ifs at h with hbracket hfirst hcomma
  · cases h
    exact ⟨gap, hgap, by rw [hbracket]⟩
  · cases h
    exact ⟨gap, hfirst ▸ .opening hgap, rfl⟩
  · split at h
    · cases h
    next d tail hafter =>
    obtain ⟨-, after, hblank, rfl⟩ := exists_blanks_of_cons hafter
    split_ifs at h
    cases h
    refine ⟨gap ++ ',' :: after, ?_, by simp [hcomma]⟩
    rw [Bool.eq_false_iff.mpr hfirst]
    exact .comma hgap hblank

-- ---------------------------------------------------------------------------
-- Words and numbers
-- ---------------------------------------------------------------------------

theorem after?_iff {word text rest : List Char} :
    after? word text = some rest ↔ text = word ++ rest := by
  induction word generalizing text with
  | nil => simp [after?]
  | cons c word ih =>
    cases text with
    | nil => simp [after?]
    | cons d text =>
      by_cases h : c = d
      · simp [after?, h, ih]
      · simp [after?, h, Ne.symm h]

def IsDigits (digits : List Char) : Prop := digits ≠ [] ∧ ∀ c ∈ digits, c.isDigit = true

def NoDigit (rest : List Char) : Prop := ∀ c ∈ rest.head?, c.isDigit = false

theorem NoDigit.dropWhile {rest : List Char} (h : NoDigit rest) :
    rest.dropWhile Char.isDigit = rest := by
  cases rest with
  | nil => rfl
  | cons c rest => simp [h c rfl]

theorem IsDigits.skip {digits rest : List Char} (h : IsDigits digits) (hrest : NoDigit rest) :
    skipDigits? (digits ++ rest) = some rest := by
  obtain ⟨hne, hdigits⟩ := h
  obtain ⟨c, tail, rfl⟩ := List.exists_cons_of_ne_nil hne
  rw [List.cons_append, skipDigits?, if_pos (hdigits c List.mem_cons_self),
    List.dropWhile_append_of_pos fun d hd => hdigits d (List.mem_cons_of_mem c hd),
    hrest.dropWhile]

theorem digits_of_skipDigits? {text rest : List Char} (h : skipDigits? text = some rest) :
    ∃ digits, IsDigits digits ∧ text = digits ++ rest := by
  cases text with
  | nil => cases h
  | cons c text =>
    rw [skipDigits?] at h
    split_ifs at h with hc
    cases h
    refine ⟨c :: text.takeWhile Char.isDigit, ⟨by simp, ?_⟩, by simp⟩
    intro d hd
    rcases List.mem_cons.mp hd with rfl | hd
    · exact hc
    · exact List.all_eq_true.mp List.all_takeWhile d hd

inductive IsWhole : List Char → Prop where
  | zero : IsWhole ['0']
  | digits {c : Char} {digits : List Char} (hzero : c ≠ '0') (h : IsDigits (c :: digits)) :
    IsWhole (c :: digits)

inductive IsFraction : List Char → Prop where
  | absent : IsFraction []
  | digits {digits : List Char} (h : IsDigits digits) : IsFraction ('.' :: digits)

inductive IsExponent : List Char → Prop where
  | absent : IsExponent []
  | digits {e : Char} {sign digits : List Char} (he : e = 'e' ∨ e = 'E')
    (hsign : sign = [] ∨ sign = ['+'] ∨ sign = ['-']) (h : IsDigits digits) :
    IsExponent (e :: sign ++ digits)

inductive IsNumber : List Char → Prop where
  | parts {sign whole fraction exponent : List Char} (hsign : sign = [] ∨ sign = ['-'])
    (hwhole : IsWhole whole) (hfraction : IsFraction fraction) (hexponent : IsExponent exponent) :
    IsNumber (sign ++ whole ++ fraction ++ exponent)

/-- A number before this text is over. -/
def Ends (rest : List Char) : Prop :=
  ∀ c ∈ rest.head?, c.isDigit = false ∧ c ≠ '.' ∧ c ≠ 'e' ∧ c ≠ 'E'

theorem IsBlanks.ends {gap : List Char} (h : IsBlanks gap) {rest : List Char} (hrest : Ends rest) :
    Ends (gap ++ rest) := by
  cases gap with
  | nil => exact hrest
  | cons c gap =>
    rintro c ⟨⟩
    have hc := h c List.mem_cons_self
    simp only [isBlank, Bool.or_eq_true, beq_iff_eq] at hc
    obtain ((rfl | rfl) | rfl) | rfl := hc <;> decide

theorem ends_bracket (frame : Frame) (rest : List Char) : Ends (frame.bracket :: rest) := by
  rintro c ⟨⟩
  cases frame <;> decide

theorem Separator.ends {separator : List Char} (h : Separator false separator) (rest : List Char) :
    Ends (separator ++ rest) := by
  obtain ⟨⟩ | @⟨before, after, hbefore, _⟩ := h
  rw [List.append_assoc]
  refine hbefore.ends ?_
  rintro c ⟨⟩
  decide

theorem Ends.noDigit {rest : List Char} (h : Ends rest) : NoDigit rest := fun c hc => (h c hc).1

theorem IsWhole.skip {whole rest : List Char} (h : IsWhole whole) (hrest : NoDigit rest) :
    skipInteger? (whole ++ rest) = some rest := by
  cases h with
  | zero =>
    cases rest with
    | nil => rfl
    | cons c rest => simp [skipInteger?, hrest c rfl]
  | digits hzero h =>
    rw [List.cons_append, skipInteger?]
    · exact h.skip hrest
    · simp [hzero]

theorem whole_of_skipInteger? {text rest : List Char} (h : skipInteger? text = some rest) :
    ∃ whole, IsWhole whole ∧ text = whole ++ rest := by
  unfold skipInteger? at h
  split at h
  · split at h
    · cases h
      exact ⟨_, .zero, rfl⟩
    · split_ifs at h
      cases h
      exact ⟨_, .zero, rfl⟩
  next hzero =>
    obtain ⟨digits, hdigits, rfl⟩ := digits_of_skipDigits? h
    obtain ⟨c, tail, rfl⟩ := List.exists_cons_of_ne_nil hdigits.1
    exact ⟨_, .digits (fun hc => hzero (tail ++ rest) (by rw [hc]; rfl)) hdigits, rfl⟩

theorem IsFraction.skip {fraction rest : List Char} (h : IsFraction fraction)
    (hdigit : NoDigit rest) (hpoint : '.' ∉ rest.head?) :
    skipFraction? (fraction ++ rest) = some rest := by
  cases h with
  | absent =>
    rw [List.nil_append, skipFraction?]
    rintro tail rfl
    exact hpoint rfl
  | digits h => exact h.skip hdigit

theorem fraction_of_skipFraction? {text rest : List Char} (h : skipFraction? text = some rest) :
    ∃ fraction, IsFraction fraction ∧ text = fraction ++ rest := by
  unfold skipFraction? at h
  split at h
  · obtain ⟨digits, hdigits, rfl⟩ := digits_of_skipDigits? h
    exact ⟨_, .digits hdigits, rfl⟩
  · cases h
    exact ⟨[], .absent, rfl⟩

theorem skipSign_append {sign digits : List Char}
    (hsign : sign = [] ∨ sign = ['+'] ∨ sign = ['-']) (h : IsDigits digits) (rest : List Char) :
    skipSign (sign ++ digits ++ rest) = digits ++ rest := by
  obtain rfl | rfl | rfl := hsign
  · obtain ⟨c, tail, rfl⟩ := List.exists_cons_of_ne_nil h.1
    have hc := h.2 c List.mem_cons_self
    rw [List.nil_append, List.cons_append, skipSign]
    all_goals
      intro _ h
      cases h
      exact absurd hc (by decide)
  · rfl
  · rfl

theorem exists_sign (text : List Char) :
    ∃ sign, (sign = [] ∨ sign = ['+'] ∨ sign = ['-']) ∧ text = sign ++ skipSign text := by
  fun_cases skipSign text with
  | case1 => exact ⟨['+'], .inr (.inl rfl), rfl⟩
  | case2 => exact ⟨['-'], .inr (.inr rfl), rfl⟩
  | case3 => exact ⟨[], .inl rfl, rfl⟩

theorem IsExponent.skip {exponent rest : List Char} (h : IsExponent exponent) (hrest : Ends rest) :
    skipExponent? (exponent ++ rest) = some rest := by
  cases h with
  | absent =>
    rw [List.nil_append, skipExponent?]
    all_goals
      rintro tail rfl
      have := hrest _ rfl
      simp at this
  | digits he hsign h =>
    rw [List.cons_append, List.cons_append]
    obtain rfl | rfl := he
    all_goals rw [skipExponent?, skipSign_append hsign h, h.skip hrest.noDigit]

theorem exponent_of_skipExponent? {text rest : List Char} (h : skipExponent? text = some rest) :
    ∃ exponent, IsExponent exponent ∧ text = exponent ++ rest := by
  have hpresent : ∀ e after, (e = 'e' ∨ e = 'E') → skipDigits? (skipSign after) = some rest →
      ∃ exponent, IsExponent exponent ∧ e :: after = exponent ++ rest := by
    intro e after he h
    obtain ⟨sign, hsign, hafter⟩ := exists_sign after
    obtain ⟨digits, hdigits, hskip⟩ := digits_of_skipDigits? h
    exact ⟨_, .digits he hsign hdigits, by rw [hafter, hskip]; simp⟩
  unfold skipExponent? at h
  split at h
  · exact hpresent 'e' _ (.inl rfl) h
  · exact hpresent 'E' _ (.inr rfl) h
  · cases h
    exact ⟨[], .absent, rfl⟩

/-- Neither a digit nor a point comes after a fraction. -/
theorem IsExponent.head {exponent rest : List Char} (h : IsExponent exponent) (hrest : Ends rest) :
    ∀ c ∈ (exponent ++ rest).head?, c.isDigit = false ∧ c ≠ '.' := by
  cases h with
  | absent => exact fun c hc => ⟨(hrest c hc).1, (hrest c hc).2.1⟩
  | digits he =>
    rintro c ⟨⟩
    obtain rfl | rfl := he <;> decide

theorem IsFraction.noDigit {fraction rest : List Char} (h : IsFraction fraction)
    (hrest : NoDigit rest) : NoDigit (fraction ++ rest) := by
  cases h with
  | absent => exact hrest
  | digits =>
    rintro c ⟨⟩
    decide

theorem IsWhole.head {whole : List Char} (h : IsWhole whole) :
    ∃ c rest, whole = c :: rest ∧ c.isDigit = true := by
  cases h with
  | zero => exact ⟨'0', [], rfl, rfl⟩
  | digits _ h => exact ⟨_, _, rfl, h.2 _ List.mem_cons_self⟩

theorem IsNumber.skip {number rest : List Char} (h : IsNumber number) (hrest : Ends rest) :
    skipNumber? (number ++ rest) = some rest := by
  obtain @⟨sign, whole, fraction, exponent, hsign, hwhole, hfraction, hexponent⟩ := h
  have hhead := hexponent.head hrest
  have hdigit : NoDigit (exponent ++ rest) := fun c hc => (hhead c hc).1
  have hinteger := hwhole.skip (hfraction.noDigit hdigit)
  have hpoint := hfraction.skip hdigit fun hc => (hhead _ hc).2 rfl
  obtain rfl | rfl := hsign
  · obtain ⟨c, tail, rfl, hc⟩ := hwhole.head
    have hminus : c ≠ '-' := by
      rintro rfl
      cases hc
    simp_all [skipNumber?, hexponent.skip hrest]
  · simp [skipNumber?, hinteger, hpoint, hexponent.skip hrest]

theorem number_of_skipNumber? {text rest : List Char} (h : skipNumber? text = some rest) :
    ∃ number, IsNumber number ∧ text = number ++ rest := by
  obtain ⟨_, hinteger, h⟩ := Option.bind_eq_some_iff.mp h
  obtain ⟨_, hpoint, hpower⟩ := Option.bind_eq_some_iff.mp h
  obtain ⟨exponent, hexponent, rfl⟩ := exponent_of_skipExponent? hpower
  obtain ⟨fraction, hfraction, rfl⟩ := fraction_of_skipFraction? hpoint
  obtain ⟨whole, hwhole, hunsigned⟩ := whole_of_skipInteger? hinteger
  split at hunsigned
  · exact ⟨_, .parts (.inr rfl) hwhole hfraction hexponent, by simp [hunsigned]⟩
  · exact ⟨_, .parts (.inl rfl) hwhole hfraction hexponent, by simp [hunsigned]⟩

-- ---------------------------------------------------------------------------
-- Scalars
-- ---------------------------------------------------------------------------

inductive IsScalar : List Char → Prop where
  | text {literal : List Char} (h : IsLiteral literal) : IsScalar literal
  | trueWord : IsScalar ['t', 'r', 'u', 'e']
  | falseWord : IsScalar ['f', 'a', 'l', 's', 'e']
  | nullWord : IsScalar ['n', 'u', 'l', 'l']
  | number {number : List Char} (h : IsNumber number) : IsScalar number

theorem IsNumber.head {number : List Char} (h : IsNumber number) :
    ∃ c rest, number = c :: rest ∧ (c = '-' ∨ c.isDigit = true) := by
  obtain ⟨rfl | rfl, hwhole, _, _⟩ := h
  · obtain ⟨c, tail, rfl, hc⟩ := hwhole.head
    exact ⟨c, _, rfl, .inr hc⟩
  · exact ⟨'-', _, rfl, .inl rfl⟩

theorem IsScalar.skip {scalar rest : List Char} (h : IsScalar scalar) (hrest : Ends rest) :
    skipScalar? (scalar ++ rest) = some rest := by
  cases h with
  | text h =>
    obtain ⟨tail, rfl, hskip⟩ := h.skip
    exact hskip rest
  | trueWord => exact after?_iff.mpr rfl
  | falseWord => exact after?_iff.mpr rfl
  | nullWord => exact after?_iff.mpr rfl
  | number h =>
    have hskip := h.skip hrest
    obtain ⟨c, tail, rfl, hc⟩ := h.head
    rw [List.cons_append, skipScalar?]
    · exact hskip
    all_goals
      intro _ heq
      cases heq
      revert hc
      decide

theorem scalar_of_skipScalar? {text rest : List Char} (h : skipScalar? text = some rest) :
    ∃ scalar, IsScalar scalar ∧ text = scalar ++ rest := by
  unfold skipScalar? at h
  split at h
  · obtain ⟨literal, hliteral, htext⟩ := literal_of_skip? h
    exact ⟨literal, .text hliteral, htext⟩
  · exact ⟨_, .trueWord, by rw [after?_iff.mp h]; rfl⟩
  · exact ⟨_, .falseWord, by rw [after?_iff.mp h]; rfl⟩
  · exact ⟨_, .nullWord, by rw [after?_iff.mp h]; rfl⟩
  · obtain ⟨number, hnumber, htext⟩ := number_of_skipNumber? h
    exact ⟨number, .number hnumber, htext⟩

theorem IsScalar.head {scalar : List Char} (h : IsScalar scalar) :
    ∃ c rest, scalar = c :: rest ∧ (c ∈ ['"', 't', 'f', 'n', '-'] ∨ c.isDigit = true) := by
  cases h with
  | text h =>
    obtain ⟨tail, rfl, _⟩ := h.skip
    exact ⟨_, _, rfl, by decide⟩
  | trueWord => exact ⟨_, _, rfl, by decide⟩
  | falseWord => exact ⟨_, _, rfl, by decide⟩
  | nullWord => exact ⟨_, _, rfl, by decide⟩
  | number h =>
    obtain ⟨c, rest, rfl, hc⟩ := h.head
    exact ⟨c, rest, rfl, hc.imp_left fun h => by simp [h]⟩

theorem IsScalar.begins {scalar : List Char} (h : IsScalar scalar) : Begins scalar := by
  obtain ⟨c, rest, rfl, hc⟩ := h.head
  refine ⟨c, rest, rfl, ?_, ?_⟩
  · rw [Bool.eq_false_iff]
    intro hblank
    simp only [isBlank, Bool.or_eq_true, beq_iff_eq] at hblank
    obtain ((rfl | rfl) | rfl) | rfl := hblank <;> revert hc <;> decide
  · rintro frame rfl
    cases frame <;> revert hc <;> decide

theorem IsScalar.opened? {c : Char} {rest : List Char} (h : IsScalar (c :: rest)) :
    Frame.opened? c = none := by
  obtain ⟨_, _, ⟨⟩, hc⟩ := h.head
  rw [Frame.opened?, if_neg, if_neg]
  all_goals
    rintro rfl
    revert hc
    decide

end BlockTensor.Json
