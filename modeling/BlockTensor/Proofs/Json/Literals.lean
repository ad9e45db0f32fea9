import BlockTensor.Json.Literal

/-!
# Spellings of texts

A text has many literals: characters as they are, short escapes, 16-bit units and
surrogate pairs. `Spells` says which, and reading accepts these and no others
(`read?_iff`). A literal that is passed over may hold any units. What `encode` writes
is one of the spellings of its text.
-/

namespace BlockTensor.Json

-- ---------------------------------------------------------------------------
-- Pieces
-- ---------------------------------------------------------------------------

inductive Raw : List Char → List Piece → Prop where
  | nil : Raw [] []
  | plain {c : Char} {text : List Char} {pieces : List Piece} (hquote : c ≠ '"')
    (hbackslash : c ≠ '\\') (hcontrol : ¬c.toNat < 32) (h : Raw text pieces) :
    Raw (c :: text) (.char c :: pieces)
  | escape {c escaped : Char} {text : List Char} {pieces : List Piece}
    (hescape : shortEscape? c = some escaped) (h : Raw text pieces) :
    Raw ('\\' :: c :: text) (.char escaped :: pieces)
  | unit {a b c d : Char} {n : Nat} {text : List Char} {pieces : List Piece}
    (hunit : unit? a b c d = some n) (h : Raw text pieces) :
    Raw ('\\' :: 'u' :: a :: b :: c :: d :: text) (.unit n :: pieces)

theorem Raw.pieces? {text : List Char} {pieces : List Piece} (h : Raw text pieces)
    (rest : List Char) : pieces? (text ++ '"' :: rest) = some (pieces, rest) := by
  induction h with
  | nil => rfl
  | @plain c text pieces hquote hbackslash hcontrol _ ih =>
    rw [List.cons_append, Json.pieces?]
    · rw [if_neg (by simp [hbackslash, hcontrol]), ih]
      rfl
    all_goals simp [hquote, hbackslash]
  | @escape c escaped text pieces hescape _ ih =>
    have hu : c ≠ 'u' := by
      rintro rfl
      cases hescape
    rw [List.cons_append, List.cons_append, Json.pieces?]
    · rw [hescape, ih]
      rfl
    all_goals simp [hu]
  | unit hunit _ ih =>
    simp only [List.cons_append]
    rw [Json.pieces?, hunit, ih]
    rfl

/-- What is read up to the closing quote, and from it on. -/
theorem raw_of_pieces? {text rest : List Char} {pieces : List Piece}
    (h : pieces? text = some (pieces, rest)) :
    ∃ raw, Raw raw pieces ∧ text = raw ++ '"' :: rest := by
  fun_induction pieces? text generalizing pieces with
  | case1 => cases h
  | case2 rest =>
    cases h
    exact ⟨[], .nil, rfl⟩
  | case3 a b c d text ih =>
    obtain ⟨n, hunit, h⟩ := Option.bind_eq_some_iff.mp h
    obtain ⟨⟨tail, rest⟩, hrest, h⟩ := Option.bind_eq_some_iff.mp h
    cases h
    obtain ⟨raw, hraw, rfl⟩ := ih hrest
    exact ⟨_, .unit hunit hraw, rfl⟩
  | case4 c text _ ih =>
    obtain ⟨escaped, hescape, h⟩ := Option.bind_eq_some_iff.mp h
    obtain ⟨⟨tail, rest⟩, hrest, h⟩ := Option.bind_eq_some_iff.mp h
    cases h
    obtain ⟨raw, hraw, rfl⟩ := ih hrest
    exact ⟨_, .escape hescape hraw, rfl⟩
  | case5 => cases h
  | case6 c text hquote _ hbackslash hplain ih =>
    obtain ⟨⟨tail, rest⟩, hrest, h⟩ := Option.bind_eq_some_iff.mp h
    cases h
    obtain ⟨raw, hraw, rfl⟩ := ih hrest
    obtain ⟨hb, hcontrol⟩ := not_or.mp hplain
    exact ⟨_, .plain hquote hb hcontrol hraw, rfl⟩

-- ---------------------------------------------------------------------------
-- Joined pieces
-- ---------------------------------------------------------------------------

/-- The characters of pieces. A unit is a character of its own unless it is a
surrogate; two surrogates, a high one and then a low one, are one character. -/
inductive Joins : List Piece → List Char → Prop where
  | nil : Joins [] []
  | char {c : Char} {pieces : List Piece} {text : List Char} (h : Joins pieces text) :
    Joins (.char c :: pieces) (c :: text)
  | unit {n : Nat} {pieces : List Piece} {text : List Char} (hhigh : isHighSurrogate n = false)
    (hlow : isLowSurrogate n = false) (h : Joins pieces text) :
    Joins (.unit n :: pieces) (Char.ofNat n :: text)
  | pair {high low : Nat} {pieces : List Piece} {text : List Char}
    (hhigh : isHighSurrogate high = true) (hlow : isLowSurrogate low = true)
    (h : Joins pieces text) :
    Joins (.unit high :: .unit low :: pieces)
      (Char.ofNat (0x10000 + (high - 0xd800) * 0x400 + (low - 0xdc00)) :: text)

theorem join?_unit {n : Nat} (hhigh : isHighSurrogate n = false)
    (hlow : isLowSurrogate n = false) (pieces : List Piece) :
    join? (.unit n :: pieces) = (join? pieces).map (Char.ofNat n :: ·) := by
  cases pieces with
  | nil => simp [join?, hhigh, hlow]
  | cons piece pieces => cases piece <;> simp [join?, hhigh, hlow]

theorem Joins.join? {pieces : List Piece} {text : List Char} (h : Joins pieces text) :
    join? pieces = some text := by
  induction h with
  | nil => rfl
  | char _ ih => rw [Json.join?, ih, Option.map_some]
  | unit hhigh hlow _ ih => rw [join?_unit hhigh hlow, ih, Option.map_some]
  | pair hhigh hlow _ ih => rw [Json.join?, if_pos hhigh, if_pos hlow, ih, Option.map_some]

theorem joins_of_join? {pieces : List Piece} {text : List Char} (h : join? pieces = some text) :
    Joins pieces text := by
  fun_induction join? pieces generalizing text with
  | case1 =>
    cases h
    exact .nil
  | case2 c pieces ih =>
    obtain ⟨tail, htail, rfl⟩ := Option.map_eq_some_iff.mp h
    exact .char (ih htail)
  | case3 high low pieces hhigh hlow ih =>
    obtain ⟨tail, htail, rfl⟩ := Option.map_eq_some_iff.mp h
    exact .pair hhigh hlow (ih htail)
  | case4 => cases h
  | case5 => cases h
  | case6 high low pieces hhigh hlow ih =>
    obtain ⟨tail, htail, rfl⟩ := Option.map_eq_some_iff.mp h
    exact .unit (by simpa using hhigh) (by simpa using hlow) (ih htail)
  | case7 => cases h
  | case8 n pieces _ hunit ih =>
    obtain ⟨tail, htail, rfl⟩ := Option.map_eq_some_iff.mp h
    obtain ⟨hhigh, hlow⟩ := Bool.or_eq_false_iff.mp (by simpa using hunit)
    exact .unit hhigh hlow (ih htail)

-- ---------------------------------------------------------------------------
-- Literals
-- ---------------------------------------------------------------------------

def IsLiteral (literal : List Char) : Prop :=
  ∃ raw pieces, Raw raw pieces ∧ literal = '"' :: raw ++ ['"']

def Spells (text literal : List Char) : Prop :=
  ∃ raw pieces, Raw raw pieces ∧ Joins pieces text ∧ literal = '"' :: raw ++ ['"']

theorem Spells.isLiteral {text literal : List Char} (h : Spells text literal) :
    IsLiteral literal := by
  obtain ⟨raw, pieces, hraw, _, rfl⟩ := h
  exact ⟨raw, pieces, hraw, rfl⟩

theorem read?_iff {literal text rest : List Char} :
    read? literal = some (text, rest) ↔
      ∃ spelling, Spells text spelling ∧ literal = spelling ++ rest := by
  constructor
  · intro h
    fun_cases read? literal with
    | case1 tail =>
      obtain ⟨⟨pieces, after⟩, hpieces, h⟩ := Option.bind_eq_some_iff.mp h
      obtain ⟨joined, hjoin, h⟩ := Option.bind_eq_some_iff.mp h
      cases h
      obtain ⟨raw, hraw, rfl⟩ := raw_of_pieces? hpieces
      exact ⟨_, ⟨raw, pieces, hraw, joins_of_join? hjoin, rfl⟩, by simp⟩
    | case2 => simp_all [read?]
  · rintro ⟨_, ⟨raw, pieces, hraw, hjoins, rfl⟩, rfl⟩
    simp [read?, hraw.pieces? rest, hjoins.join?]

theorem IsLiteral.skip {literal : List Char} (h : IsLiteral literal) :
    ∃ tail, literal = '"' :: tail ∧ ∀ rest, skip? (tail ++ rest) = some rest := by
  obtain ⟨raw, pieces, hraw, rfl⟩ := h
  refine ⟨raw ++ ['"'], rfl, fun rest => ?_⟩
  rw [List.append_assoc, List.singleton_append, skip?, hraw.pieces? rest, Option.map_some]

theorem literal_of_skip? {text rest : List Char} (h : skip? text = some rest) :
    ∃ literal, IsLiteral literal ∧ '"' :: text = literal ++ rest := by
  obtain ⟨⟨pieces, _⟩, hpieces, rfl⟩ := Option.map_eq_some_iff.mp h
  obtain ⟨raw, hraw, rfl⟩ := raw_of_pieces? hpieces
  exact ⟨_, ⟨raw, pieces, hraw, rfl⟩, by simp⟩

-- ---------------------------------------------------------------------------
-- The written literal
-- ---------------------------------------------------------------------------

theorem hexValue?_hexDigit {n : Nat} (h : n < 16) : hexValue? (hexDigit n) = some n := by
  revert n
  decide

theorem unit?_of_lt {n : Nat} (h : n < 256) :
    unit? '0' '0' (hexDigit (n / 16)) (hexDigit (n % 16)) = some n := by
  have hhigh := hexValue?_hexDigit (n := n / 16) (by omega)
  have hlow := hexValue?_hexDigit (n := n % 16) (by omega)
  have hzero : hexValue? '0' = some 0 := by decide
  simp [unit?, hhigh, hlow, hzero]
  omega

/-- A written character is one piece, whatever follows it. -/
theorem Raw.encodeChar (c : Char) {text : List Char} {pieces : List Piece} (h : Raw text pieces) :
    ∃ piece, Raw (encodeChar c ++ text) (piece :: pieces) ∧
      ∀ chars, Joins pieces chars → Joins (piece :: pieces) (c :: chars) := by
  have hof : ∀ n, c.toNat = n → c = Char.ofNat n := by
    rintro n rfl
    exact (Char.ofNat_toNat c).symm
  have hescaped : ∀ d, shortEscape? d = some c →
      ∃ piece, Raw ('\\' :: d :: text) (piece :: pieces) ∧
        ∀ chars, Joins pieces chars → Joins (piece :: pieces) (c :: chars) :=
    fun d hescape => ⟨_, .escape hescape h, fun _ => .char⟩
  fun_cases Json.encodeChar c with
  | case1 hc => exact hescaped '"' (by rw [hc]; rfl)
  | case2 _ hc => exact hescaped '\\' (by rw [hc]; rfl)
  | case3 _ _ hc => exact hescaped 'b' (by rw [hof 8 hc]; rfl)
  | case4 _ _ _ hc => exact hescaped 't' (by rw [hof 9 hc]; rfl)
  | case5 _ _ _ _ hc => exact hescaped 'n' (by rw [hof 10 hc]; rfl)
  | case6 _ _ _ _ _ hc => exact hescaped 'f' (by rw [hof 12 hc]; rfl)
  | case7 _ _ _ _ _ _ hc => exact hescaped 'r' (by rw [hof 13 hc]; rfl)
  | case8 _ _ _ _ _ _ _ hcontrol =>
    refine ⟨_, .unit (unit?_of_lt (by omega)) h, fun chars hjoins => ?_⟩
    have hjoined : Joins (.unit c.toNat :: pieces) (Char.ofNat c.toNat :: chars) := by
      refine .unit ?_ ?_ hjoins
      · simp only [isHighSurrogate, Bool.and_eq_false_iff, decide_eq_false_iff_not]
        omega
      · simp only [isLowSurrogate, Bool.and_eq_false_iff, decide_eq_false_iff_not]
        omega
    rwa [← hof c.toNat rfl] at hjoined
  | case9 hquote hbackslash _ _ _ _ _ hcontrol =>
    exact ⟨_, .plain hquote hbackslash hcontrol h, fun _ => .char⟩

theorem spells_encode (text : List Char) : Spells text (encode text) := by
  have hraw : ∃ pieces, Raw (text.flatMap encodeChar) pieces ∧ Joins pieces text := by
    induction text with
    | nil => exact ⟨[], .nil, .nil⟩
    | cons c text ih =>
      obtain ⟨pieces, hraw, hjoins⟩ := ih
      obtain ⟨piece, hpiece, hjoin⟩ := hraw.encodeChar c
      exact ⟨piece :: pieces, hpiece, hjoin text hjoins⟩
  obtain ⟨pieces, hraw, hjoins⟩ := hraw
  exact ⟨_, pieces, hraw, hjoins, rfl⟩

end BlockTensor.Json
