import BlockTensor.Json.Value
import BlockTensor.Proofs.Json.Tokens

/-!
# The grammar of values

A value is a scalar, or items between two brackets with keys before them in an object.
Passing over takes what encloses a value apart item by item, with a list of frames;
`IsValue.skips` says it consumes a value of the grammar and goes on with the frames
around it, `values_of_skipValue?` that it consumes nothing else.
-/

namespace BlockTensor.Json

/-- What stands before a value in a frame: in an object a key, a colon and blanks. -/
inductive IsKey : Frame → List Char → Prop where
  | none : IsKey .list []
  | key {literal before after : List Char} (h : IsLiteral literal) (hbefore : IsBlanks before)
    (hafter : IsBlanks after) : IsKey .object (literal ++ before ++ ':' :: after)

def Frame.opening : Frame → Char
  | list => '['
  | object => '\x7b'

mutual
inductive IsValue : List Char → Prop where
  | scalar {text : List Char} (h : IsScalar text) : IsValue text
  | enclosed {frame : Frame} {text : List Char} (h : IsItems frame true text) :
    IsValue (frame.opening :: text ++ [frame.bracket])
/-- The items of a frame, or those from the second on, and the blanks behind them. -/
inductive IsItems : Frame → (first : Bool) → List Char → Prop where
  | nil {frame : Frame} {first : Bool} {gap : List Char} (h : IsBlanks gap) :
    IsItems frame first gap
  | cons {frame : Frame} {first : Bool} {separator key value rest : List Char}
    (hseparator : Separator first separator) (hkey : IsKey frame key) (hvalue : IsValue value)
    (hrest : IsItems frame false rest) :
    IsItems frame first (separator ++ key ++ value ++ rest)
end

-- ---------------------------------------------------------------------------
-- First characters
-- ---------------------------------------------------------------------------

theorem Frame.opening_solid (frame : Frame) :
    isBlank frame.opening = false ∧ ∀ other : Frame, frame.opening ≠ other.bracket := by
  cases frame <;> refine ⟨by decide, fun other => ?_⟩ <;> cases other <;> decide

theorem Frame.opened?_opening (frame : Frame) : opened? frame.opening = some frame := by
  cases frame <;> rfl

theorem Frame.opening_of_opened? {c : Char} {frame : Frame} (h : opened? c = some frame) :
    frame.opening = c := by
  rw [opened?] at h
  split_ifs at h with hlist hobject
  · cases h
    exact hlist.symm
  · cases h
    exact hobject.symm

theorem IsValue.begins {value : List Char} (h : IsValue value) : Begins value := by
  cases h with
  | scalar h => exact h.begins
  | @enclosed frame text h => exact ⟨_, _, rfl, frame.opening_solid⟩

theorem IsKey.begins {frame : Frame} {key value : List Char} (h : IsKey frame key)
    (hvalue : Begins value) : Begins (key ++ value) := by
  cases h with
  | none => exact hvalue
  | key h =>
    obtain ⟨tail, rfl, _⟩ := h.skip
    refine ⟨'"', _, rfl, by decide, fun frame => ?_⟩
    cases frame <;> decide

theorem IsItems.ends {frame : Frame} {items : List Char} (h : IsItems frame false items)
    (rest : List Char) : Ends (items ++ frame.bracket :: rest) := by
  cases h with
  | nil h => exact h.ends (ends_bracket frame rest)
  | cons hseparator =>
    simp only [List.append_assoc]
    exact hseparator.ends _

-- ---------------------------------------------------------------------------
-- Passing over a value
-- ---------------------------------------------------------------------------

theorem IsBlanks.afterColon? {gap : List Char} (h : IsBlanks gap) (rest : List Char) :
    afterColon? (gap ++ ':' :: rest) = some rest := by
  have hcolon : isBlank ':' = false := by decide
  simp [Json.afterColon?, h.skipBlanks, skipBlanks_cons hcolon]

theorem IsKey.skip {frame : Frame} {key value : List Char} (h : IsKey frame key)
    (hvalue : Begins value) :
    ∃ text, frame.skipKey? (key ++ value) = some text ∧ skipBlanks text = value := by
  cases h with
  | none => exact ⟨value, rfl, hvalue.skipBlanks⟩
  | @key literal before after h hbefore hafter =>
    obtain ⟨tail, rfl, hskip⟩ := h.skip
    refine ⟨after ++ value, ?_, hafter.skip hvalue⟩
    simp [Frame.skipKey?, hskip, hbefore.afterColon?]

theorem skipValueIn_congr {text other : List Char} (h : skipBlanks text = skipBlanks other)
    (fuel : Nat) (frames : List Frame) :
    skipValueIn fuel frames text = skipValueIn fuel frames other := by
  cases fuel with
  | zero => rfl
  | succ fuel => rw [skipValueIn, skipValueIn, h]

mutual
/-- A value takes less fuel than twice its length, and leaves the rest of it. -/
theorem IsValue.skips {value : List Char} (h : IsValue value) :
    ∃ cost < 2 * value.length, ∀ fuel frames rest, Ends rest →
      skipValueIn (cost + fuel) frames (value ++ rest) = skipItemsIn fuel false frames rest := by
  match h with
  | .scalar h =>
    obtain ⟨c, tail, rfl, hblank, -⟩ := h.begins
    refine ⟨1, by simp; omega, fun fuel frames rest hrest => ?_⟩
    have hskip := h.skip hrest
    rw [List.cons_append] at hskip ⊢
    rw [Nat.add_comm, skipValueIn, skipBlanks_cons hblank]
    simp [h.opened?, hskip]
  | @IsValue.enclosed frame text h =>
    obtain ⟨cost, hcost, hskips⟩ := h.skips
    refine ⟨cost + 1, by simp; omega, fun fuel frames rest _ => ?_⟩
    rw [Nat.add_right_comm, List.cons_append, List.cons_append, skipValueIn,
      skipBlanks_cons frame.opening_solid.1]
    simpa [frame.opened?_opening] using hskips fuel frames rest

theorem IsItems.skips {frame : Frame} {first : Bool} {items : List Char}
    (h : IsItems frame first items) :
    ∃ cost ≤ 2 * items.length + 1, ∀ fuel frames rest,
      skipItemsIn (cost + fuel) first (frame :: frames) (items ++ frame.bracket :: rest) =
        skipItemsIn fuel false frames rest := by
  match h with
  | .nil h =>
    refine ⟨1, by omega, fun fuel frames rest => ?_⟩
    rw [Nat.add_comm, skipItemsIn, next?_closing first frame h]
    rfl
  | @IsItems.cons _ _ separator key value items hseparator hkey hvalue hitems =>
    obtain ⟨costValue, hcostValue, hskipValue⟩ := hvalue.skips
    obtain ⟨costItems, hcostItems, hskipItems⟩ := hitems.skips
    refine ⟨costValue + costItems + 1, by simp; omega, fun fuel frames rest => ?_⟩
    have hbegins := hvalue.begins.append (items ++ frame.bracket :: rest)
    obtain ⟨text, hkeySkip, hblanks⟩ := hkey.skip hbegins
    have hnext := next?_separated frame hseparator (hkey.begins hbegins)
    rw [show costValue + costItems + 1 + fuel = costValue + (costItems + fuel) + 1 by omega]
    simp only [List.append_assoc, skipItemsIn, hnext, hkeySkip, Option.bind_eq_bind,
      Option.bind_some]
    rw [skipValueIn_congr (hblanks.trans hbegins.skipBlanks.symm),
      hskipValue _ _ _ (hitems.ends rest), hskipItems]
end

theorem IsValue.skipValue? {gap value rest : List Char} (h : IsValue value) (hgap : IsBlanks gap)
    (hrest : Ends rest) : skipValue? (gap ++ value ++ rest) = some rest := by
  obtain ⟨cost, hcost, hskips⟩ := h.skips
  obtain ⟨fuel, hfuel⟩ : ∃ fuel, 2 * (gap ++ value ++ rest).length + 1 = cost + fuel :=
    ⟨2 * (gap ++ value ++ rest).length + 1 - cost, by simp; omega⟩
  have hblanks : skipBlanks (gap ++ value ++ rest) = skipBlanks (value ++ rest) := by
    rw [List.append_assoc, hgap.skipBlanks]
  rw [Json.skipValue?, hfuel, skipValueIn_congr hblanks, hskips fuel [] rest hrest, skipItemsIn]

-- ---------------------------------------------------------------------------
-- What is passed over
-- ---------------------------------------------------------------------------

/-- The text closes the frames, innermost first; the innermost one has the items left
that the flag says. -/
def Closes : (first : Bool) → List Frame → (text rest : List Char) → Prop
  | _, [], text, rest => text = rest
  | first, frame :: frames, text, rest =>
    ∃ items after, IsItems frame first items ∧ text = items ++ frame.bracket :: after ∧
      Closes false frames after rest

theorem colon_of_afterColon? {text rest : List Char} (h : afterColon? text = some rest) :
    ∃ gap, IsBlanks gap ∧ text = gap ++ ':' :: rest := by
  unfold afterColon? at h
  split at h
  next hblanks =>
    cases h
    exact (exists_blanks_of_cons hblanks).2
  · cases h

/-- The blanks before a value belong to the key in an object, and to the separator in
a list. -/
theorem key_of_skipKey? {frame : Frame} {text gap value : List Char}
    (h : frame.skipKey? text = some (gap ++ value)) (hgap : IsBlanks gap) {first : Bool}
    {separator : List Char} (hseparator : Separator first separator) :
    ∃ separator' key, Separator first separator' ∧ IsKey frame key ∧
      separator ++ text = separator' ++ key ++ value := by
  unfold Frame.skipKey? at h
  split at h
  · cases h
    exact ⟨separator ++ gap, [], hseparator.append hgap, .none, by simp⟩
  · obtain ⟨tail, hskip, hcolon⟩ := Option.bind_eq_some_iff.mp h
    obtain ⟨literal, hliteral, htext⟩ := literal_of_skip? hskip
    obtain ⟨before, hbefore, rfl⟩ := colon_of_afterColon? hcolon
    exact ⟨separator, _, hseparator, .key hliteral hbefore hgap, by simp [htext]⟩
  · cases h

def ClosesAfterValue (frames : List Frame) (text rest : List Char) : Prop :=
  ∃ gap value after, IsBlanks gap ∧ IsValue value ∧ text = gap ++ (value ++ after) ∧
    Closes false frames after rest

section

variable {fuel : Nat} (hitems : ∀ first frames text rest,
  skipItemsIn fuel first frames text = some rest → Closes first frames text rest)
include hitems

theorem closes_value_step {frames : List Frame} {text rest : List Char}
    (h : skipValueIn (fuel + 1) frames text = some rest) : ClosesAfterValue frames text rest := by
  rw [skipValueIn] at h
  split at h
  · cases h
  next c tail hblanks =>
  obtain ⟨-, gap, hgap, rfl⟩ := exists_blanks_of_cons hblanks
  split at h
  next frame hopened =>
    obtain ⟨items, after, henclosed, rfl, hcloses⟩ := hitems _ _ _ _ h
    refine ⟨gap, _, after, hgap, .enclosed henclosed, ?_, hcloses⟩
    simp [Frame.opening_of_opened? hopened]
  · obtain ⟨after, hskip, hrest⟩ := Option.bind_eq_some_iff.mp h
    obtain ⟨scalar, hscalar, hsplit⟩ := scalar_of_skipScalar? hskip
    exact ⟨gap, scalar, after, hgap, .scalar hscalar, by rw [hsplit], hitems _ _ _ _ hrest⟩

theorem closes_items_step (hvalue : ∀ frames text rest,
    skipValueIn fuel frames text = some rest → ClosesAfterValue frames text rest) {first : Bool}
    {frame : Frame} {frames : List Frame} {text rest : List Char}
    (h : skipItemsIn (fuel + 1) first (frame :: frames) text = some rest) :
    Closes first (frame :: frames) text rest := by
  rw [skipItemsIn] at h
  obtain ⟨next, hnext, hskip⟩ := Option.bind_eq_some_iff.mp h
  have hsplits := splits_of_next? hnext
  cases next with
  | done after =>
    obtain ⟨gap, hgap, rfl⟩ := hsplits
    exact ⟨gap, after, .nil hgap, rfl, hitems _ _ _ _ hskip⟩
  | item tail =>
    obtain ⟨_, hseparator, rfl⟩ := hsplits
    obtain ⟨_, hkeySkip, hvalueSkip⟩ := Option.bind_eq_some_iff.mp hskip
    obtain ⟨gap, value, _, hgap, hisValue, rfl, others, after, hothers, rfl, hcloses⟩ :=
      hvalue _ _ _ hvalueSkip
    obtain ⟨separator, key, hseparator, hkey, hsplit⟩ := key_of_skipKey? hkeySkip hgap hseparator
    exact ⟨_, after, .cons hseparator hkey hisValue hothers, by simp [hsplit], hcloses⟩

end

theorem closes_of_skip (fuel : Nat) :
    (∀ frames text rest, skipValueIn fuel frames text = some rest →
      ClosesAfterValue frames text rest) ∧
    ∀ first frames text rest, skipItemsIn fuel first frames text = some rest →
      Closes first frames text rest := by
  have hnil : ∀ fuel first text rest, skipItemsIn fuel first [] text = some rest →
      Closes first [] text rest := fun _ _ _ _ h => by
    simpa [skipItemsIn, Closes] using h
  -- The two functions call each other with less fuel, so one induction carries both.
  induction fuel with
  | zero =>
    refine ⟨fun _ _ _ h => by simp [skipValueIn] at h, fun first frames text rest h => ?_⟩
    cases frames with
    | nil => exact hnil 0 first text rest h
    | cons => simp [skipItemsIn] at h
  | succ fuel ih =>
    obtain ⟨hvalue, hitems⟩ := ih
    refine ⟨fun _ _ _ => closes_value_step hitems, fun first frames text rest h => ?_⟩
    cases frames with
    | nil => exact hnil _ first text rest h
    | cons => exact closes_items_step hitems hvalue h

theorem value_of_skipValue? {text rest : List Char} (h : skipValue? text = some rest) :
    ∃ gap value, IsBlanks gap ∧ IsValue value ∧ text = gap ++ value ++ rest := by
  obtain ⟨gap, value, after, hgap, hvalue, rfl, rfl⟩ := (closes_of_skip _).1 [] text rest h
  exact ⟨gap, value, hgap, hvalue, by simp⟩

end BlockTensor.Json
