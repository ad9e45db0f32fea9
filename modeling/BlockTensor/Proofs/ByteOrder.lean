import Mathlib.Data.String.Basic
import Mathlib.Tactic.SplitIfs

/-!
# The order of names

Strings are compared by code points. This is the order of their UTF-8 bytes:
the encoding of a smaller code point has a smaller byte at the first place where
two encodings differ, so that neither is a prefix of the other.
-/

namespace BlockTensor

open String (utf8EncodeChar)

def textBytes (text : String) : List UInt8 := text.toUTF8.data.toList

theorem textBytes_eq_flatMap (text : String) :
    textBytes text = text.toList.flatMap utf8EncodeChar := by
  have hencode : text.toList.utf8Encode = text.toUTF8 := String.utf8Encode_toList
  rw [textBytes, ← hencode, List.utf8Encode]
  simp

/-- The bytes after the first code points that differ play no part. -/
theorem utf8EncodeChar_append_lt {c d : Char} (h : c < d) (left right : List UInt8) :
    utf8EncodeChar c ++ left < utf8EncodeChar d ++ right := by
  have hlt : c.val.toNat < d.val.toNat := h
  have hbound : d.val.toNat < 0x110000 := by
    have hvalid := d.valid
    simp only [UInt32.isValidChar, Nat.isValidChar] at hvalid
    omega
  have hbyteLt (m n : Nat) (hm : m < 256) (hn : n < 256) :
      UInt8.ofNat m < UInt8.ofNat n ↔ m < n :=
    UInt8.ofNat_lt_iff_lt hm hn
  have hbyteEq (m n : Nat) (hm : m < 256) (hn : n < 256) :
      UInt8.ofNat m = UInt8.ofNat n ↔ m = n := by
    rw [← UInt8.toNat_inj, UInt8.toNat_ofNat_of_lt' hm, UInt8.toNat_ofNat_of_lt' hn]
  -- Every byte after the first one holds a digit to base 64.
  have htwo (v : Nat) : v / 4096 = v / 64 / 64 := by omega
  have hthree (v : Nat) : v / 262144 = v / 64 / 64 / 64 := by omega
  simp only [utf8EncodeChar, htwo, hthree]
  generalize c.val.toNat = v at *
  generalize d.val.toNat = w at *
  split_ifs
  all_goals
    simp (disch := omega) only [List.cons_append, List.nil_append, List.cons_lt_cons_iff,
      hbyteLt, hbyteEq]
    omega

theorem flatMap_utf8EncodeChar_lt {a b : List Char} (h : a < b) :
    a.flatMap utf8EncodeChar < b.flatMap utf8EncodeChar := by
  induction a generalizing b with
  | nil =>
    cases b with
    | nil => exact absurd h (Std.lt_irrefl)
    | cons d b =>
      obtain ⟨byte, rest, hencode⟩ :=
        List.exists_cons_of_ne_nil (String.utf8EncodeChar_ne_nil (c := d))
      rw [List.flatMap_nil, List.flatMap_cons, hencode]
      exact .nil
  | cons c a ih =>
    cases b with
    | nil => exact absurd h (List.not_lt_nil _)
    | cons d b =>
      rw [List.flatMap_cons, List.flatMap_cons]
      rcases List.cons_lt_cons_iff.mp h with hlt | ⟨rfl, hlt⟩
      · exact utf8EncodeChar_append_lt hlt _ _
      · exact List.append_left_lt (ih hlt)

theorem textBytes_lt_iff {a b : String} : textBytes a < textBytes b ↔ a < b := by
  have hmono {a b : String} (h : a < b) : textBytes a < textBytes b := by
    rw [textBytes_eq_flatMap, textBytes_eq_flatMap]
    exact flatMap_utf8EncodeChar_lt (String.lt_iff_toList_lt.mp h)
  constructor
  · intro h
    rcases Std.lt_trichotomy a b with hlt | rfl | hgt
    · exact hlt
    · exact absurd h (List.lt_irrefl _)
    · exact absurd (hmono hgt) (List.lt_asymm h)
  · exact hmono

end BlockTensor
