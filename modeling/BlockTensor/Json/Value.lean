import BlockTensor.Json.Literal

/-!
# Passing over JSON values

`skipValue?` gives the text after one value of any kind. Values may be nested
to any depth; what encloses the current place is kept in a list. Two steps use
up at least one character, so twice the length of the text is fuel enough.
-/

namespace BlockTensor.Json

def isBlank (c : Char) : Bool := c == ' ' || c == '\t' || c == '\n' || c == '\r'

def skipBlanks (text : List Char) : List Char := text.dropWhile isBlank

def after? : (word text : List Char) → Option (List Char)
  | [], text => some text
  | c :: word, d :: text => if c = d then after? word text else none
  | _ :: _, [] => none

inductive Next where
  /-- The closing bracket has been read. -/
  | done (rest : List Char)
  | item (rest : List Char)
  deriving DecidableEq

/-- Reads up to the next item, or the closing bracket. Items after the first
follow a comma, and no comma stands before the bracket. -/
def next? (first : Bool) (bracket : Char) (text : List Char) : Option Next :=
  match skipBlanks text with
  | [] => none
  | c :: rest =>
    if c = bracket then some (.done rest)
    else if first then some (.item (c :: rest))
    else if c = ',' then
      match skipBlanks rest with
      | [] => none
      | d :: rest => if d = bracket then none else some (.item (d :: rest))
    else none

def afterColon? (text : List Char) : Option (List Char) :=
  match skipBlanks text with
  | ':' :: rest => some rest
  | _ => none

def skipDigits? : List Char → Option (List Char)
  | [] => none
  | c :: rest => if c.isDigit then some (rest.dropWhile Char.isDigit) else none

/-- What follows an integer without sign. A leading zero stands alone. -/
def skipInteger? : List Char → Option (List Char)
  | '0' :: rest =>
    match rest with
    | [] => some []
    | c :: rest => if c.isDigit then none else some (c :: rest)
  | text => skipDigits? text

def skipFraction? : List Char → Option (List Char)
  | '.' :: rest => skipDigits? rest
  | text => some text

def skipSign : List Char → List Char
  | '+' :: rest => rest
  | '-' :: rest => rest
  | text => text

def skipExponent? : List Char → Option (List Char)
  | 'e' :: rest => skipDigits? (skipSign rest)
  | 'E' :: rest => skipDigits? (skipSign rest)
  | text => some text

def skipNumber? (text : List Char) : Option (List Char) := do
  let text := match text with
    | '-' :: rest => rest
    | text => text
  skipExponent? (← skipFraction? (← skipInteger? text))

def skipScalar? : List Char → Option (List Char)
  | '"' :: rest => skip? rest
  | 't' :: rest => after? ['r', 'u', 'e'] rest
  | 'f' :: rest => after? ['a', 'l', 's', 'e'] rest
  | 'n' :: rest => after? ['u', 'l', 'l'] rest
  | text => skipNumber? text

inductive Frame where
  | list
  | object
  deriving DecidableEq

def Frame.bracket : Frame → Char
  | list => ']'
  | object => '\x7d'

def Frame.skipKey? : Frame → List Char → Option (List Char)
  | list, text => some text
  | object, '"' :: rest => do afterColon? (← skip? rest)
  | object, _ => none

def Frame.opened? (c : Char) : Option Frame :=
  if c = '[' then some list else if c = '\x7b' then some object else none

mutual
/-- Passes over a value and then over all that encloses it. -/
def skipValueIn : (fuel : Nat) → List Frame → List Char → Option (List Char)
  | 0, _, _ => none
  | fuel + 1, frames, text =>
    match skipBlanks text with
    | [] => none
    | c :: rest =>
      match Frame.opened? c with
      | some frame => skipItemsIn fuel true (frame :: frames) rest
      | none => do skipItemsIn fuel false frames (← skipScalar? (c :: rest))
def skipItemsIn : (fuel : Nat) → (first : Bool) → List Frame → List Char → Option (List Char)
  | _, _, [], text => some text
  | 0, _, _ :: _, _ => none
  | fuel + 1, first, frame :: frames, text => do
    match ← next? first frame.bracket text with
    | .done rest => skipItemsIn fuel false frames rest
    | .item rest => skipValueIn fuel (frame :: frames) (← frame.skipKey? rest)
end

def skipValue? (text : List Char) : Option (List Char) :=
  skipValueIn (2 * text.length + 1) [] text

end BlockTensor.Json
