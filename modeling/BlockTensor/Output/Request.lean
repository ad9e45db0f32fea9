import BlockTensor.Json.Value

/-!
# Requested outputs

A request says what an output is and how it is to be computed. Its text is a
JSON object with the four fields in order. Reading takes the fields in any
order, gives missing ones their defaults and passes over unknown ones; a field
given twice is refused. A JSON list is read as the fields in order, and may end
early.
-/

namespace BlockTensor.Output

structure Request where
  /-- The physical quantity, empty if unknown. -/
  quantity : String := ""
  /-- The unit of the values, empty if unknown. -/
  unit : String := ""
  /-- One value per atom, not per system. -/
  perAtom : Bool := false
  /-- Parameters of the gradients that are computed. -/
  explicitGradients : List String := []
  deriving DecidableEq, Repr

namespace Request

open Json

-- ---------------------------------------------------------------------------
-- Writing
-- ---------------------------------------------------------------------------

def writeText (text : String) : List Char := encode text.toList

def writeBool (value : Bool) : List Char := (if value then "true" else "false").toList

def writeTexts : List String → List Char
  | [] => ['[', ']']
  | first :: rest =>
    '[' :: writeText first ++ rest.flatMap (fun text => ',' :: writeText text) ++ [']']

def writeKey (key : String) : List Char := writeText key ++ [':']

def write (request : Request) : String :=
  String.ofList
    ('\x7b' :: writeKey "quantity" ++ writeText request.quantity ++
      ',' :: writeKey "unit" ++ writeText request.unit ++
      ',' :: writeKey "per_atom" ++ writeBool request.perAtom ++
      ',' :: writeKey "explicit_gradients" ++ writeTexts request.explicitGradients ++ ['\x7d'])

-- ---------------------------------------------------------------------------
-- Reading field values
-- ---------------------------------------------------------------------------

def readText (text : List Char) : Option (String × List Char) := do
  let (chars, rest) ← read? (skipBlanks text)
  some (String.ofList chars, rest)

def readBool (text : List Char) : Option (Bool × List Char) :=
  match skipBlanks text with
  | 't' :: rest => (after? ['r', 'u', 'e'] rest).map fun rest => (true, rest)
  | 'f' :: rest => (after? ['a', 'l', 's', 'e'] rest).map fun rest => (false, rest)
  | _ => none

def readTextsFrom : (fuel : Nat) → (first : Bool) → List Char → Option (List String × List Char)
  | 0, _, _ => none
  | fuel + 1, first, text => do
    match ← next? first ']' text with
    | .done rest => some ([], rest)
    | .item rest =>
      let (item, rest) ← readText rest
      let (items, rest) ← readTextsFrom fuel false rest
      some (item :: items, rest)

def readTexts (text : List Char) : Option (List String × List Char) :=
  match skipBlanks text with
  | '[' :: rest => readTextsFrom (rest.length + 1) true rest
  | _ => none

-- ---------------------------------------------------------------------------
-- Reading requests
-- ---------------------------------------------------------------------------

structure Draft where
  quantity : Option String := none
  unit : Option String := none
  perAtom : Option Bool := none
  explicitGradients : Option (List String) := none

def ofDraft (draft : Draft) : Request :=
  { quantity := draft.quantity.getD ""
    unit := draft.unit.getD ""
    perAtom := draft.perAtom.getD false
    explicitGradients := draft.explicitGradients.getD [] }

def readField (key : String) (draft : Draft) (text : List Char) : Option (Draft × List Char) :=
  if key = "quantity" then
    if draft.quantity.isSome then none
    else (readText text).map fun (value, rest) => ({ draft with quantity := some value }, rest)
  else if key = "unit" then
    if draft.unit.isSome then none
    else (readText text).map fun (value, rest) => ({ draft with unit := some value }, rest)
  else if key = "per_atom" then
    if draft.perAtom.isSome then none
    else (readBool text).map fun (value, rest) => ({ draft with perAtom := some value }, rest)
  else if key = "explicit_gradients" then
    if draft.explicitGradients.isSome then none
    else
      (readTexts text).map fun (value, rest) =>
        ({ draft with explicitGradients := some value }, rest)
  else (skipValue? text).map fun rest => (draft, rest)

def readFieldsFrom : (fuel : Nat) → (first : Bool) → Draft → List Char →
    Option (Draft × List Char)
  | 0, _, _, _ => none
  | fuel + 1, first, draft, text => do
    match ← next? first '\x7d' text with
    | .done rest => some (draft, rest)
    | .item rest =>
      let (key, rest) ← read? rest
      let (draft, rest) ← readField (String.ofList key) draft (← afterColon? rest)
      readFieldsFrom fuel false draft rest

/-- A place in a list, or behind its end. -/
inductive Place where
  | inside (first : Bool) (text : List Char)
  | behind (rest : List Char)

/-- Reads the next item of a list; behind its end the default. -/
def readNext {α : Type} (read : List Char → Option (α × List Char)) (default : α) :
    Place → Option (α × Place)
  | .behind rest => some (default, .behind rest)
  | .inside first text => do
    match ← next? first ']' text with
    | .done rest => some (default, .behind rest)
    | .item rest =>
      let (value, rest) ← read rest
      some (value, .inside false rest)

def readEnd : Place → Option (List Char)
  | .behind rest => some rest
  | .inside first text => do
    match ← next? first ']' text with
    | .done rest => some rest
    | .item _ => none

def readList (text : List Char) : Option (Request × List Char) := do
  let (quantity, place) ← readNext readText "" (.inside true text)
  let (unit, place) ← readNext readText "" place
  let (perAtom, place) ← readNext readBool false place
  let (explicitGradients, place) ← readNext readTexts [] place
  some ({ quantity, unit, perAtom, explicitGradients }, ← readEnd place)

def parse (text : String) : Option Request := do
  let (request, rest) ← match skipBlanks text.toList with
    | '\x7b' :: rest => do
      let (draft, rest) ← readFieldsFrom (rest.length + 1) true {} rest
      some (ofDraft draft, rest)
    | '[' :: rest => readList rest
    | _ => none
  if skipBlanks rest = [] then some request else none

end Request

end BlockTensor.Output
