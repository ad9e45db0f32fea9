/-!
# Text of names and numbers

The few shapes in which messages and tables show lists. Names of label columns
hold letters, digits and underscores only, so `quoted` has nothing to escape.
-/

namespace BlockTensor.Text

/-- Items between commas, without brackets. -/
def commaJoined (items : List String) : String := ", ".intercalate items

def bracketed (items : List String) : String := "[" ++ commaJoined items ++ "]"

def quoted (name : String) : String := "\"" ++ name ++ "\""

/-- `["system", "atom"]`. -/
def quotedNames (names : List String) : String := bracketed (names.map quoted)

def numbers (items : List Nat) : String := bracketed (items.map toString)

/-- Right-aligned in a field of `width` characters; longer text is kept whole. -/
def rightAligned (width : Nat) (text : String) : String :=
  String.ofList (List.replicate (width - text.length) ' ') ++ text

end BlockTensor.Text
