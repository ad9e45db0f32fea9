import BlockTensor.Labels.Basic
import BlockTensor.Text

/-!
# Text of labels

`Entry.text` is the bracketed form of one entry, `Rows.summary` the form of
labels on one line, and `Labels.table` the aligned table that stands in
messages. The table shows the first `tableLimit` entries.
-/

namespace BlockTensor

open Text

def Entry.text (entry : Entry) : String := bracketed (entry.map toString)

def Rows.summary (heading : String) (rows : Rows) : String :=
  heading ++ " \x7b names: " ++ quotedNames rows.names ++ ", values: " ++
    bracketed (rows.entries.map Entry.text) ++ " \x7d"

namespace Labels

def tableLimit : Nat := 20

def tableLine (widths : List Nat) (cells : List String) : String :=
  "   " ++ String.join (widths.zipWith (fun width cell => " " ++ rightAligned width cell) cells) ++
    "\n"

def tableWidths (names : List String) (shown : List (List String)) : List Nat :=
  names.zipIdx.map fun (name, column) =>
    shown.foldl (fun width cells => max width (cells.getD column "").length) name.length

/-- A table of the names and the first entries, with the number of entries
where it leaves some out. -/
def table (labels : Labels) : String :=
  let shown := (labels.entries.take tableLimit).map fun entry => entry.map toString
  let widths := tableWidths labels.names shown
  let omitted :=
    if labels.length > tableLimit then
      "    ... (" ++ toString labels.length ++ " entries in total)\n"
    else ""
  "Labels(\n" ++ tableLine widths labels.names ++
    String.join (shown.map (tableLine widths)) ++ omitted ++ ")"

end Labels

end BlockTensor
