/-!
# Logging configuration

Which events are written, and in which form. Defaults come from two
environment variables.
-/

namespace BlockTensor.Logging

inductive Format where
  | pretty
  | json
  | compact
  deriving DecidableEq, Repr

/-- The format that a text names, in letters of either case. Any other text
stands for `pretty`. -/
def Format.ofText (text : String) : Format :=
  match text.toLower with
  | "json" => json
  | "compact" => compact
  | _ => pretty

structure Environment where
  format : Option String
  filter : Option String
  deriving DecidableEq, Repr

structure Config where
  format : Format
  filter : String
  ansi : Bool
  target : Bool
  file : Bool
  lineNumber : Bool
  deriving DecidableEq, Repr

def defaultFilter : String := "tenmap=info,warn"

def Config.default (environment : Environment) : Config :=
  { format := (environment.format.map Format.ofText).getD .pretty
    filter := environment.filter.getD defaultFilter
    ansi := true
    target := true
    file := false
    lineNumber := false }

end BlockTensor.Logging
