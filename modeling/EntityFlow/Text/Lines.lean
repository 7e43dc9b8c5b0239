/-! # Lines, indentation and blocks of generated text -/

namespace EntityFlow.Text

/-- The stretches between line feeds; a text with `n` line feeds has `n + 1` of them. -/
def pieces : List Char → List (List Char)
  | [] => [[]]
  | c :: rest =>
      if c = '\n' then [] :: pieces rest
      else match pieces rest with
        | [] => [[c]]
        | piece :: more => (c :: piece) :: more

/-- A carriage return directly before a line feed belongs to the line end. -/
def dropReturn (line : List Char) : List Char :=
  if line.getLast? = some '\r' then line.dropLast else line

/-- Lines of a text. A final line feed ends the last line and starts no new one. -/
def lines (text : List Char) : List (List Char) :=
  let all := pieces text
  let ended := all.dropLast.map dropReturn
  match all.getLast? with
  | none | some [] => ended
  | some last => ended ++ [last]

/-- Put `unit` before every line that is not empty. -/
def indent (text unit : String) : String :=
  "\n".intercalate <| (lines text.toList).map fun line =>
    if line.isEmpty then "" else unit ++ String.ofList line

/-- `header {`, the body one level deeper, and `}`. -/
def block (header body unit : String) : String :=
  if body.isEmpty then header ++ " \x7b\n\x7d"
  else header ++ " \x7b\n" ++ indent body unit ++ "\n\x7d"

/-- One statement a line, leaving out the empty ones. -/
def joinStatements (parts : List String) : String :=
  "\n".intercalate (parts.filter fun part => !part.isEmpty)

end EntityFlow.Text
