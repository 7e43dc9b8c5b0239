import EntityFlow.Json.Basic
import EntityFlow.Decimal.Layout

/-! # Writing JSON text -/

namespace EntityFlow.Json

def hexPair (n : Nat) : List Char := [Nat.digitChar (n / 16), Nat.digitChar (n % 16)]

def escapeChar (c : Char) : List Char :=
  match c with
  | '"' => ['\\', '"']
  | '\\' => ['\\', '\\']
  | '\n' => ['\\', 'n']
  | '\r' => ['\\', 'r']
  | '\t' => ['\\', 't']
  | c =>
      if c.toNat = 8 then ['\\', 'b']
      else if c.toNat = 12 then ['\\', 'f']
      else if c.toNat < 32 then ['\\', 'u', '0', '0'] ++ hexPair c.toNat
      else [c]

def quote (s : String) : String :=
  "\"" ++ String.ofList (s.toList.flatMap escapeChar) ++ "\""

mutual

/-- Text without blanks. An unreadable value is written as `null`. -/
def compact : Json → String
  | .null => "null"
  | .bool b => if b then "true" else "false"
  | .int i => toString i
  | .real x => DecimalLayout.standard.render x
  | .str s => quote s
  | .arr items => "[" ++ compactItems "" items ++ "]"
  | .obj fields => "\x7b" ++ compactFields "" fields ++ "\x7d"
  | .unreadable => "null"

def compactItems (sep : String) : List Json → String
  | [] => ""
  | j :: rest => sep ++ compact j ++ compactItems "," rest

def compactFields (sep : String) : List (String × Json) → String
  | [] => ""
  | (name, j) :: rest => sep ++ quote name ++ ":" ++ compact j ++ compactFields "," rest

end

/-- A line break and the blanks that start a line at `depth`. -/
def newline (depth : Nat) : String := "\n" ++ "".pushn ' ' (2 * depth)

mutual

/-- One item or field a line, each level two blanks deeper. -/
def prettyAt (depth : Nat) : Json → String
  | .arr [] => "[]"
  | .arr items => "[" ++ prettyItems (depth + 1) "" items ++ newline depth ++ "]"
  | .obj [] => "\x7b\x7d"
  | .obj fields => "\x7b" ++ prettyFields (depth + 1) "" fields ++ newline depth ++ "\x7d"
  | j => compact j

def prettyItems (depth : Nat) (sep : String) : List Json → String
  | [] => ""
  | j :: rest => sep ++ newline depth ++ prettyAt depth j ++ prettyItems depth "," rest

def prettyFields (depth : Nat) (sep : String) : List (String × Json) → String
  | [] => ""
  | (name, j) :: rest =>
      sep ++ newline depth ++ quote name ++ ": " ++ prettyAt depth j ++ prettyFields depth "," rest

end

def pretty (j : Json) : String := prettyAt 0 j

end EntityFlow.Json
