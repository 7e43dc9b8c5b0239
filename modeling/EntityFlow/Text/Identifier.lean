/-! # Identifiers shaped from display names -/

namespace EntityFlow.Text

/-- Characters an identifier may hold: ASCII letters, ASCII digits and the underscore. -/
def isWordChar (c : Char) : Bool := c.isAlphanum || c == '_'

/-- A word: not empty, made of word characters, and not starting with a digit. -/
def IsIdentifier (name : List Char) : Prop :=
  (∃ c, name.head? = some c ∧ c.isDigit = false) ∧ ∀ c ∈ name, isWordChar c = true

/-- Keep the word characters. `gap` says that something was left out since the last one kept, and
`started` that one was kept at all: a word character after a gap starts a new word in upper case. -/
def joinWords (gap started : Bool) : List Char → List Char
  | [] => []
  | c :: rest =>
      if isWordChar c then
        (if gap && started then c.toUpper else c) :: joinWords false true rest
      else joinWords true started rest

/-- An identifier must not start with a digit; an underscore goes before one that would. -/
def guardDigit : List Char → List Char
  | [] => []
  | c :: rest => if c.isDigit then '_' :: c :: rest else c :: rest

def shape (hint : List Char) : List Char :=
  match joinWords false false hint with
  | [] => "item".toList
  | word => guardDigit word

/-- Change the first character only. -/
def mapHead (f : Char → Char) : List Char → List Char
  | [] => []
  | c :: rest => f c :: rest

/-- An identifier that keeps as much of `hint` as an identifier can. -/
def sanitize (hint : String) : String := String.ofList (shape hint.toList)

/-- Identifier of a local, field or parameter: the first letter is in lower case. -/
def variableName (hint : String) : String :=
  String.ofList (mapHead Char.toLower (shape hint.toList))

/-- Identifier of a type or method: the first letter is in upper case. -/
def typeName (hint : String) : String := String.ofList (mapHead Char.toUpper (shape hint.toList))

/-- Keywords of the generated language, and the contextual words never to be shadowed. -/
def reservedWords : List String := [
  "abstract", "as", "base", "bool", "break", "byte", "case", "catch", "char", "checked",
  "class", "const", "continue", "decimal", "default", "delegate", "do", "double", "else",
  "enum", "event", "explicit", "extern", "false", "finally", "fixed", "float", "for",
  "foreach", "goto", "if", "implicit", "in", "int", "interface", "internal", "is", "lock",
  "long", "namespace", "new", "null", "object", "operator", "out", "override", "params",
  "private", "protected", "public", "readonly", "ref", "return", "sbyte", "sealed", "short",
  "sizeof", "stackalloc", "static", "string", "struct", "switch", "this", "throw", "true",
  "try", "typeof", "uint", "ulong", "unchecked", "unsafe", "ushort", "using", "virtual",
  "void", "volatile", "while", "var", "value"]

end EntityFlow.Text
