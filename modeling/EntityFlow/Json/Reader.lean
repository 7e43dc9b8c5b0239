import EntityFlow.Json.Basic

/-! # Reading JSON text

Each reader takes a beginning off the characters and answers with what follows it. It answers `none`
for a text of the wrong form. -/

namespace EntityFlow.Json

def isBlank (c : Char) : Bool := c == ' ' || c == '\n' || c == '\t' || c == '\r'

def skipBlank (cs : List Char) : List Char := cs.dropWhile isBlank

def hexValue? (c : Char) : Option Nat :=
  if c.isDigit then some (c.toNat - '0'.toNat)
  else if 'a' ≤ c ∧ c ≤ 'f' then some (c.toNat - 'a'.toNat + 10)
  else if 'A' ≤ c ∧ c ≤ 'F' then some (c.toNat - 'A'.toNat + 10)
  else none

def hexUnit? (a b c d : Char) : Option Nat := do
  return ((← hexValue? a) * 16 + (← hexValue? b)) * 256 + (← hexValue? c) * 16 + (← hexValue? d)

/-- The character that a letter after a backslash stands for. -/
def escape? : Char → Option Char
  | '"' => some '"'
  | '\\' => some '\\'
  | '/' => some '/'
  | 'b' => some (Char.ofNat 8)
  | 'f' => some (Char.ofNat 12)
  | 'n' => some '\n'
  | 'r' => some '\r'
  | 't' => some '\t'
  | _ => none

/-- A character above the first 65536, written as a high and a low unit. -/
def pairChar (high low : Nat) : Char :=
  Char.ofNat (0x10000 + (high - 0xD800) * 0x400 + (low - 0xDC00))

def isHigh (unit : Nat) : Bool := 0xD800 ≤ unit && unit < 0xDC00

def isLow (unit : Nat) : Bool := 0xDC00 ≤ unit && unit < 0xE000

/-- The rest of a string after its opening quote, as numbers of characters. An escape by number may
give one half of a pair. -/
def readPoints (seen : List Nat) : List Char → Option (List Nat × List Char)
  | [] => none
  | '"' :: rest => some (seen.reverse, rest)
  | '\\' :: 'u' :: a :: b :: c :: d :: rest => do readPoints ((← hexUnit? a b c d) :: seen) rest
  | '\\' :: c :: rest => do readPoints ((← escape? c).toNat :: seen) rest
  | c :: rest => if c.toNat < 32 ∨ c = '\\' then none else readPoints (c.toNat :: seen) rest

/-- The text that numbers of characters stand for. A high unit must be followed by a low one, and a
low one must not stand alone. -/
def joinPoints? (seen : List Char) : List Nat → Option String
  | [] => some (String.ofList seen.reverse)
  | high :: low :: rest =>
      if isHigh high then
        if isLow low then joinPoints? (pairChar high low :: seen) rest else none
      else if isLow high then none
      else joinPoints? (Char.ofNat high :: seen) (low :: rest)
  | [point] =>
      if isHigh point || isLow point then none
      else some (String.ofList (Char.ofNat point :: seen).reverse)

/-- The rest of a string after its opening quote, and the text it stands for if it stands for
one. -/
def readText (cs : List Char) : Option (Option String × List Char) :=
  (readPoints [] cs).map fun (points, rest) => (joinPoints? [] points, rest)

/-- Digits at the beginning; there must be at least one. -/
def readDigits (cs : List Char) : Option (List Char × List Char) :=
  match cs.takeWhile Char.isDigit with
  | [] => none
  | digits => some (digits, cs.dropWhile Char.isDigit)

def digitsValue (digits : List Char) : Nat :=
  digits.foldl (fun n c => 10 * n + (c.toNat - '0'.toNat)) 0

/-- A significand has 64 bits; digits that do not fit are left out. -/
def significandBound : Nat := 0x1_0000_0000_0000_0000

/-- Take in the digits before the point. A digit that does not fit counts as a power of ten. -/
def absorbWhole (digits : List Char) : Nat × Int :=
  digits.foldl
    (fun (n, dropped) c =>
      let next := 10 * n + (c.toNat - '0'.toNat)
      if dropped = 0 ∧ next < significandBound then (next, 0) else (n, dropped + 1))
    (0, 0)

/-- Take in the digits after the point until one does not fit. -/
def absorbPart : List Char → Nat × Int → Nat × Int
  | [], acc => acc
  | c :: rest, (n, exponent) =>
      let next := 10 * n + (c.toNat - '0'.toNat)
      if next < significandBound then absorbPart rest (next, exponent - 1) else (n, exponent)

/-- A number without point and exponent is an integer if 64 bits hold it; zero with a sign is not
one. Every other number is a binary64 number, unless it is too large for one. -/
def number (negative : Bool) (whole part : List Char) (exponent : Int) (plain : Bool) : Json :=
  let n := digitsValue whole
  if plain && !negative && n < 0x1_0000_0000_0000_0000 then .int n
  else if plain && negative && 0 < n && n ≤ 0x8000_0000_0000_0000 then .int (-n)
  else
    let (significand, scale) := absorbPart part (absorbWhole whole)
    (Binary64.ofDecimal negative significand (scale + exponent)).elim .unreadable .real

def readPart : List Char → Option (List Char × List Char)
  | '.' :: rest => readDigits rest
  | cs => some ([], cs)

def readExponent : List Char → Option (Option Int × List Char)
  | c :: rest =>
      if c = 'e' ∨ c = 'E' then
        match rest with
        | '-' :: more => (readDigits more).map fun (ds, r) => (some (-(digitsValue ds : Int)), r)
        | '+' :: more => (readDigits more).map fun (ds, r) => (some (digitsValue ds : Int), r)
        | more => (readDigits more).map fun (ds, r) => (some (digitsValue ds : Int), r)
      else some (none, c :: rest)
  | [] => some (none, [])

/-- A number; its whole part has no zero in front of another digit. -/
def readNumber (cs : List Char) : Option (Json × List Char) := do
  let (negative, cs) := match cs with
    | '-' :: rest => (true, rest)
    | cs => (false, cs)
  let (whole, rest) ← readDigits cs
  if whole.head? = some '0' ∧ whole.length ≠ 1 then none
  let (part, afterPart) ← readPart rest
  let (exponent, remaining) ← readExponent afterPart
  return (number negative whole part (exponent.getD 0) (part.isEmpty && exponent.isNone), remaining)

/-- The object with these fields; the names must be readable, the values need not be. -/
def object (fields : List (Option String × Json)) : Json :=
  match fields.mapM fun (name, value) => name.map (·, value) with
  | some fields => .obj fields
  | none => .unreadable

mutual

def readValue : Nat → List Char → Option (Json × List Char)
  | 0, _ => none
  | fuel + 1, cs =>
      match skipBlank cs with
      | 'n' :: 'u' :: 'l' :: 'l' :: rest => some (.null, rest)
      | 't' :: 'r' :: 'u' :: 'e' :: rest => some (.bool true, rest)
      | 'f' :: 'a' :: 'l' :: 's' :: 'e' :: rest => some (.bool false, rest)
      | '"' :: rest => (readText rest).map fun (s, r) => (s.elim .unreadable .str, r)
      | '[' :: rest =>
          match skipBlank rest with
          | ']' :: more => some (.arr [], more)
          | more => (readItems fuel [] more).map fun (items, r) => (.arr items, r)
      | '\x7b' :: rest =>
          match skipBlank rest with
          | '\x7d' :: more => some (.obj [], more)
          | more => (readFields fuel [] more).map fun (fields, r) => (object fields, r)
      | rest => readNumber rest

def readItems : Nat → List Json → List Char → Option (List Json × List Char)
  | 0, _, _ => none
  | fuel + 1, seen, cs => do
      let (item, rest) ← readValue fuel cs
      match skipBlank rest with
      | ',' :: more => readItems fuel (item :: seen) more
      | ']' :: more => return ((item :: seen).reverse, more)
      | _ => none

def readFields : Nat → List (Option String × Json) → List Char →
    Option (List (Option String × Json) × List Char)
  | 0, _, _ => none
  | fuel + 1, seen, cs => do
      match skipBlank cs with
      | '"' :: rest =>
          let (name, rest) ← readText rest
          match skipBlank rest with
          | ':' :: more =>
              let (value, rest) ← readValue fuel more
              match skipBlank rest with
              | ',' :: more => readFields fuel ((name, value) :: seen) more
              | '\x7d' :: more => return (((name, value) :: seen).reverse, more)
              | _ => none
          | _ => none
      | _ => none

end

/-- The value a text holds, with nothing but blanks around it; parts of it may be unreadable. Every
step of a reader takes at least one character, so twice their number is enough fuel. -/
def read? (text : String) : Option Json := do
  let cs := text.toList
  let (value, rest) ← readValue (2 * cs.length + 2) cs
  if (skipBlank rest).isEmpty then some value else none

/-- The value a text holds, if it is readable throughout. -/
def parse? (text : String) : Option Json := (read? text).filter isReadable

end EntityFlow.Json
