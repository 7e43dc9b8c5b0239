import EntityFlow.Decimal.Binary64

/-! # JSON values

Objects keep their fields in order, and a field may occur twice. A number is an integer or a
binary64 number, never both.

A text can have the right form and still stand for no value, such as a number that is too large. It
is kept as `unreadable`, so that a record can pass over it in a field that the record does not
have. -/

namespace EntityFlow

inductive Json where
  | null
  | bool (b : Bool)
  | int (i : Int)
  | real (x : Binary64)
  | str (s : String)
  | arr (items : List Json)
  | obj (fields : List (String × Json))
  | unreadable
deriving Repr, Inhabited

namespace Json

def nat (n : Nat) : Json := .int n

def list {α : Type} (f : α → Json) (items : List α) : Json := .arr (items.map f)

/-- A value that may be missing is written as `null`. -/
def option {α : Type} (f : α → Json) : Option α → Json
  | none => .null
  | some a => f a

/-- The object with one field. -/
def tagged (name : String) (value : Json) : Json := .obj [(name, value)]

/-! ## Values without gaps -/

mutual

/-- No part of the value is unreadable. -/
def isReadable : Json → Bool
  | .null | .bool _ | .int _ | .real _ | .str _ => true
  | .arr items => readableItems items
  | .obj fields => readableFields fields
  | .unreadable => false

def readableItems : List Json → Bool
  | [] => true
  | j :: rest => isReadable j && readableItems rest

def readableFields : List (String × Json) → Bool
  | [] => true
  | (_, j) :: rest => isReadable j && readableFields rest

end

end Json

end EntityFlow
