import EntityFlow.Json.Basic

/-! # Reading values out of JSON

A decoder answers `none` for a value it does not accept. -/

namespace EntityFlow.Json

def toBool? : Json → Option Bool
  | .bool b => some b
  | _ => none

def toString? : Json → Option String
  | .str s => some s
  | _ => none

def toInt? : Json → Option Int
  | .int i => some i
  | _ => none

/-- A natural number below `bound`. -/
def toNat? (bound : Nat) : Json → Option Nat
  | .int (.ofNat n) => if n < bound then some n else none
  | _ => none

/-- Any number, an integer being rounded to the nearest binary64 number. -/
def toReal? : Json → Option Binary64
  | .int i => Binary64.ofInt i
  | .real x => some x
  | _ => none

def toList? {α : Type} (f : Json → Option α) : Json → Option (List α)
  | .arr items => items.mapM f
  | _ => none

/-- `null` stands for a value that is not there. -/
def toOption? {α : Type} (f : Json → Option α) : Json → Option (Option α)
  | .null => some none
  | j => (f j).map some

def toPair? {α β : Type} (f : Json → Option α) (g : Json → Option β) : Json → Option (α × β)
  | .arr [a, b] => do return (← f a, ← g b)
  | _ => none

/-- The field of that name, the last one if there are several. -/
def field? (name : String) : Json → Option Json
  | .obj fields => (fields.reverse.find? fun f => f.1 == name).map (·.2)
  | _ => none

/-- An object without a field of that name. -/
def lacks (name : String) : Json → Bool
  | .obj fields => !fields.any fun f => f.1 == name
  | _ => false

/-- The fields of a record in the order of `names`. An object gives them by name, a field it lacks
counting as `null` and a field given twice being refused; an array gives all of them in order. -/
def record? (names : List String) : Json → Option (List Json)
  | .obj fields =>
      if names.all fun n => (fields.filter fun f => f.1 == n).length ≤ 1 then
        some <| names.map fun n => ((fields.find? fun f => f.1 == n).map (·.2)).getD .null
      else none
  | .arr items => if items.length = names.length then some items else none
  | _ => none

/-- How the fields that a variant carries may be given: by name only, or also all of them in
order. -/
inductive VariantForm where
  | named
  | listed
deriving DecidableEq, Repr, Inhabited

/-- The fields that a variant carries, in the order of `names`. -/
def content? (form : VariantForm) (names : List String) (j : Json) : Option (List Json) :=
  match form, j with
  | .named, .arr _ => none
  | _, j => j.record? names

/-- The name of a variant and what it carries: a string carries nothing, and an object with one
field carries that field's value. -/
def variant? : Json → Option (String × Option Json)
  | .str name => some (name, none)
  | .obj [(name, value)] => some (name, some value)
  | _ => none

/-- The case of an enumeration whose cases carry nothing; `null` may be carried in its place. -/
def toCase? {α : Type} (cases : List (String × α)) (j : Json) : Option α := do
  let (name, payload) ← j.variant?
  match payload with
  | none | some .null => cases.lookup name
  | some _ => none

end EntityFlow.Json
