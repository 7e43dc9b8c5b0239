import EntityFlow.Id
import EntityFlow.Text.Identifier

/-! # Names of generated things

A symbol table binds keys to names. A key is bound once, a name is given out once, and no name is a
reserved word. -/

namespace EntityFlow

/-- What a name stands for. -/
inductive SymbolKey where
  /-- The variable a port's value lives in. -/
  | port (r : PortRef)
  /-- Something a node owns, such as the type made for it. -/
  | node (n : NodeId) (role : String)
  | member (m : MemberId)
  | param (m : MemberId) (index : UInt16)
  /-- The field in which a job captures an output. -/
  | capture (boundary : NodeId) (source : PortRef)
  /-- Something there is one of in the unit. -/
  | unit (name : String)
deriving DecidableEq, Repr, Inhabited

structure SymbolTable where
  /-- Bindings in the order they were made. -/
  bound : List (SymbolKey × String)
  /-- Names that are not given out again. -/
  taken : List String
deriving DecidableEq, Repr, Inhabited

namespace SymbolTable

def empty : SymbolTable := ⟨[], []⟩

def get? (t : SymbolTable) (key : SymbolKey) : Option String := t.bound.lookup key

def contains (t : SymbolTable) (key : SymbolKey) : Bool := (t.get? key).isSome

def isTaken (t : SymbolTable) (name : String) : Bool := t.taken.contains name

def isFree (t : SymbolTable) (name : String) : Bool :=
  !t.isTaken name && !Text.reservedWords.contains name

/-- Names that are not given out again, one more. -/
def reserve (t : SymbolTable) (name : String) : SymbolTable :=
  if t.isTaken name then t else { t with taken := t.taken ++ [name] }

def candidate (base : String) (k : Nat) : String := base ++ toString k

/-- The first free candidate from `k` on, looking at no more than `fuel + 1` of them. -/
def search (t : SymbolTable) (base : String) : (fuel k : Nat) → String
  | 0, k => candidate base k
  | fuel + 1, k =>
      if t.isFree (candidate base k) then candidate base k else search t base fuel (k + 1)

/-- The name made from a hint: the identifier itself, or else with the least suffix that makes it
free. Among more candidates than there are taken and reserved names, one is free. -/
def freshName (t : SymbolTable) (hint : String) : String :=
  let base := Text.sanitize hint
  if t.isFree base then base
  else t.search base (t.taken.length + Text.reservedWords.length) 1

/-- Give out a new name without binding it. -/
def fresh (t : SymbolTable) (hint : String) : String × SymbolTable :=
  let name := t.freshName hint
  (name, { t with taken := t.taken ++ [name] })

/-- Bind a key to a new name, or give the name it has. -/
def register (t : SymbolTable) (key : SymbolKey) (hint : String) : String × SymbolTable :=
  match t.get? key with
  | some name => (name, t)
  | none =>
      let (name, t) := t.fresh hint
      (name, { t with bound := t.bound ++ [(key, name)] })

end SymbolTable

end EntityFlow
