/-! # Slot tables

A table whose entries keep their index while others come and go. A vacated slot is used again, the
one vacated last before the others. -/

namespace EntityFlow

structure Slots (α : Type) where
  cells : Array (Option α)
  /-- The vacant slots, in the order they are used again. -/
  free : List Nat
deriving DecidableEq, Repr, Inhabited

namespace Slots

variable {α : Type}

def empty : Slots α := ⟨#[], []⟩

/-- A table with the given cells; the highest vacant slot is used first. -/
def ofCells (cells : Array (Option α)) : Slots α :=
  let isVacant (i : Nat) : Bool :=
    match cells[i]? with
    | some none => true
    | _ => false
  ⟨cells, ((List.range cells.size).filter isVacant).reverse⟩

def get? (s : Slots α) (i : Nat) : Option α := s.cells[i]?.join

def contains (s : Slots α) (i : Nat) : Bool := (s.get? i).isSome

/-- The number of slots, vacant ones included. -/
def size (s : Slots α) : Nat := s.cells.size

/-- The index the next entry gets. -/
def next (s : Slots α) : Nat := s.free.head?.getD s.cells.size

def insert (s : Slots α) (a : α) : Nat × Slots α :=
  match s.free with
  | [] => (s.cells.size, ⟨s.cells.push (some a), []⟩)
  | i :: rest => (i, ⟨s.cells.setIfInBounds i (some a), rest⟩)

/-- Put an entry at an index, whether or not there is one already. -/
def put (s : Slots α) (i : Nat) (a : α) : Slots α :=
  if i < s.cells.size then ⟨s.cells.setIfInBounds i (some a), s.free.erase i⟩
  else ⟨s.cells.push (some a), s.free⟩

def erase (s : Slots α) (i : Nat) : Slots α :=
  if s.contains i then ⟨s.cells.setIfInBounds i none, i :: s.free⟩ else s

/-- Indices in use, ascending. -/
def ids (s : Slots α) : List Nat := (List.range s.size).filter s.contains

/-- Entries by index. -/
def toList (s : Slots α) : List α := s.cells.toList.filterMap id

def count (s : Slots α) : Nat := s.toList.length

/-- The cells up to the last one in use. -/
def trimmed (s : Slots α) : List (Option α) :=
  (s.cells.toList.reverse.dropWhile Option.isNone).reverse

end Slots

end EntityFlow
