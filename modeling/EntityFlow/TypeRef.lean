import EntityFlow.Decimal.Layout
import EntityFlow.Text.Quoted

/-! # Type references and literal values -/

namespace EntityFlow

inductive TypeClass where
  | primitive
  | struct
  | component
  | sharedComponent
  | managedComponent
  | aspect
  | entity
  | reference
deriving DecidableEq, Repr, Inhabited

/-- A type of the generated language, by name. -/
structure TypeRef where
  name : String
  category : TypeClass
deriving DecidableEq, Repr, Inhabited

namespace TypeRef

def primitive (name : String) : TypeRef := ⟨name, .primitive⟩
def struct (name : String) : TypeRef := ⟨name, .struct⟩
def component (name : String) : TypeRef := ⟨name, .component⟩
def sharedComponent (name : String) : TypeRef := ⟨name, .sharedComponent⟩
def aspect (name : String) : TypeRef := ⟨name, .aspect⟩
def reference (name : String) : TypeRef := ⟨name, .reference⟩

def entity : TypeRef := ⟨"Entity", .entity⟩
def int : TypeRef := primitive "int"
def float : TypeRef := primitive "float"
def double : TypeRef := primitive "double"
def bool : TypeRef := primitive "bool"

/-- Values of the type are copied when assigned. -/
def isValueType (t : TypeRef) : Bool :=
  match t.category with
  | .reference | .managedComponent => false
  | _ => true

def isComponent (t : TypeRef) : Bool :=
  match t.category with
  | .component | .sharedComponent | .managedComponent => true
  | _ => false

/-- How a type that may not have been chosen yet is written. -/
def nameOrObject (t : Option TypeRef) : String := (t.map TypeRef.name).getD "object"

end TypeRef

inductive Literal where
  | bool (b : Bool)
  | int (i : Int)
  | float (x : Float64)
  | double (x : Float64)
  | string (s : String)
  | default (type : TypeRef)
deriving DecidableEq, Repr, Inhabited

namespace Literal

def type : Literal → TypeRef
  | .bool _ => .bool
  | .int _ => .int
  | .float _ => .float
  | .double _ => .double
  | .string _ => .reference "string"
  | .default t => t

/-- The literal as an expression; a single-precision number ends in `f`. -/
def render : Literal → String
  | .bool b => if b then "true" else "false"
  | .int i => toString i
  | .float x => x.render ++ "f"
  | .double x => x.render
  | .string s => Text.Quoted.quote s
  | .default t => "default(" ++ t.name ++ ")"

end Literal

end EntityFlow
