import EntityFlow.Id
import EntityFlow.TypeRef

/-! # Members a unit declares -/

namespace EntityFlow

structure Parameter where
  name : String
  type : TypeRef
deriving DecidableEq, Repr, Inhabited

/-- A function; its body is the nodes placed in `container`, starting at `entry`. -/
structure Function where
  name : String
  params : List Parameter
  returns : Option TypeRef
  isStatic : Bool
  container : ContainerId
  entry : Option NodeId
deriving DecidableEq, Repr, Inhabited

/-- A property over a backing variable, or an auto property without one. -/
structure Property where
  name : String
  type : TypeRef
  isStatic : Bool
  backing : Option MemberId
deriving DecidableEq, Repr, Inhabited

def Property.isAuto (p : Property) : Bool := p.backing.isNone

structure Variable where
  name : String
  type : TypeRef
  default : Option Literal := none
  readOnly : Bool := false
  isStatic : Bool := false
deriving DecidableEq, Repr, Inhabited

inductive Member where
  | function (f : Function)
  | property (p : Property)
  | variable (v : Variable)
deriving DecidableEq, Repr, Inhabited

namespace Member

def name : Member → String
  | .function f => f.name
  | .property p => p.name
  | .variable v => v.name

def isStatic : Member → Bool
  | .function f => f.isStatic
  | .property p => p.isStatic
  | .variable v => v.isStatic

def valueType? : Member → Option TypeRef
  | .function f => f.returns
  | .property p => some p.type
  | .variable v => some v.type

def asFunction : Member → Option Function
  | .function f => some f
  | _ => none

def asProperty : Member → Option Property
  | .property p => some p
  | _ => none

def asVariable : Member → Option Variable
  | .variable v => some v
  | _ => none

end Member

end EntityFlow
