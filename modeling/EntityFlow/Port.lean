import EntityFlow.Id
import EntityFlow.TypeRef

/-! # Ports -/

namespace EntityFlow

inductive Direction where
  | input
  | output
deriving DecidableEq, Repr, Inhabited

inductive PortAccess where
  | readOnly
  | readWrite
deriving DecidableEq, Repr, Inhabited

/-- A flow port orders execution; a value port carries a value, of an unknown type if none is
given. -/
inductive PortKind where
  | flow
  | value (type : Option TypeRef) (access : PortAccess)
deriving DecidableEq, Repr, Inhabited

structure Port where
  name : String
  direction : Direction
  kind : PortKind
deriving DecidableEq, Repr, Inhabited

namespace Port

def flowIn (name : String) : Port := ⟨name, .input, .flow⟩
def flowOut (name : String) : Port := ⟨name, .output, .flow⟩
def valueIn (name : String) (type : Option TypeRef) : Port := ⟨name, .input, .value type .readOnly⟩
def valueOut (name : String) (type : Option TypeRef) (access : PortAccess) : Port :=
  ⟨name, .output, .value type access⟩

def isFlow (p : Port) : Bool :=
  match p.kind with
  | .flow => true
  | .value _ _ => false

def isValue (p : Port) : Bool := !p.isFlow

def isInput (p : Port) : Bool := p.direction == .input

def isOutput (p : Port) : Bool := p.direction == .output

def isWritable (p : Port) : Bool :=
  match p.kind with
  | .value _ .readWrite => true
  | _ => false

/-- The one output a node is named after. -/
def isPrimaryOutput (p : Port) : Bool :=
  p.isOutput && p.isValue && (p.name == "Out" || p.name == "Output")

def type? (p : Port) : Option TypeRef :=
  match p.kind with
  | .flow => none
  | .value type _ => type

end Port

/-! ## Names shared by the layouts and those who read them -/

namespace PortName

abbrev enter : String := "enter"
abbrev exit : String := "exit"
abbrev body : String := "body"
abbrev execute : String := "execute"
abbrev out : String := "Out"
abbrev value : String := "value"
abbrev target : String := "target"
abbrev condition : String := "condition"
abbrev onTrue : String := "true"
abbrev onFalse : String := "false"
abbrev entity : String := "entity"
abbrev component : String := "component"
abbrev self : String := "instance"
abbrev state : String := "state"
abbrev deltaTime : String := "deltaTime"
abbrev elapsedTime : String := "elapsedTime"
abbrev entityManager : String := "entityManager"
abbrev entityIndexInQuery : String := "entityIndexInQuery"
abbrev entityIndexInChunk : String := "entityIndexInChunk"
abbrev chunk : String := "chunk"
abbrev chunkIndex : String := "unfilteredChunkIndex"
abbrev useEnabledMask : String := "useEnabledMask"
abbrev chunkEnabledMask : String := "chunkEnabledMask"
abbrev query : String := "query"
abbrev dependsOn : String := "dependsOn"
abbrev baseEntityIndices : String := "chunkBaseEntityIndices"
abbrev jobHandle : String := "jobHandle"
abbrev left : String := "a"
abbrev right : String := "b"

/-- The input that holds the value of shared component filter `i`. -/
def sharedFilter (i : Nat) : String := "sharedFilter" ++ toString i

end PortName

end EntityFlow
