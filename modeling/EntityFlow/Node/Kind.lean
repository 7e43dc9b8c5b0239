import EntityFlow.Query

/-! # Kinds of nodes -/

namespace EntityFlow

inductive Lifecycle where
  | create
  | update
  | destroy
  | startRunning
  | stopRunning
deriving DecidableEq, Repr, Inhabited

namespace Lifecycle

/-- In the order their methods are declared. -/
def all : List Lifecycle := [.create, .update, .destroy, .startRunning, .stopRunning]

def methodName : Lifecycle → String
  | .create => "OnCreate"
  | .update => "OnUpdate"
  | .destroy => "OnDestroy"
  | .startRunning => "OnStartRunning"
  | .stopRunning => "OnStopRunning"

/-- Callbacks that a system declares only on request. -/
def isStartStop : Lifecycle → Bool
  | .startRunning | .stopRunning => true
  | .create | .update | .destroy => false

end Lifecycle

inductive BinaryOp where
  | add | sub | mul | div | rem
  | eq | ne | lt | le | gt | ge
  | and | or
deriving DecidableEq, Repr, Inhabited

namespace BinaryOp

def symbol : BinaryOp → String
  | .add => "+"
  | .sub => "-"
  | .mul => "*"
  | .div => "/"
  | .rem => "%"
  | .eq => "=="
  | .ne => "!="
  | .lt => "<"
  | .le => "<="
  | .gt => ">"
  | .ge => ">="
  | .and => "&&"
  | .or => "||"

/-- Comparisons and logical operators give a `bool` whatever they are applied to. -/
def isBoolean : BinaryOp → Bool
  | .add | .sub | .mul | .div | .rem => false
  | _ => true

end BinaryOp

/-- How a member of an outside type is used; a method that returns nothing is a statement. -/
inductive ExternalUse where
  | field (type : TypeRef) (readOnly : Bool)
  | property (type : TypeRef) (readOnly : Bool)
  | method (params : List (String × TypeRef)) (returns : Option TypeRef)
deriving DecidableEq, Repr, Inhabited

/-- A member of a type outside the graph, reached through an instance or else through its owner. -/
structure External where
  owner : Option TypeRef
  receiver : Option TypeRef
  name : String
  generics : List TypeRef
  use : ExternalUse
deriving DecidableEq, Repr, Inhabited

namespace External

def staticMethod (owner : TypeRef) (name : String) (params : List (String × TypeRef))
    (returns : Option TypeRef) : External :=
  ⟨some owner, none, name, [], .method params returns⟩

def instanceField (receiver : TypeRef) (name : String) (type : TypeRef) : External :=
  ⟨none, some receiver, name, [], .field type false⟩

/-- Reached statically through the type of that name. -/
def isOwnedBy (e : External) (typeName : String) : Bool :=
  e.receiver.isNone && e.owner.any fun o => o.name == typeName

end External

inductive MemberTarget where
  | function (id : MemberId)
  | property (id : MemberId)
  | variable (id : MemberId)
  | external (e : External)
deriving DecidableEq, Repr, Inhabited

inductive NodeKind where
  /-- Where a lifecycle callback starts. -/
  | event (e : Lifecycle)
  /-- Where the body of a function starts. -/
  | functionEntry (function : MemberId)
  | ret
  | literal (value : Literal)
  | operator (op : BinaryOp) (type : Option TypeRef)
  | member (target : MemberTarget)
  | setValue
  | localVar (name : String) (type : TypeRef)
  | branch
  | foreach (spec : ForeachSpec)
  | jobEntity (spec : JobEntitySpec)
  | jobChunk (spec : JobChunkSpec)
  /-- Constructs a job and runs or schedules it. -/
  | executor (runWith : Discipline) (job : Option NodeId)
  | createEntity
  | destroyEntity
  | getComponent (component : Option TypeRef)
  | setComponent (component : Option TypeRef)
  | setComponentEnabled (component : Option TypeRef)
deriving DecidableEq, Repr, Inhabited

namespace NodeKind

def isJob : NodeKind → Bool
  | .jobEntity _ | .jobChunk _ => true
  | _ => false

def jobVariables : NodeKind → List JobVariable
  | .jobEntity spec => spec.vars
  | .jobChunk spec => spec.vars
  | _ => []

def isEvent : NodeKind → Bool
  | .event _ => true
  | _ => false

end NodeKind

end EntityFlow
