import EntityFlow.Boundary
import EntityFlow.Code.Expr
import EntityFlow.Declaration

/-! # Jobs

A job is the type made for a boundary: its parameters, and a field for everything its body
captures. -/

namespace EntityFlow

/-- The interface a job implements. -/
inductive Contract where
  | entity
  | chunk
deriving DecidableEq, Repr, Inhabited

def Contract.interface : Contract → String
  | .entity => "IJobEntity"
  | .chunk => "IJobChunk"

/-- What a field holds; a job has one field for each. -/
inductive CaptureOwner where
  | port (r : PortRef)
  | variable (m : MemberId)
  /-- An auto property, set through the declaration copied into the job. -/
  | property (m : MemberId)
  | jobVariable (i : Nat)
  | commandBuffer
  /-- Components of that type, by entity. -/
  | lookup (component : String)
deriving DecidableEq, Repr, Inhabited

/-- Where a field's value comes from when the job is constructed. -/
inductive CaptureSource where
  | port (r : PortRef)
  | expression (e : Expr)
  /-- The executor's input for that variable. -/
  | jobVariable (i : Nat)
deriving Repr, Inhabited

structure CaptureField where
  name : String
  type : String
  isMutable : Bool
  owner : CaptureOwner
  source : CaptureSource
deriving Repr, Inhabited

structure Job where
  node : NodeId
  typeName : String
  contract : Contract
  discipline : Discipline
  burst : Bool
  attributes : List String
  params : List Declaration.Param
  fields : List CaptureField
  /-- First argument of command buffer calls that run in parallel. -/
  sortKey : Option String
  properties : List MemberId
  functions : List MemberId
  body : PortRef
deriving Repr, Inhabited

namespace Job

def field? (j : Job) (owner : CaptureOwner) : Option CaptureField :=
  j.fields.find? fun f => f.owner = owner

/-- Add a field, unless there is one for the same owner. -/
def addField (j : Job) (f : CaptureField) : Job :=
  if (j.field? f.owner).isSome then j else { j with fields := j.fields ++ [f] }

end Job

namespace QueryFilters

/-- Filters that take a list of types, by the name of their method, empty ones left out. -/
def typed (f : QueryFilters) : List (String × List String) :=
  ([("WithAll", f.withAll), ("WithAny", f.withAny), ("WithNone", f.withNone),
    ("WithChangeFilter", f.withChangeFilter)].filter fun (_, types) => !types.isEmpty).map
      fun (method, types) => (method, types.map TypeRef.name)

/-- The options of a query as one expression, if there are any. -/
def optionFlags? (f : QueryFilters) : Option String :=
  if f.options.isEmpty then none
  else some (" | ".intercalate (f.options.map fun o => "EntityQueryOptions." ++ o))

/-- The attributes of a job that stand for the filters of its query. -/
def attributes (f : QueryFilters) : List String :=
  f.typed.map (fun (method, types) => method ++ "(" ++ Code.typeOfList types ++ ")") ++
  f.optionFlags?.toList.map fun flags => "WithOptions(" ++ flags ++ ")"

end QueryFilters

end EntityFlow
