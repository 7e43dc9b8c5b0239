import EntityFlow.Port

/-! # Entity queries and jobs over them -/

namespace EntityFlow

inductive ItemAccess where
  | readOnly
  | readWrite
  | value
deriving DecidableEq, Repr, Inhabited

namespace ItemAccess

def portAccess : ItemAccess → PortAccess
  | .readWrite => .readWrite
  | .readOnly | .value => .readOnly

def requiresComponent : ItemAccess → Bool
  | .value => false
  | .readOnly | .readWrite => true

end ItemAccess

/-- Something a query binds for each entity. -/
structure QueryItem where
  name : String
  type : Option TypeRef
  access : ItemAccess
deriving DecidableEq, Repr, Inhabited

structure QueryFilters where
  withAll : List TypeRef := []
  withAny : List TypeRef := []
  withNone : List TypeRef := []
  withChangeFilter : List TypeRef := []
  withSharedComponent : List TypeRef := []
  options : List String := []
deriving DecidableEq, Repr, Inhabited

def QueryFilters.isEmpty (f : QueryFilters) : Bool :=
  f.withAll.isEmpty && f.withAny.isEmpty && f.withNone.isEmpty && f.withChangeFilter.isEmpty &&
    f.withSharedComponent.isEmpty && f.options.isEmpty

/-- When and where a loop or job runs, from the least to the most permissive. -/
inductive Discipline where
  | run
  | schedule
  | scheduleParallel
deriving DecidableEq, Repr, Inhabited

namespace Discipline

def isDeferred : Discipline → Bool
  | .run => false
  | .schedule | .scheduleParallel => true

def isParallel : Discipline → Bool
  | .scheduleParallel => true
  | .run | .schedule => false

def methodName : Discipline → String
  | .run => "Run"
  | .schedule => "Schedule"
  | .scheduleParallel => "ScheduleParallel"

/-- The more permissive of two. -/
def max : Discipline → Discipline → Discipline
  | .scheduleParallel, _ | _, .scheduleParallel => .scheduleParallel
  | .schedule, _ | _, .schedule => .schedule
  | .run, .run => .run

end Discipline

/-- Which index parameters a job over entities takes. -/
inductive EntityIndex where
  | none
  | entity
  | chunk
  | chunkAndEntity
deriving DecidableEq, Repr, Inhabited

namespace EntityIndex

def inQuery : EntityIndex → Bool
  | .entity | .chunkAndEntity => true
  | .none | .chunk => false

def inChunk : EntityIndex → Bool
  | .chunk | .chunkAndEntity => true
  | .none | .entity => false

end EntityIndex

/-- A field of a job that its executor fills. -/
structure JobVariable where
  name : String
  type : TypeRef
  isMutable : Bool := false
deriving DecidableEq, Repr, Inhabited

/-- A loop over entities. -/
structure ForeachSpec where
  items : List QueryItem
  filters : QueryFilters := {}
  run : Discipline
  entityAccess : Bool := false
  burst : Bool := true
deriving DecidableEq, Repr, Inhabited

/-- A job that runs once for each entity. -/
structure JobEntitySpec where
  items : List QueryItem
  filters : QueryFilters := {}
  index : EntityIndex := .none
  entityAccess : Bool := false
  vars : List JobVariable := []
  burst : Bool := true
deriving DecidableEq, Repr, Inhabited

/-- A job that runs once for each chunk of entities. -/
structure JobChunkSpec where
  vars : List JobVariable := []
  burst : Bool := false
deriving DecidableEq, Repr, Inhabited

end EntityFlow
