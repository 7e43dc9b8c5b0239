import EntityFlow.Id

/-! # Diagnostics

A diagnostic pins a problem on its owner. Reporting one never stops a compilation. -/

namespace EntityFlow

inductive Severity where
  | info
  | warning
  | error
deriving DecidableEq, Repr, Inhabited

def Severity.label : Severity → String
  | .info => "info"
  | .warning => "warning"
  | .error => "error"

inductive Owner where
  | graph
  | node (n : NodeId)
  | member (m : MemberId)
deriving DecidableEq, Repr, Inhabited

def Owner.label : Owner → String
  | .graph => "graph"
  | .node n => "node " ++ toString n
  | .member m => "member " ++ toString m

inductive Problem where
  -- entities
  | systemApiOutsideSystem
  | systemApiInStaticFunction
  | componentNotValueType (type : String)
  | unassignedComponent
  | missingJobReference
  | writeToReadOnly (port : String)
  | unassignedInput (port : String)
  -- queries
  | unassignedQueryType (item : String)
  | notAComponent (item type : String)
  | duplicateQueryComponent (type : String)
  | emptyQuery
  | sharedFilterNotSupported
  -- aspects
  | aspectNotStruct
  | aspectNotReadOnly
  | aspectNotPartial
  | aspectWithoutVariables
  | aspectVariableNotReadOnly (name : String)
  | unsupportedAspectVariable (name type : String)
  | multipleAspectEntities
  | aspectAutoProperty (name : String)
  -- generation
  | unresolvedValue (port : String)
  | valueUnavailableInJob (port : String)
  | unknownCaptureType (name : String)
  | flowCycle (node : NodeId)
  | notCapturable (port : String)
  | writeToCapture (name : String)
  | handleOutsideUpdate (method : String)
  | queryRequired
  | runHasNoJobHandle
  | functionWithoutEntry (name : String)
  | nestedUnitFailed (reason : String)
deriving DecidableEq, Repr, Inhabited

namespace Problem

def message : Problem → String
  | .systemApiOutsideSystem => "SystemAPI member use is not permitted outside of a system type"
  | .systemApiInStaticFunction => "SystemAPI member use is not permitted in a static function"
  | .componentNotValueType type =>
      "Component must be assigned to Value Type ( struct ), got '" ++ type ++ "'"
  | .unassignedComponent => "component type is not assigned"
  | .missingJobReference => "no job is referenced by this executor"
  | .writeToReadOnly port => "cannot assign to read-only value '" ++ port ++ "'"
  | .unassignedInput port => "input '" ++ port ++ "' is not assigned"
  | .unassignedQueryType item => "query item '" ++ item ++ "' has no type assigned"
  | .notAComponent item type =>
      "query item '" ++ item
        ++ "' must be a component type for read-only or read-write access, got '" ++ type ++ "'"
  | .duplicateQueryComponent type =>
      "component '" ++ type ++ "' is declared more than once in the query"
  | .emptyQuery => "the query binds nothing; declare at least one item"
  | .sharedFilterNotSupported =>
      "shared component filters are only supported when iterating immediately"
  | .aspectNotStruct => "an aspect must be a struct"
  | .aspectNotReadOnly => "an aspect must be read-only"
  | .aspectNotPartial => "an aspect must be partial"
  | .aspectWithoutVariables => "an aspect must declare at least one variable"
  | .aspectVariableNotReadOnly name => "aspect variable '" ++ name ++ "' must be read-only"
  | .unsupportedAspectVariable name type =>
      "aspect variable '" ++ name ++ "' has unsupported type '" ++ type ++ "'"
  | .multipleAspectEntities => "an aspect may declare at most one Entity variable"
  | .aspectAutoProperty name => "aspect property '" ++ name ++ "' must not be an auto property"
  | .unresolvedValue port => "'" ++ port ++ "' has no value to read"
  | .valueUnavailableInJob port =>
      "'" ++ port
        ++ "' is produced outside the job and cannot be captured; pass it in through a job variable"
  | .unknownCaptureType name => "type of captured value '" ++ name ++ "' could not be inferred"
  | .flowCycle node => "flow re-enters node " ++ toString node ++ "; the loop was cut"
  | .notCapturable port => "'" ++ port ++ "' cannot be captured into a job"
  | .writeToCapture name =>
      "'" ++ name
        ++ "' is copied into the job by value; the assignment is lost when the job completes"
  | .handleOutsideUpdate method =>
      "function '" ++ method ++ "' uses the command buffer or entity manager, "
        ++ "which only exist in OnUpdate; call it from a job instead"
  | .queryRequired => "IJobChunk executors need a query"
  | .runHasNoJobHandle => "Run does not produce a job handle"
  | .functionWithoutEntry name =>
      "function '" ++ name ++ "' has no entry node; an empty body was generated"
  | .nestedUnitFailed reason => "synthesized type omitted: " ++ reason

/-- How grave a problem is when nothing else is said. -/
def severity : Problem → Severity
  | .runHasNoJobHandle | .unknownCaptureType _ | .functionWithoutEntry _ => .warning
  | _ => .error

end Problem

structure Diagnostic where
  severity : Severity
  owner : Owner
  problem : Problem
deriving DecidableEq, Repr, Inhabited

namespace Diagnostic

def of (owner : Owner) (problem : Problem) : Diagnostic := ⟨problem.severity, owner, problem⟩

def atNode (n : NodeId) (problem : Problem) : Diagnostic := of (.node n) problem

def isError (d : Diagnostic) : Bool := d.severity == .error

def render (d : Diagnostic) : String :=
  d.severity.label ++ " [" ++ d.owner.label ++ "]: " ++ d.problem.message

def hasErrors (ds : List Diagnostic) : Bool := ds.any isError

end Diagnostic

end EntityFlow
