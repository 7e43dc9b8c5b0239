import EntityFlow.Diagnostic
import EntityFlow.Graph.Error

/-! # Why a unit cannot be compiled or written -/

namespace EntityFlow

inductive CompileError where
  /-- Code belongs in a method that the unit does not have. -/
  | missingEntryPoint (method : String)
  | missingBoundaryBody (node : NodeId)
  | unnamedMember (m : MemberId)
  | unnamedFunction (m : MemberId)
  | unnamedLocal (n : NodeId)
  | unnamedJob (n : NodeId)
  | notFunction (m : MemberId)
  | notBoundary (n : NodeId)
  /-- A body is to be generated for a boundary that no job was made of. -/
  | undescribedJob (n : NodeId)
  /-- A value is computed from itself. -/
  | valueCycle (n : NodeId)
  | graph (e : GraphError)
  /-- Analysis found errors and the caller asked to stop on them. -/
  | analysisFailed (diagnostics : List Diagnostic)
  | ioFailure
deriving DecidableEq, Repr, Inhabited

namespace CompileError

def message : CompileError → String
  | .missingEntryPoint method => "required method '" ++ method ++ "' does not exist on the unit"
  | .missingBoundaryBody n => "boundary node " ++ toString n ++ " has no body connected"
  | .unnamedMember m => "invalid graph: member " ++ toString m ++ " was never named"
  | .unnamedFunction m => "invalid graph: function " ++ toString m ++ " was never named"
  | .unnamedLocal n => "invalid graph: local " ++ toString n ++ " was never named"
  | .unnamedJob n => "invalid graph: job " ++ toString n ++ " has no type name"
  | .notFunction m => "invalid graph: member " ++ toString m ++ " is not a function"
  | .notBoundary n => "invalid graph: node " ++ toString n ++ " is not a boundary"
  | .undescribedJob n => "invalid graph: job " ++ toString n ++ " was never described"
  | .valueCycle n => "invalid graph: the value of node " ++ toString n ++ " depends on itself"
  | .graph e => e.message
  | .analysisFailed ds => "analysis failed with " ++ toString ds.length ++ " error(s)"
  | .ioFailure => "I/O error"

/-- An error that, raised while a job is generated, costs only that job. -/
def isStructural : CompileError → Bool
  | .missingEntryPoint _ | .missingBoundaryBody _ => true
  | _ => false

end CompileError

end EntityFlow
