import EntityFlow.Id

/-! # Why a graph refuses an operation -/

namespace EntityFlow

inductive GraphError where
  | nodeNotFound (node : NodeId)
  | containerNotFound (container : ContainerId)
  | memberNotFound (member : MemberId)
  | portNotFound (node : NodeId) (port : String)
  /-- A connection must run from an output to an input. -/
  | wrongDirection (source target : String)
  /-- One end is a flow port and the other a value port. -/
  | mixedKinds (source target : String)
  | selfFeed (node : NodeId)
  | alreadyConnected (port : String) (node : NodeId)
  | connectionNotFound (edge : EdgeId)
  | notAJob (node : NodeId)
  | entryExists (function : String)
deriving DecidableEq, Repr, Inhabited

def GraphError.message : GraphError → String
  | .nodeNotFound n => "node not found: NodeId(" ++ toString n ++ ")"
  | .containerNotFound c => "container not found: ContainerId(" ++ toString c ++ ")"
  | .memberNotFound m => "member not found: MemberId(" ++ toString m ++ ")"
  | .portNotFound n p => "node " ++ toString n ++ " has no port '" ++ p ++ "'"
  | .wrongDirection s t =>
      "invalid connection: connection must run from an output to an input ('" ++ s ++ "' -> '" ++ t
        ++ "')"
  | .mixedKinds s t =>
      "invalid connection: cannot connect flow and value ports ('" ++ s ++ "' -> '" ++ t ++ "')"
  | .selfFeed n => "invalid connection: node " ++ toString n ++ " cannot feed its own input"
  | .alreadyConnected p n =>
      "invalid connection: value input '" ++ p ++ "' on node " ++ toString n
        ++ " is already connected"
  | .connectionNotFound e =>
      "invalid connection: connection not found: EdgeId(" ++ toString e ++ ")"
  | .notAJob n =>
      "graph inconsistency: executor references node " ++ toString n ++ ", which is not a job"
  | .entryExists f => "graph inconsistency: function '" ++ f ++ "' already has an entry node"

end EntityFlow
