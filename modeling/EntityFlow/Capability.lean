import EntityFlow.Graph.Basic

/-! # What nodes take part in -/

namespace EntityFlow

/-- A part a node plays in a compilation. -/
inductive Capability where
  /-- Claims a body before anything is named. -/
  | preInit
  /-- Names its ports. -/
  | init
  /-- Is looked at again once everything has a name. -/
  | postInit
  /-- Starts the body of a method. -/
  | entry
  /-- Generates statements where flow reaches it. -/
  | flowCode
  /-- Generates an expression where one of its outputs is read. -/
  | valueCode
  /-- Has its body compiled into a type of its own. -/
  | boundary
deriving DecidableEq, Repr, Inhabited

namespace Graph

/-- A call that returns nothing. -/
def isVoidCall (g : Graph) : MemberTarget → Bool
  | .function m => (g.function? m).any fun f => f.returns.isNone
  | .external e =>
      match e.use with
      | .method _ none => true
      | _ => false
  | .property _ | .variable _ => false

def kindCapabilities (g : Graph) : NodeKind → List Capability
  | .event _ | .functionEntry _ => [.init, .entry]
  | .ret | .setValue | .branch => [.flowCode]
  | .localVar _ _ => [.init, .flowCode]
  | .literal _ | .operator _ _ => [.valueCode]
  | .member target => if g.isVoidCall target then [.flowCode] else [.valueCode]
  | .foreach spec =>
      if spec.run.isDeferred then [.preInit, .init, .postInit, .flowCode, .boundary]
      else [.init, .flowCode]
  | .jobEntity _ | .jobChunk _ => [.preInit, .init, .postInit, .boundary]
  | .executor _ _ => [.init, .flowCode]
  | .createEntity | .destroyEntity | .setComponent _ | .setComponentEnabled _ => [.init, .flowCode]
  | .getComponent _ => [.init, .valueCode]

def capabilities (g : Graph) (n : NodeId) : List Capability :=
  ((g.kind? n).map g.kindCapabilities).getD []

/-- Nodes with a capability, ascending. -/
def nodesWith (g : Graph) (c : Capability) : List NodeId :=
  g.nodeIds.filter fun n => (g.capabilities n).contains c

end Graph

end EntityFlow
