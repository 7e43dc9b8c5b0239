import EntityFlow.Closure
import EntityFlow.Graph.Basic

/-! # Boundaries

The body of a boundary node is generated into a type of its own, so what it reads from outside must
be captured. The graph is split around the boundary:

* `before` holds every node with a path into the boundary; their values exist when the body starts.
* `after` is the body: the nodes wired to the body port, whatever their flow outputs lead to, and
  the pure producers they read, which can be computed again inside.

A value read in `after` and produced in `before` is a crossing. A value from anywhere else outside
is unavailable. -/

namespace EntityFlow

structure Boundary where
  node : NodeId
  /-- The port the body hangs off. -/
  body : PortRef
  before : List NodeId
  after : List NodeId
  /-- Captured outputs, each with the inputs that read it, in the order they are first read. -/
  crossings : List (PortRef × List PortRef)
  /-- Inputs of the body with the output they cannot read. -/
  unavailable : List (PortRef × PortRef)
  /-- Instance variables the body reads, those behind a property included. -/
  vars : List MemberId
  /-- Instance properties the body reads. -/
  properties : List MemberId
  /-- Instance functions the body calls. -/
  functions : List MemberId
deriving DecidableEq, Repr, Inhabited

namespace Graph

/-- Nodes with a connection into `n`. -/
def feeders (g : Graph) (n : NodeId) : List NodeId :=
  (g.incoming n).map fun (_, source) => source.node

/-- Every other node with a path into `n`, ascending. -/
def predecessors (g : Graph) (n : NodeId) : List NodeId :=
  (closure g.slotIds g.feeders [n]).filter (· ≠ n)

def isValueInput (g : Graph) (input : PortRef) : Bool := (g.port? input).any Port.isValue

def isPureNode (g : Graph) (n : NodeId) : Bool := (g.node? n).any Node.isPure

/-- Where a body goes on from one of its nodes: along flow outputs, and to the pure producers of the
values it reads. -/
def bodySteps (g : Graph) (n : NodeId) : List NodeId :=
  ((g.outgoing n).filter fun (output, _) => (g.port? output).any Port.isFlow).map
    (fun (_, target) => target.node) ++
  ((g.incoming n).filter fun (input, source) =>
    g.isValueInput input && g.isPureNode source.node).map
    (fun (_, source) => source.node)

/-- The body of boundary `n` below the targets of `body`, ascending. -/
def bodyNodes (g : Graph) (n : NodeId) (body : PortRef) (before : List NodeId) : List NodeId :=
  let inside (m : NodeId) : Bool := m ≠ n && !before.contains m
  let starts := ((g.targetsOf body).map PortRef.node).filter inside
  closure g.slotIds (fun m => (g.bodySteps m).filter inside) starts

/-- Value inputs of `ns` with the outputs that feed them, by node and then by port. -/
def valueReads (g : Graph) (ns : List NodeId) : List (PortRef × PortRef) :=
  ns.flatMap fun n => (g.incoming n).filter fun (input, _) => g.isValueInput input

/-- Reads by output, in the order an output is first read. -/
def groupReads (reads : List (PortRef × PortRef)) : List (PortRef × List PortRef) :=
  let add (groups : List (PortRef × List PortRef)) (read : PortRef × PortRef) :=
    let (input, source) := read
    if groups.any fun (s, _) => s = source then
      groups.map fun (s, inputs) => if s = source then (s, inputs ++ [input]) else (s, inputs)
    else groups ++ [(source, [input])]
  reads.foldl add []

/-! ## Instance members a body refers to -/

/-- The member, unless it is static. -/
def instanceMember? (g : Graph) (m : MemberId) : Option Member :=
  (g.member? m).filter fun member => !member.isStatic

def target? (g : Graph) (n : NodeId) : Option MemberTarget :=
  match g.kind? n with
  | some (.member target) => some target
  | _ => none

/-- The instance functions that the nodes call. -/
def calledFunctions (g : Graph) (ns : List NodeId) : List MemberId :=
  ns.filterMap fun n =>
    match g.target? n with
    | some (.function m) =>
      if ((g.instanceMember? m).bind Member.asFunction).isSome then some m else none
    | _ => none

def memberIds (g : Graph) : List MemberId := (List.range g.members.length).map MemberId.mk

/-- Member identities in declaration order, each once. -/
def membersAmong (g : Graph) (ms : List MemberId) : List MemberId := g.memberIds.filter ms.contains

/-- The nodes in the body of a function. -/
def functionBody (g : Graph) (m : MemberId) : List NodeId :=
  ((g.function? m).map fun f => g.nodesIn f.container).getD []

/-- Instance functions that the nodes call, directly or through one another, ascending. -/
def referencedFunctions (g : Graph) (ns : List NodeId) : List MemberId :=
  closure g.memberIds (fun m => g.calledFunctions (g.functionBody m)) (g.calledFunctions ns)

/-- The nodes in the bodies of the functions. -/
def functionNodes (g : Graph) (fs : List MemberId) : List NodeId :=
  fs.flatMap g.functionBody

/-- Instance properties that the nodes refer to, ascending. -/
def referencedProperties (g : Graph) (ns : List NodeId) : List MemberId :=
  g.membersAmong <| ns.filterMap fun n =>
    match g.target? n with
    | some (.property m) =>
      if ((g.instanceMember? m).bind Member.asProperty).isSome then some m else none
    | _ => none

/-- Instance variables that the nodes refer to or that back one of the properties, ascending. -/
def referencedVariables (g : Graph) (ns : List NodeId) (properties : List MemberId) :
    List MemberId :=
  let read := ns.filterMap fun n =>
    match g.target? n with
    | some (.variable m) => if (g.instanceMember? m).isSome then some m else none
    | _ => none
  let backing := properties.filterMap fun m =>
    (((g.member? m).bind Member.asProperty).bind Property.backing).filter fun b =>
      (g.instanceMember? b).isSome
  g.membersAmong (read ++ backing)

end Graph

namespace Boundary

/-- Split the graph around `n`; `none` when nothing is wired to the body port. -/
def analyze? (g : Graph) (n : NodeId) (body : PortRef) : Option Boundary :=
  if (g.targetsOf body).isEmpty then none
  else
    let before := g.predecessors n
    let after := g.bodyNodes n body before
    let outside := (g.valueReads after).filter fun (_, source) =>
      source.node ≠ n && !after.contains source.node
    let captured := outside.filter fun (_, source) => before.contains source.node
    let functions := g.referencedFunctions after
    let reached := after ++ g.functionNodes functions
    let properties := g.referencedProperties reached
    some {
      node := n
      body
      before
      after
      crossings := Graph.groupReads captured
      unavailable := outside.filter fun (_, source) => !before.contains source.node
      vars := g.referencedVariables reached properties
      properties
      functions }

end Boundary

end EntityFlow
