import EntityFlow.Container
import EntityFlow.Graph.Threads
import EntityFlow.Node.Layout
import EntityFlow.Node.Basic
import EntityFlow.Settings
import EntityFlow.Slots

/-! # Flow graphs and what can be asked of them

A graph is a table of nodes and a table of connections between their ports. All questions about
connections are views of the list of live connections, sorted, so the answers do not depend on the
order in which connections were made.

Only a graph that was read from a text can have connections at vacant indices. Such a graph keeps
its threads, and a node has the connections on its threads. -/

namespace EntityFlow

inductive EdgeKind where
  | value
  | flow
deriving DecidableEq, Repr, Inhabited

/-- A connection from an output to an input. -/
structure Edge where
  source : PortRef
  target : PortRef
  kind : EdgeKind
deriving DecidableEq, Repr, Inhabited

structure Graph where
  nodes : Slots Node
  edges : Slots Edge
  containers : ContainerTree
  members : List Member
  settings : Settings
  threads : Option Threads := none
deriving DecidableEq, Repr, Inhabited

namespace Graph

def empty (settings : Settings) : Graph := ⟨.empty, .empty, .empty, [], settings, none⟩

/-- The threads of two tables, if a connection is at a vacant index. -/
def threadsOf? (nodes : Slots Node) (edges : Slots Edge) : Option Threads :=
  let isUsed (r : PortRef) : Bool := nodes.contains r.node.index
  if edges.toList.all fun e => isUsed e.source && isUsed e.target then none
  else
    let ends (e : Edge) : Nat × Nat := (e.source.node.index, e.target.node.index)
    some (.ofTables (nodes.cells.toList.map Option.isSome)
      (edges.cells.toList.map fun e => e.map ends))

/-! ## Nodes, ports and members -/

def node? (g : Graph) (n : NodeId) : Option Node := g.nodes.get? n.index

def node (g : Graph) (n : NodeId) : Except GraphError Node :=
  match g.node? n with
  | some node => .ok node
  | none => .error (.nodeNotFound n)

def kind? (g : Graph) (n : NodeId) : Option NodeKind := (g.node? n).map Node.kind

/-- How many nodes there are; a graph with threads counts those it placed. -/
def nodeCount (g : Graph) : Nat :=
  match g.threads with
  | none => g.nodes.count
  | some t => t.placed

/-- All nodes, ascending. -/
def nodeIds (g : Graph) : List NodeId := g.nodes.ids.map NodeId.mk

/-- Live connections. -/
def live (g : Graph) : List Edge := g.edges.toList

/-- The first index from which on there are no nodes and no ends of connections. -/
def bound (g : Graph) : Nat :=
  let ends := g.live.flatMap fun e => [e.source.node.index, e.target.node.index]
  (g.nodes.ids ++ ends).foldl (fun bound i => max bound (i + 1)) 0

/-- Every index that a node or the end of a connection could stand at, ascending. -/
def slotIds (g : Graph) : List NodeId := (List.range g.bound).map NodeId.mk

/-- Nodes of the kinds that satisfy `p`, ascending. -/
def nodesWhere (g : Graph) (p : NodeKind → Bool) : List NodeId :=
  g.nodeIds.filter fun n => (g.kind? n).any p

/-- Nodes placed directly in a container, ascending. -/
def nodesIn (g : Graph) (c : ContainerId) : List NodeId :=
  g.nodeIds.filter fun n => (g.node? n).any fun node => node.container = c

def port? (g : Graph) (r : PortRef) : Option Port := (g.node? r.node).bind fun n => n.port? r.port

/-- The port of a node by name. -/
def portRef (g : Graph) (n : NodeId) (name : String) : Except GraphError PortRef := do
  let node ← g.node n
  match node.portIndex? name with
  | some i => return ⟨n, i⟩
  | none => throw (.portNotFound n name)

/-- The port of a node by name, if there is one. -/
def portRef? (g : Graph) (n : NodeId) (name : String) : Option PortRef :=
  (g.portRef n name).toOption

/-- The name of a port, or its position when there is no such port. -/
def portLabel (g : Graph) (r : PortRef) : String :=
  match g.port? r with
  | some p => p.name
  | none => toString r

def member? (g : Graph) (m : MemberId) : Option Member := g.members[m.index]?

/-- Members in the order they were declared. -/
def indexedMembers (g : Graph) : List (MemberId × Member) :=
  g.members.mapIdx fun i m => (⟨i⟩, m)

def function? (g : Graph) (m : MemberId) : Option Function := (g.member? m).bind Member.asFunction

/-- The function in whose body a node lies. -/
def enclosingFunction? (g : Graph) (n : NodeId) : Option MemberId :=
  (g.node? n).bind fun node => g.containers.enclosingFunction? node.container

/-! ## Connections -/

/-- Live connections on a thread of a node. -/
def edgesOn (g : Graph) (t : Threads) (d : Direction) (n : NodeId) : List Edge :=
  (t.strand d n.index).filterMap g.edges.get?

/-- Live connections into a node; there are none into one that does not exist. -/
def edgesInto (g : Graph) (n : NodeId) : List Edge :=
  if (g.node? n).isSome then
    match g.threads with
    | none => g.live.filter fun e => e.target.node = n
    | some t => (g.edgesOn t .input n).map fun e => { e with target := ⟨n, e.target.port⟩ }
  else []

/-- Live connections out of a node; there are none out of one that does not exist. -/
def edgesFrom (g : Graph) (n : NodeId) : List Edge :=
  if (g.node? n).isSome then
    match g.threads with
    | none => g.live.filter fun e => e.source.node = n
    | some t => (g.edgesOn t .output n).map fun e => { e with source := ⟨n, e.source.port⟩ }
  else []

/-- Outputs that feed an input, ascending; a flow input may have several. -/
def sourcesOf (g : Graph) (input : PortRef) : List PortRef :=
  (((g.edgesInto input.node).filter fun e => e.target = input).map Edge.source).mergeSort PortRef.le

/-- The output that feeds an input; of several the least. -/
def sourceOf? (g : Graph) (input : PortRef) : Option PortRef :=
  PortRef.least? (((g.edgesInto input.node).filter fun e => e.target = input).map Edge.source)

/-- Inputs fed by an output, ascending. -/
def targetsOf (g : Graph) (output : PortRef) : List PortRef :=
  (((g.edgesFrom output.node).filter fun e => e.source = output).map Edge.target).mergeSort
    PortRef.le

def isConnected (g : Graph) (r : PortRef) : Bool :=
  match g.port? r with
  | none => false
  | some p => if p.isInput then !(g.sourcesOf r).isEmpty else !(g.targetsOf r).isEmpty

/-- Connected inputs of a node, each with the output that feeds it, ascending. -/
def incoming (g : Graph) (n : NodeId) : List (PortRef × PortRef) :=
  ((g.edgesInto n).map fun e => (e.target, e.source)).mergeSort PortRef.pairLe

/-- Connected outputs of a node, each with the input it feeds, ascending. -/
def outgoing (g : Graph) (n : NodeId) : List (PortRef × PortRef) :=
  ((g.edgesFrom n).map fun e => (e.source, e.target)).mergeSort PortRef.pairLe

/-! ## Jobs -/

/-- Executors of a job, ascending. -/
def executorsOf (g : Graph) (job : NodeId) : List NodeId :=
  g.nodesWhere fun k =>
    match k with
    | .executor _ (some j) => j = job
    | _ => false

/-- The discipline a job is compiled for: the most permissive one among its executors. -/
def jobDiscipline (g : Graph) (job : NodeId) : Discipline :=
  let used := (g.executorsOf job).filterMap fun n =>
    match g.kind? n with
    | some (.executor runWith _) => some runWith
    | _ => none
  match used with
  | [] => .schedule
  | d :: rest => rest.foldl Discipline.max d

/-- The type of an output, with at most `fuel` operators looked through. An operator that declares
no type takes the type of its first typed operand. -/
def typeWithin (g : Graph) : (fuel : Nat) → PortRef → Option TypeRef
  | 0, _ => none
  | fuel + 1, r => do
      let port ← g.port? r
      match port.type?, ← g.kind? r.node with
      | some type, _ => some type
      | none, .operator _ _ =>
          let operand (name : String) : Option TypeRef := do
            let input ← g.portRef? r.node name
            typeWithin g fuel (← g.sourceOf? input)
          (operand PortName.left).or (operand PortName.right)
      | none, _ => none

/-- The type of an output as far as it can be told. A chain of operators that does not end in itself
is no longer than the indices of nodes reach. -/
def inferType (g : Graph) (r : PortRef) : Option TypeRef := g.typeWithin (g.bound + 1) r

end Graph

end EntityFlow
