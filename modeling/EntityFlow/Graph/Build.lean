import EntityFlow.Graph.Basic

/-! # Building a graph

Every operation checks first and changes the graph only if nothing is wrong. -/

namespace EntityFlow.Graph

def addFunction (g : Graph) (name : String) (params : List Parameter) (returns : Option TypeRef)
    (isStatic : Bool) : Except GraphError (MemberId × Graph) := do
  let id : MemberId := ⟨g.members.length⟩
  let (container, containers) ← g.containers.add (.function id) ContainerTree.root
  let f : Function := ⟨name, params, returns, isStatic, container, none⟩
  return (id, { g with containers, members := g.members ++ [.function f] })

def addVariable (g : Graph) (v : Variable) : MemberId × Graph :=
  (⟨g.members.length⟩, { g with members := g.members ++ [.variable v] })

/-- What backs a property must be a variable. -/
def addProperty (g : Graph) (p : Property) : Except GraphError (MemberId × Graph) := do
  if let some backing := p.backing then
    if ((g.member? backing).bind Member.asVariable).isNone then
      throw (.memberNotFound backing)
  return (⟨g.members.length⟩, { g with members := g.members ++ [.property p] })

/-- The kind of the job an executor refers to. -/
def jobKind (g : Graph) : NodeKind → Except GraphError (Option NodeKind)
  | .executor _ (some job) => do
      let node ← g.node job
      if node.kind.isJob then return some node.kind else throw (.notAJob job)
  | _ => return none

/-- A function has at most one entry. -/
def checkEntry (g : Graph) : NodeKind → Except GraphError Unit
  | .functionEntry id =>
      match g.function? id with
      | none => .error (.memberNotFound id)
      | some f => if f.entry.isSome then .error (.entryExists f.name) else .ok ()
  | _ => .ok ()

/-- Make node `n` the entry of the function it starts, if it starts one. -/
def setEntry (members : List Member) (n : NodeId) : NodeKind → List Member
  | .functionEntry id => members.modify id.index fun m =>
      match m with
      | .function f => .function { f with entry := some n }
      | m => m
  | _ => members

/-- Put a node at the next index. -/
def place (g : Graph) (node : Node) : NodeId × Graph :=
  match g.threads with
  | none =>
      let (i, nodes) := g.nodes.insert node
      (⟨i⟩, { g with nodes })
  | some t =>
      let (i, t) := t.occupy
      (⟨i⟩, { g with nodes := g.nodes.put i node, threads := some t })

def addNode (g : Graph) (name : String) (kind : NodeKind) (container : ContainerId) :
    Except GraphError (NodeId × Graph) := do
  if !g.containers.contains container then throw (.containerNotFound container)
  let job ← g.jobKind kind
  let ports ← kind.layout g.members job
  g.checkEntry kind
  let (n, g) := g.place ⟨name, kind, container, ports⟩
  return (n, { g with members := setEntry g.members n kind })

/-- The kind of connection two ports allow: both flow or both value, from an output to an input. -/
def edgeKind (source target : Port) : Except GraphError EdgeKind :=
  if !source.isOutput || !target.isInput then .error (.wrongDirection source.name target.name)
  else if source.isFlow && target.isFlow then .ok .flow
  else if source.isFlow || target.isFlow then .error (.mixedKinds source.name target.name)
  else .ok .value

def requirePort (g : Graph) (r : PortRef) : Except GraphError Port :=
  match g.port? r with
  | some p => .ok p
  | none => .error (.portNotFound r.node (toString r.port))

/-- Connect an output to an input. A value input takes one connection, and never from its own
node. -/
def connectPorts (g : Graph) (source target : PortRef) : Except GraphError (EdgeId × Graph) := do
  let sourcePort ← g.requirePort source
  let targetPort ← g.requirePort target
  let kind ← edgeKind sourcePort targetPort
  if kind = .value then
    if source.node = target.node then throw (.selfFeed source.node)
    if (g.sourceOf? target).isSome then throw (.alreadyConnected targetPort.name target.node)
  let (i, edges) := g.edges.insert ⟨source, target, kind⟩
  let threads := g.threads.map fun t => t.link i source.node.index target.node.index
  return (⟨i⟩, { g with edges, threads })

/-- Connect two ports by name. -/
def connect (g : Graph) (source : NodeId) (output : String) (target : NodeId) (input : String) :
    Except GraphError (EdgeId × Graph) := do
  let source ← g.portRef source output
  let target ← g.portRef target input
  g.connectPorts source target

/-- Remove a connection, answering with what it was. -/
def disconnect (g : Graph) (e : EdgeId) : Except GraphError (Edge × Graph) :=
  match g.edges.get? e.index with
  | some edge =>
      let threads := g.threads.map fun t =>
        t.unlink e.index edge.source.node.index edge.target.node.index
      .ok (edge, { g with edges := g.edges.erase e.index, threads })
  | none => .error (.connectionNotFound e)

end EntityFlow.Graph
