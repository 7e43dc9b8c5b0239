import EntityFlow.Codec.Node
import EntityFlow.Graph.Basic
import EntityFlow.Json.Reader

/-! # JSON form of graphs

Nodes are listed without the vacant indices, which stand in a list of their own; connections are
listed by index, a vacant one as `null`. Reading checks the form only: ports, containers, members
and kinds may disagree with each other. The fields that a case carries may be listed in order. -/

namespace EntityFlow

namespace EdgeKind

def all : List EdgeKind := [.value, .flow]

def name : EdgeKind → String
  | .value => "Value"
  | .flow => "Flow"

def toJson (k : EdgeKind) : Json := .str k.name
def ofJson? : Json → Option EdgeKind := caseOf? all name

end EdgeKind

namespace Edge

/-- The ports and the kind of a connection, without the nodes it joins. -/
def connectionToJson (e : Edge) : Json :=
  .obj [("from_port", portToJson e.source.port), ("to_port", portToJson e.target.port),
    ("kind", e.kind.toJson)]

def toJson (e : Edge) : Json :=
  .arr [e.source.node.toJson, e.target.node.toJson, e.connectionToJson]

def ofJson? : Json → Option Edge
  | .arr [source, target, connection] => do
      let source ← NodeId.ofJson? source
      let target ← NodeId.ofJson? target
      match ← connection.record? ["from_port", "to_port", "kind"] with
      | [fromPort, toPort, kind] =>
          return ⟨⟨source, ← portOfJson? fromPort⟩, ⟨target, ← portOfJson? toPort⟩,
            ← EdgeKind.ofJson? kind⟩
      | _ => none
  | _ => none

end Edge

namespace ContainerKind

def toJson : ContainerKind → Json
  | .graph => .str "Graph"
  | .function m => .tagged "Function" m.toJson

def ofJson? (j : Json) : Option ContainerKind := do
  match ← j.variant? with
  | ("Graph", none) | ("Graph", some .null) => return .graph
  | ("Function", some v) => return .function (← MemberId.ofJson? v)
  | _ => none

end ContainerKind

namespace Container

def toJson (c : Container) : Json :=
  .obj [("id", c.id.toJson), ("kind", c.kind.toJson),
    ("parent", .option ContainerId.toJson c.parent),
    ("children", .list ContainerId.toJson c.children)]

def ofJson? (j : Json) : Option Container := do
  match ← j.record? ["id", "kind", "parent", "children"] with
  | [id, kind, parent, children] =>
      return ⟨← ContainerId.ofJson? id, ← ContainerKind.ofJson? kind,
        ← parent.toOption? ContainerId.ofJson?, ← children.toList? ContainerId.ofJson?⟩
  | _ => none

end Container

namespace ContainerTree

def toJson (t : ContainerTree) : Json :=
  .obj [("containers", .list Container.toJson t.containers)]

def ofJson? (j : Json) : Option ContainerTree := do
  match ← j.record? ["containers"] with
  | [containers] => return ⟨← containers.toList? Container.ofJson?⟩
  | _ => none

end ContainerTree

namespace Slots

variable {α : Type}

/-- The vacant indices below the last one in use, ascending. -/
def holes (s : Slots α) : List Nat :=
  (s.trimmed.zipIdx.filter fun c => c.1.isNone).map fun c => c.2

/-- Put entries into cells from index `i` on, leaving the holes vacant. Holes must ascend, and each
must lie among the cells. -/
def fill : (i : Nat) → (holes : List Nat) → List α → Option (List (Option α))
  | _, [], entries => some (entries.map some)
  | i, hole :: holes, entries =>
      if i ≤ hole ∧ hole - i ≤ entries.length then do
        let front := entries.take (hole - i)
        let rest ← fill (hole + 1) holes (entries.drop (hole - i))
        return front.map some ++ none :: rest
      else none

end Slots

namespace Graph

/-- Connections run one way. -/
def direction : Json := .str "directed"

def tablesToJson (g : Graph) : Json :=
  .obj [("nodes", .list Node.toJson g.nodes.toList), ("node_holes", .list .nat g.nodes.holes),
    ("edge_property", direction),
    ("edges", .list (.option Edge.toJson) g.edges.trimmed)]

def toJson (g : Graph) : Json :=
  .obj [("graph", g.tablesToJson), ("containers", g.containers.toJson),
    ("members", .list Member.toJson g.members), ("settings", g.settings.toJson)]

/-- The tables of nodes and connections; the list of vacant indices may be left out. -/
def tablesOfJson? (j : Json) : Option (Slots Node × Slots Edge) := do
  match ← j.record? ["nodes", "node_holes", "edge_property", "edges"] with
  | [nodes, holes, property, edges] =>
      let nodes ← nodes.toList? (Node.ofJson? .listed)
      let holes ← if j.lacks "node_holes" then some [] else holes.toList? (Json.toNat? idBound)
      let _ ← property.toCase? [("directed", ())]
      let edges ← edges.toList? (Json.toOption? Edge.ofJson?)
      let cells ← Slots.fill 0 holes nodes
      let inTable (n : NodeId) : Bool := n.index < cells.length
      if edges.all fun e => e.all fun e => inTable e.source.node && inTable e.target.node then
        return (.ofCells cells.toArray, .ofCells edges.toArray)
      else none
  | _ => none

def ofJson? (j : Json) : Option Graph := do
  match ← j.record? ["graph", "containers", "members", "settings"] with
  | [tables, containers, members, settings] =>
      let (nodes, edges) ← tablesOfJson? tables
      return ⟨nodes, edges, ← ContainerTree.ofJson? containers, ← members.toList? Member.ofJson?,
        ← Settings.ofJson? settings, threadsOf? nodes edges⟩
  | _ => none

/-- The graph a JSON text holds. -/
def parse? (text : String) : Option Graph := (Json.read? text).bind ofJson?

end Graph

end EntityFlow
