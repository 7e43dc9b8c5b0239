import EntityFlow.Node.Kind

/-! # Nodes -/

namespace EntityFlow

/-- A node: its display name, what it does, the container it lies in and its ports. -/
structure Node where
  name : String
  kind : NodeKind
  container : ContainerId
  ports : List Port
deriving DecidableEq, Repr, Inhabited

namespace Node

def port? (n : Node) (position : UInt16) : Option Port := n.ports[position.toNat]?

/-- The position of the first port of that name, as a 16-bit word. -/
def portIndex? (n : Node) (name : String) : Option UInt16 :=
  (n.ports.findIdx? fun p => p.name == name).map UInt16.ofNat

/-- Ports with their positions. -/
def indexedPorts (n : Node) : List (UInt16 × Port) :=
  n.ports.mapIdx fun i p => (UInt16.ofNat i, p)

/-- A node without flow ports only produces values. -/
def isPure (n : Node) : Bool := !n.ports.any Port.isFlow

def hasFlowInput (n : Node) : Bool := n.ports.any fun p => p.isFlow && p.isInput

end Node

end EntityFlow
