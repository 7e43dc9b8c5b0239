import EntityFlow.Port

/-! # Threads

The connections at a node hang on two threads, one for each direction. The node leads to the
connection that was made last, and a connection leads to the one that was made before it. A vacant
index uses the same two links for its neighbours among the vacant indices: the one that is used
after it, and the one that is used before it.

As long as connections join nodes that exist, threads say nothing that the connections do not say. A
connection at a vacant index takes the place of a link between vacant indices. When the index is
used again, its connections drop off their threads there, and the links of two more nodes are
cut. -/

namespace EntityFlow

/-- Where the thread of outgoing connections and the thread of incoming ones go on. -/
structure Links where
  outward : Option Nat := none
  inward : Option Nat := none
deriving DecidableEq, Repr, Inhabited

namespace Links

def get (l : Links) : Direction → Option Nat
  | .output => l.outward
  | .input => l.inward

def set (d : Direction) (next : Option Nat) (l : Links) : Links :=
  match d with
  | .output => { l with outward := next }
  | .input => { l with inward := next }

@[simp] theorem get_set (l : Links) (d : Direction) (next : Option Nat) :
    (l.set d next).get d = next := by
  cases d <;> rfl

end Links

structure Threads where
  /-- Where the threads of each node begin. -/
  nodes : Array Links := #[]
  /-- Where the threads go on after each connection. -/
  edges : Array Links := #[]
  /-- The vacant index that is used first. -/
  vacant : Option Nat := none
  /-- How many nodes were placed. -/
  placed : Nat := 0
deriving DecidableEq, Repr, Inhabited

namespace Threads

def node (t : Threads) (n : Nat) : Links := t.nodes[n]?.getD {}

def edge (t : Threads) (e : Nat) : Links := t.edges[e]?.getD {}

/-- The connections on a thread from `next` on, at most `fuel` of them. -/
def follow (t : Threads) (d : Direction) : (fuel : Nat) → (next : Option Nat) → List Nat
  | 0, _ | _, none => []
  | fuel + 1, some e => if e < t.edges.size then e :: follow t d fuel ((t.edge e).get d) else []

/-- The connections on a thread of a node. A thread passes every connection at most once. -/
def strand (t : Threads) (d : Direction) (n : Nat) : List Nat :=
  t.follow d t.edges.size ((t.node n).get d)

/-- Put connection `e` in front of the two threads it belongs to. -/
def link (t : Threads) (e source target : Nat) : Threads :=
  let links : Links := ⟨(t.node source).outward, (t.node target).inward⟩
  { t with
    nodes := (t.nodes.modify source (Links.set .output (some e))).modify target
      (Links.set .input (some e))
    edges := if e < t.edges.size then t.edges.setIfInBounds e links else t.edges.push links }

/-- Take connection `e` off a thread of a node, if it is on it. -/
def cut (t : Threads) (d : Direction) (n e : Nat) : Threads :=
  let rest := (t.edge e).get d
  if (t.node n).get d = some e then { t with nodes := t.nodes.modify n (Links.set d rest) }
  else
    match (t.strand d n).find? fun c => (t.edge c).get d = some e with
    | some c => { t with edges := t.edges.modify c (Links.set d rest) }
    | none => t

/-- Take connection `e` off the two threads it belongs to. -/
def unlink (t : Threads) (e source target : Nat) : Threads :=
  let t := (t.cut .output source e).cut .input target e
  { t with edges := t.edges.setIfInBounds e {} }

/-- The index for a new node. A vacant index is taken out from between its neighbours. -/
def occupy (t : Threads) : Nat × Threads :=
  match t.vacant with
  | none => (t.nodes.size, { t with nodes := t.nodes.push {}, placed := t.placed + 1 })
  | some i =>
      let ⟨after, before⟩ := t.node i
      let join (d : Direction) (next : Option Nat) (nodes : Array Links) : Option Nat → Array Links
        | some n => nodes.modify n (Links.set d next)
        | none => nodes
      let nodes := t.nodes.setIfInBounds i {}
      let nodes := join .output after nodes before
      let nodes := join .input before nodes after
      (i, { t with nodes, vacant := after, placed := t.placed + 1 })

/-- One more index, which holds a node or is vacant. The highest vacant index is used first. -/
def addIndex (t : Threads) (used : Bool) : Threads :=
  let i := t.nodes.size
  if used then { t with nodes := t.nodes.push {}, placed := t.placed + 1 }
  else
    let nodes := match t.vacant with
      | some n => t.nodes.modify n (Links.set .input (some i))
      | none => t.nodes
    { t with nodes := nodes.push ⟨t.vacant, none⟩, vacant := some i }

/-- The threads of a table of nodes, given by which indices are used, and a table of connections,
given by the indices they join. -/
def ofTables (used : List Bool) (joined : List (Option (Nat × Nat))) : Threads :=
  let add (t : Threads) : Option (Nat × Nat) → Threads
    | some (source, target) => t.link t.edges.size source target
    | none => { t with edges := t.edges.push {} }
  joined.foldl add (used.foldl addIndex {})

end Threads

end EntityFlow
