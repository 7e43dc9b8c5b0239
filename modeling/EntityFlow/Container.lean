import EntityFlow.Graph.Error

/-! # Containers

Every node lies in one container. Containers form a tree under the graph itself; the bodies of
functions are its branches. -/

namespace EntityFlow

inductive ContainerKind where
  | graph
  | function (member : MemberId)
deriving DecidableEq, Repr, Inhabited

structure Container where
  id : ContainerId
  kind : ContainerKind
  parent : Option ContainerId
  children : List ContainerId
deriving DecidableEq, Repr, Inhabited

/-- Containers by position. -/
structure ContainerTree where
  containers : List Container
deriving DecidableEq, Repr, Inhabited

namespace ContainerTree

def root : ContainerId := ⟨0⟩

def empty : ContainerTree := ⟨[⟨root, .graph, none, []⟩]⟩

def size (t : ContainerTree) : Nat := t.containers.length

def get? (t : ContainerTree) (c : ContainerId) : Option Container := t.containers[c.index]?

def contains (t : ContainerTree) (c : ContainerId) : Bool := (t.get? c).isSome

def parent? (t : ContainerTree) (c : ContainerId) : Option ContainerId :=
  (t.get? c).bind Container.parent

def children (t : ContainerTree) (c : ContainerId) : List ContainerId :=
  ((t.get? c).map Container.children).getD []

/-- Put a new container under `parent`. -/
def add (t : ContainerTree) (kind : ContainerKind) (parent : ContainerId) :
    Except GraphError (ContainerId × ContainerTree) :=
  if t.contains parent then
    let id : ContainerId := ⟨t.size⟩
    let adopt (c : Container) : Container := { c with children := c.children ++ [id] }
    .ok (id, ⟨t.containers.modify parent.index adopt ++ [⟨id, kind, some parent, []⟩]⟩)
  else .error (.containerNotFound parent)

/-- The chain of parents from `c` on, at most `fuel` long. -/
def chain (t : ContainerTree) : (fuel : Nat) → ContainerId → List ContainerId
  | 0, _ => []
  | fuel + 1, c =>
      match t.get? c with
      | none => []
      | some here => c :: (match here.parent with
          | none => []
          | some p => chain t fuel p)

/-- From `c` to the root, `c` first. A chain visits no container twice, so the size bounds it. -/
def ancestors (t : ContainerTree) (c : ContainerId) : List ContainerId := t.chain t.size c

/-- The function whose body is nearest around `c`. -/
def enclosingFunction? (t : ContainerTree) (c : ContainerId) : Option MemberId :=
  (t.ancestors c).findSome? fun a =>
    match t.get? a with
    | some ⟨_, .function m, _, _⟩ => some m
    | _ => none

end ContainerTree

end EntityFlow
