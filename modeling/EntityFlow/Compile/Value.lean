import EntityFlow.Compile.Site

/-! # Values

A value is pulled: an input asks for the expression of the output that feeds it, which is a captured
field, the binding of the output, or what the output's node computes. -/

namespace EntityFlow.Site

/-- How an output is read or written. -/
abbrev Resolve := Access → PortRef → Generation Expr

variable (s : Site) (resolve : Resolve)

/-- The expression that feeds an input. -/
def inputWith (access : Access) (input : PortRef) : Generation Expr :=
  match s.redirect? input with
  | some field => return .capture field
  | none =>
      if s.isUnavailable input then return .unresolved (s.graph.portLabel input)
      else
        match s.graph.sourceOf? input with
        | some source => resolve access source
        | none => do
            let port := s.graph.portLabel input
            Generation.report input.node (.unresolvedValue port)
            return .unresolved port

/-- Read the input of a node by name. -/
def readWith (n : NodeId) (port : String) : Generation Expr := do
  let input ← Generation.ofGraph (s.graph.portRef n port)
  s.inputWith resolve .read input

/-! ## Values of nodes -/

def argumentsWith (n : NodeId) (params : List String) : Generation (List Expr) :=
  params.mapM (s.readWith resolve n)

/-- The name a member was given. -/
def memberName (m : MemberId) : Generation String :=
  match s.plan.symbols.get? (.member m) with
  | some name => return name
  | none => throw (.unnamedMember m)

def functionParams (m : MemberId) : List String :=
  ((s.graph.function? m).map fun f => f.params.map Parameter.name).getD []

/-- What an external member is reached through. The receiver keeps the access, so that a write goes
through to it. -/
def receiverWith (n : NodeId) (e : External) (access : Access) : Generation (Option Expr) :=
  match e.receiver with
  | some _ => do
      let input ← Generation.ofGraph (s.graph.portRef n PortName.self)
      return some (← s.inputWith resolve access input)
  | none => return e.owner.map fun owner => .ident owner.name

/-- The access or call that a member node stands for. -/
def memberWith (n : NodeId) (target : MemberTarget) (access : Access) : Generation Expr :=
  match target with
  | .variable m | .property m => do
      let name ← s.memberName m
      return .member m (s.qualifier? m) name
  | .function m => do
      let name ← s.memberName m
      let args ← s.argumentsWith resolve n (s.functionParams m)
      let key := (s.forwardedSortKey? m).toList.map Expr.ident
      return .call m (s.qualifier? m) name (args ++ key)
  | .external e => do
      let receiver ← s.receiverWith resolve n e access
      match e.use with
      | .field _ _ | .property _ _ =>
          return match receiver with
            | some target => .access target e.name
            | none => .ident e.name
      | .method params _ => do
          let args ← s.argumentsWith resolve n (params.map Prod.fst)
          let generics := e.generics.map TypeRef.name
          return match receiver with
            | some target => .invokeOn target e.name generics args
            | none => .invoke e.name generics args

/-- A component of an entity: through the job's lookup, or else the entity manager. -/
def componentWith (n : NodeId) (component : Option TypeRef) : Generation Expr := do
  let type := TypeRef.nameOrObject component
  let entity ← s.readWith resolve n PortName.entity
  match s.field? (.lookup type) with
  | some field => return .index (.capture field.name) entity
  | none => do
      let manager ← s.handle n .entityManager
      return .invokeOn manager "GetComponentData" [type] [entity]

/-- The expression of an output that has no binding. -/
def computeWith (access : Access) (output : PortRef) : Generation Expr := do
  let node ← Generation.ofGraph (s.graph.node output.node)
  match node.kind with
  | .literal value => return .literal value
  | .operator op _ => do
      let left ← s.readWith resolve output.node PortName.left
      let right ← s.readWith resolve output.node PortName.right
      return .binary op left right
  | .member target => s.memberWith resolve output.node target access
  | .getComponent component => s.componentWith resolve output.node component
  | _ => do
      let port := s.graph.portLabel output
      Generation.report output.node (.unresolvedValue port)
      return .unresolved port

/-- The expression of an output, through at most `fuel` nodes. -/
def valueWithin : (fuel : Nat) → Resolve
  | 0, _, output => throw (.valueCycle output.node)
  | fuel + 1, access, output =>
      match s.plan.binding? output with
      | some binding => return binding.expr access
      | none => s.computeWith (valueWithin fuel) access output

/-! ## Reading -/

/-- The expression of an output. A chain of values longer than the indices of nodes reach comes back
to one of them, and is refused. -/
def value (access : Access) (output : PortRef) : Generation Expr :=
  s.valueWithin (s.graph.bound + 1) access output

/-- Read the input of a node. -/
def read (n : NodeId) (port : String) : Generation Expr := s.readWith s.value n port

/-- The input of a node as the target of an assignment. -/
def target (n : NodeId) (port : String) : Generation Expr := do
  let input ← Generation.ofGraph (s.graph.portRef n port)
  s.inputWith s.value .set input

/-- Read an input if the node has it and something feeds it. -/
def readOptional (n : NodeId) (port : String) : Generation (Option Expr) :=
  match s.graph.portRef? n port with
  | none => return none
  | some input =>
      if (s.graph.sourceOf? input).isNone && (s.redirect? input).isNone then return none
      else some <$> s.inputWith s.value .read input

end EntityFlow.Site
