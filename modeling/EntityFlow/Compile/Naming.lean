import EntityFlow.Compile.Plan

/-! # Naming

The unit and its members get their names first, then the types made for boundaries, then the outputs
of nodes. -/

namespace EntityFlow

namespace Naming

/-- Names that generated code uses itself. -/
def ownNames : List String :=
  ["state", "Execute", "OnCreate", "OnUpdate", "OnDestroy", "OnStartRunning", "OnStopRunning",
    "CheckedStateRef", "SystemAPI"]

def unitKey : SymbolKey := .unit "type"

/-- The type made for a boundary. -/
def typeKey (n : NodeId) : SymbolKey := .node n "type"

/-- The local that holds a job while it is constructed. -/
def jobKey (n : NodeId) : SymbolKey := .node n "job"

def sortKeyKey (n : NodeId) : SymbolKey := .node n "sortKey"

/-- Parameters are numbered by 16-bit words; those beyond have no name. -/
def numbered {α : Type} (items : List α) : List (UInt16 × α) :=
  (items.take 0x1_0000).mapIdx fun i a => (UInt16.ofNat i, a)

def registerMember (t : SymbolTable) (id : MemberId) (m : Member) : SymbolTable :=
  let t := (t.register (.member id) m.name).2
  match m with
  | .function f => (numbered f.params).foldl
      (fun t (i, p) => (t.register (.param id i) (Text.variableName p.name)).2) t
  | _ => t

/-- Names of the unit, its members and their parameters. -/
def memberSymbols (g : Graph) : SymbolTable :=
  let t := ownNames.foldl SymbolTable.reserve .empty
  let t := (t.register unitKey (Text.typeName g.settings.name)).2
  g.indexedMembers.foldl (fun t (id, m) => registerMember t id m) t

/-- The name of a function's method. -/
def functionName (g : Graph) (t : SymbolTable) (f : MemberId) : Except CompileError String :=
  match g.function? f, t.get? (.member f) with
  | none, _ => .error (.notFunction f)
  | some _, none => .error (.unnamedFunction f)
  | some _, some name => .ok name

/-- The names of the methods that functions have. -/
def functionNames (g : Graph) (t : SymbolTable) : List String :=
  g.indexedMembers.filterMap fun (id, m) => m.asFunction.bind fun _ => t.get? (.member id)

/-- Each item once, where it first occurs. -/
def distinct (items : List String) : List String :=
  items.foldl (fun seen item => if seen.contains item then seen else seen ++ [item]) []

/-- A function without an entry has an empty body. -/
def entryDiagnostics (g : Graph) : List Diagnostic :=
  g.indexedMembers.flatMap fun (id, m) =>
    match m with
    | .function f =>
        if f.entry.isNone then [.of (.member id) (.functionWithoutEntry f.name)] else []
    | _ => []

end Naming

/-- The plan that knows the members and nothing else. -/
def Plan.start (g : Graph) : Plan where
  symbols := Naming.memberSymbols g
  diagnostics := Naming.entryDiagnostics g
  usings := Naming.distinct g.settings.usings

namespace Planning

open Naming

/-- Every function gets a method. -/
def declareFunction (g : Graph) (id : MemberId) (m : Member) : Planning PUnit := do
  if m.asFunction.isSome then
    let _ ← attempt (functionName g (← get).symbols id)

/-! ## Claiming bodies -/

/-- Split the graph around `n`. A boundary without a body gets no type, which is reported. -/
def claimBody (g : Graph) (n : NodeId) (port : String) : Planning PUnit := do
  let body ← ofGraph (g.portRef n port)
  match Boundary.analyze? g n body with
  | some b => modify fun p => { p with boundaries := p.boundaries ++ [b] }
  | none =>
      report (.node n) (.nestedUnitFailed (CompileError.missingBoundaryBody n).message)

/-- Name the type of a boundary and claim its body. -/
def claim (g : Graph) (n : NodeId) : Planning PUnit := do
  let node ← ofGraph (g.node n)
  match node.kind with
  | .foreach _ =>
      let _ ← register (typeKey n) (Text.typeName (node.name ++ "Job"))
      claimBody g n PortName.body
  | .jobEntity _ | .jobChunk _ =>
      let _ ← register (typeKey n) (Text.typeName node.name)
      claimBody g n PortName.execute
  | _ => return ()

/-! ## Naming outputs -/

/-- Bind an output to the name it gets from a hint. -/
def nameOutput (output : PortRef) (hint : String) : Planning PUnit := do
  let name ← register (.port output) hint
  bindOutput output (.fixed (.ident name))

/-- Inside a job its outputs are parameters or fields, named after their ports. -/
def nameOutputs (n : NodeId) (node : Node) : Planning PUnit :=
  node.indexedPorts.forM fun (i, port) =>
    if port.isValue && port.isOutput then nameOutput ⟨n, i⟩ (Text.variableName port.name)
    else return ()

/-- A time value that is read becomes a local at the top of the update method. -/
def nameTime (g : Graph) (n : NodeId) (port expression : String) : Planning PUnit := do
  let output ← ofGraph (g.portRef n port)
  if g.isConnected output then
    let name ← register (.port output) port
    requireUpdate g
    declare ⟨-900, Code.declare none name (some expression)⟩
    bindOutput output (.fixed (.ident name))

/-- The parameters of a function read as the names its method declares. -/
def nameEntry (g : Graph) (n : NodeId) (function : MemberId) : Planning PUnit := do
  let params := ((g.function? function).map Function.params).getD []
  (numbered params).forM fun (i, param) => do
    let output ← ofGraph (g.portRef n param.name)
    if let some name := (← get).symbols.get? (.param function i) then
      bindOutput output (.fixed (.ident name))

/-- What a query binds: references for components, and the value itself otherwise. -/
def nameItem (g : Graph) (n : NodeId) (item : QueryItem) : Planning PUnit := do
  let output ← ofGraph (g.portRef n item.name)
  let name ← register (.port output) (Text.variableName item.name)
  bindOutput output <| match item.access with
    | .readWrite => .wrapper name
    | .readOnly => .fixed (.access (.ident name) "ValueRO")
    | .value => .fixed (.ident name)

def nameForeach (g : Graph) (n : NodeId) (node : Node) (spec : ForeachSpec) : Planning PUnit := do
  if spec.run.isDeferred then
    nameOutputs n node
    if let some type := (← get).symbols.get? (typeKey n) then
      let _ ← register (jobKey n) (Text.variableName type)
  else
    if spec.entityAccess then
      nameOutput (← ofGraph (g.portRef n PortName.entity)) PortName.entity
    spec.items.forM (nameItem g n)

def nameExecutor (g : Graph) (n : NodeId) (runWith : Discipline) (job : Option NodeId) :
    Planning PUnit := do
  let p ← get
  if let some type := job.bind fun j => p.symbols.get? (typeKey j) then
    let _ ← register (jobKey n) (Text.variableName type)
  let handle ← ofGraph (g.portRef n PortName.jobHandle)
  if g.isConnected handle then
    if runWith = .run then
      report (.node n) .runHasNoJobHandle
      bindOutput handle (.fixed (.ident "default(JobHandle)"))
    else nameOutput handle PortName.jobHandle

/-! ## Naming nodes

Some nodes need a handle of the update method, which `ask` gives them. -/

section Asking

variable (ask : Handle → Planning String) (g : Graph)

def nameEvent (n : NodeId) (e : Lifecycle) : Planning PUnit := do
  let state ← ofGraph (g.portRef n PortName.state)
  bindOutput state (.fixed (.ident g.settings.flavor.stateName))
  if e = .update then
    nameTime g n PortName.deltaTime "SystemAPI.Time.DeltaTime"
    nameTime g n PortName.elapsedTime "SystemAPI.Time.ElapsedTime"
    let manager ← ofGraph (g.portRef n PortName.entityManager)
    if g.isConnected manager then
      let name ← ask .entityManager
      bindOutput manager (.fixed (.handle .entityManager name (.output manager)))

/-- A node that no job and no function claims uses the handle of the update method. -/
def nameEntityNode (n : NodeId) (h : Handle) : Planning PUnit := do
  if (g.enclosingFunction? n).isNone && ((← get).owner? n).isNone then
    let _ ← ask h

/-- Name what a node produces. -/
def nameNode (n : NodeId) : Planning PUnit := do
  let node ← ofGraph (g.node n)
  match node.kind with
  | .event e => nameEvent ask g n e
  | .functionEntry f => nameEntry g n f
  | .localVar name _ => do
      nameOutput (← ofGraph (g.portRef n PortName.out)) (Text.variableName name)
  | .foreach spec => nameForeach g n node spec
  | .jobEntity _ | .jobChunk _ => nameOutputs n node
  | .executor runWith job => nameExecutor g n runWith job
  | .createEntity => do
      nameOutput (← ofGraph (g.portRef n PortName.entity)) PortName.entity
      nameEntityNode ask g n .commandBuffer
  | .destroyEntity | .setComponent _ | .setComponentEnabled _ =>
      nameEntityNode ask g n .commandBuffer
  | .getComponent _ => nameEntityNode ask g n .entityManager
  | _ => return ()

end Asking

end Planning

end EntityFlow
