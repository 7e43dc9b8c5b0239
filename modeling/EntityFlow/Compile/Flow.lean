import EntityFlow.Compile.Value

/-! # Flow

Flow is pushed: a flow output generates every node it is wired to. A node reached twice is generated
twice; a node reached while it is being generated closes a cycle, which is cut and reported. -/

namespace EntityFlow.Site

/-- Statements of everything wired to a flow output. -/
abbrev Follow := PortRef → Generation (List Stmt)

variable (s : Site) (next : Follow)

/-- Statements of everything wired to the flow output of a node, by name. -/
def followWith (n : NodeId) (port : String) : Generation (List Stmt) := do
  let output ← Generation.ofGraph (s.graph.portRef n port)
  next output

/-- Statements of a node, then what follows its exit. -/
def thenExit (n : NodeId) (statements : List Stmt) : Generation (List Stmt) :=
  (statements ++ ·) <$> s.followWith next n PortName.exit

/-! ## Statements of nodes -/

def localStatement (n : NodeId) (type : TypeRef) : Generation Stmt := do
  let out ← Generation.ofGraph (s.graph.portRef n PortName.out)
  match s.plan.symbols.get? (.port out) with
  | none => throw (.unnamedLocal n)
  | some name =>
      return match ← s.readOptional n PortName.value with
        | some value => .declare none name value
        | none => .declare (some type.name) name (.ident "default")

/-! ### Entities -/

/-- A call on the command buffer: the job's own, with its sort key, or else the unit's. -/
def bufferCall (n : NodeId) (method : String) (generics : List String) (args : List Expr) :
    Generation Expr :=
  match s.field? .commandBuffer with
  | some field =>
      return .invokeOn (.capture field.name) method generics
        (s.sortKey?.toList.map Expr.ident ++ args)
  | none => do
      let buffer ← s.handle n .commandBuffer
      return .invokeOn buffer method generics args

def createStatement (n : NodeId) : Generation Stmt := do
  let port ← Generation.ofGraph (s.graph.portRef n PortName.entity)
  let name := s.plan.nameOf (.port port) PortName.entity
  return .declare none name (← s.bufferCall n "CreateEntity" [] [])

def destroyStatement (n : NodeId) : Generation Stmt := do
  let entity ← s.read n PortName.entity
  return .eval (← s.bufferCall n "DestroyEntity" [] [entity])

def setComponentStatement (n : NodeId) : Generation Stmt := do
  let entity ← s.read n PortName.entity
  let value ← s.read n PortName.component
  return .eval (← s.bufferCall n "SetComponent" [] [entity, value])

def setEnabledStatement (n : NodeId) (component : Option TypeRef) : Generation Stmt := do
  let entity ← s.read n PortName.entity
  let value ← s.read n PortName.value
  return .eval
    (← s.bufferCall n "SetComponentEnabled" [TypeRef.nameOrObject component] [entity, value])

/-! ### Jobs -/

/-- The value a field is given where a job is constructed; a variable that nothing feeds has
none. -/
def fieldValue (executor : Option NodeId) (vars : List JobVariable) :
    CaptureSource → Generation (Option Expr)
  | .port source => some <$> s.value .read source
  | .expression e => return some e
  | .jobVariable i =>
      match executor, vars[i]? with
      | some n, some v => s.readOptional n v.name
      | _, _ => return none

/-- The fields set where a job is constructed, in the order of its fields. -/
def constructionFields (j : Job) (executor : Option NodeId) :
    Generation (List (String × Expr)) := do
  let node ← Generation.ofGraph (s.graph.node j.node)
  let vars := node.kind.jobVariables
  let fields ← j.fields.mapM fun f => do
    return (← s.fieldValue executor vars f.source).map fun e => (f.name, e)
  return fields.filterMap id

/-- The local that holds a job constructed by node `n`. -/
def jobLocal (n : NodeId) (j : Job) : String :=
  s.plan.nameOf (Naming.jobKey n) (Text.variableName j.typeName)

def runJob (name : String) (runWith : Discipline) (args : List Expr) : Expr :=
  .invokeOn (.ident name) runWith.methodName [] args

/-- Construct and schedule the job made for a loop; without a body there is none. -/
def scheduleLoop (n : NodeId) (spec : ForeachSpec) : Generation (List Stmt) :=
  match s.plan.job? n with
  | none => return []
  | some j => do
      let name := s.jobLocal n j
      let fields ← s.constructionFields j none
      return [.construct j.node name j.typeName fields, .eval (runJob name spec.run [])]

/-- Construct a job from the executor's inputs and run or schedule it. -/
def execute (n : NodeId) (runWith : Discipline) (j : Job) : Generation (List Stmt) := do
  let query ← s.readOptional n PortName.query
  if j.contract = .chunk && query.isNone then Generation.report n .queryRequired
  let name := s.jobLocal n j
  let fields ← s.constructionFields j (some n)
  let dependsOn ← if runWith.isDeferred then s.readOptional n PortName.dependsOn else pure none
  let baseIndices ←
    if runWith.isParallel then s.readOptional n PortName.baseEntityIndices else pure none
  let call := runJob name runWith (query.toList ++ dependsOn.toList ++ baseIndices.toList)
  let handle ← Generation.ofGraph (s.graph.portRef n PortName.jobHandle)
  let run : Stmt :=
    match s.plan.symbols.get? (.port handle) with
    | some handleName => if runWith.isDeferred then .declare none handleName call else .eval call
    | none => .eval call
  return [.construct j.node name j.typeName fields, run]

/-! ### Loops -/

def queryType (item : QueryItem) : String :=
  let type := TypeRef.nameOrObject item.type
  match item.access with
  | .readWrite => Code.generic "RefRW" [type]
  | .readOnly => Code.generic "RefRO" [type]
  | .value => type

/-- The query of a loop with the filters that need no value. -/
def bareQuery (spec : ForeachSpec) : Expr :=
  let all := Expr.invokeOn (.ident "SystemAPI") "Query" (spec.items.map queryType) []
  let typed := spec.filters.typed.foldl (fun q (method, types) => .invokeOn q method types []) all
  match spec.filters.optionFlags? with
  | some flags => .invokeOn typed "WithOptions" [] [.ident flags]
  | none => typed

/-- The name an output of a loop was given. -/
def loopName? (n : NodeId) (port : String) : Generation (Option String) := do
  let output ← Generation.ofGraph (s.graph.portRef n port)
  return s.plan.symbols.get? (.port output)

def loopBinding : List String → String
  | [single] => "var " ++ single
  | names => "var (" ++ Code.commaList names ++ ")"

def inlineLoop (n : NodeId) (spec : ForeachSpec) : Generation (List Stmt) := do
  let shared ← (List.range spec.filters.withSharedComponent.length).mapM fun i =>
    s.read n (PortName.sharedFilter i)
  let query := shared.foldl
    (fun q value => .invokeOn q "WithSharedComponentFilter" [] [value]) (bareQuery spec)
  let items ← spec.items.mapM fun item => s.loopName? n item.name
  let entity ← if spec.entityAccess then s.loopName? n PortName.entity else pure none
  let query := if spec.entityAccess then .invokeOn query "WithEntityAccess" [] [] else query
  let body ← s.followWith next n PortName.body
  return [.loop (loopBinding ((items ++ [entity]).filterMap id)) query body]

/-! ### All kinds -/

/-- Statements of a node that flow reaches, and of what follows it. -/
def statementsWith (n : NodeId) : Generation (List Stmt) := do
  let node ← Generation.ofGraph (s.graph.node n)
  match node.kind with
  | .ret => return [.ret (← s.readOptional n PortName.value)]
  | .setValue => do
      let target ← s.target n PortName.target
      let value ← s.read n PortName.value
      s.thenExit next n [.assign target value]
  | .branch => do
      let condition ← s.read n PortName.condition
      let onTrue ← s.followWith next n PortName.onTrue
      let onFalse ← s.followWith next n PortName.onFalse
      s.thenExit next n [.branch condition onTrue onFalse]
  | .localVar _ type => do s.thenExit next n [← s.localStatement n type]
  | .member target => do
      let call ← s.memberWith s.value n target .read
      s.thenExit next n [.eval call]
  | .foreach spec => do
      let statements ←
        if spec.run.isDeferred then s.scheduleLoop n spec else s.inlineLoop next n spec
      s.thenExit next n statements
  | .executor runWith job => do
      let statements ← match job.bind s.plan.job? with
        | some j => s.execute n runWith j
        | none => pure []
      s.thenExit next n statements
  | .createEntity => do s.thenExit next n [← s.createStatement n]
  | .destroyEntity => do s.thenExit next n [← s.destroyStatement n]
  | .setComponent _ => do s.thenExit next n [← s.setComponentStatement n]
  | .setComponentEnabled component => do
      s.thenExit next n [← s.setEnabledStatement n component]
  | _ => return []

/-! ## Following flow -/

/-- Statements of node `n`, reached along `path`, through at most `fuel` nodes. -/
def nodeFlowWithin : (fuel : Nat) → (path : List NodeId) → NodeId → Generation (List Stmt)
  | 0, _, _ => return []
  | fuel + 1, path, n =>
      if path.contains n then do
        Generation.report n (.flowCycle n)
        return []
      else do
        let next : Follow := fun output => do
          let parts ← (s.graph.targetsOf output).mapM fun t =>
            nodeFlowWithin fuel (n :: path) t.node
          return parts.flatten
        return [.ofNode n (← s.statementsWith next n)]

/-- Statements of a node and of what follows it. A path repeats no node, so it is never longer than
the indices of nodes reach. -/
def nodeFlow (n : NodeId) : Generation (List Stmt) :=
  s.nodeFlowWithin (s.graph.bound + 1) [] n

/-- Statements of everything wired to a flow output. -/
def flow (output : PortRef) : Generation (List Stmt) := do
  let parts ← (s.graph.targetsOf output).mapM fun t => s.nodeFlow t.node
  return parts.flatten

def follow (n : NodeId) (port : String) : Generation (List Stmt) := s.followWith s.flow n port

end EntityFlow.Site
