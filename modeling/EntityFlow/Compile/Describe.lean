import EntityFlow.Compile.Naming

/-! # Describing jobs

Once everything has a name, each claimed boundary becomes a job. Inputs of its body that read a
crossing are redirected to the field that captures it. -/

namespace EntityFlow.Planning

open Naming
open Declaration (Param)

/-! ## Parameters -/

/-- The parameter for a port of the boundary, if the port has a name. -/
def portParam? (g : Graph) (t : SymbolTable) (n : NodeId) (port type : String) (mode : PassMode)
    (attributes : List String) : Option Param := do
  let r ← g.portRef? n port
  let name ← t.get? (.port r)
  return ⟨name, type, mode, attributes⟩

def itemMode : ItemAccess → PassMode
  | .readWrite => .byRef
  | .readOnly => .byIn
  | .value => .byValue

def itemParam? (g : Graph) (t : SymbolTable) (n : NodeId) (item : QueryItem) : Option Param :=
  portParam? g t n item.name (TypeRef.nameOrObject item.type) (itemMode item.access) []

def entityParams (g : Graph) (t : SymbolTable) (n : NodeId) (items : List QueryItem)
    (entityAccess : Bool) : List Param :=
  items.filterMap (itemParam? g t n) ++
  if entityAccess then (portParam? g t n PortName.entity "Entity" .byValue []).toList else []

def indexParams (g : Graph) (t : SymbolTable) (n : NodeId) (index : EntityIndex) : List Param :=
  (if index.inQuery then
    (portParam? g t n PortName.entityIndexInQuery "int" .byValue ["EntityIndexInQuery"]).toList
    else []) ++
  (if index.inChunk then
    (portParam? g t n PortName.entityIndexInChunk "int" .byValue ["EntityIndexInChunk"]).toList
    else [])

def chunkParams (g : Graph) (t : SymbolTable) (n : NodeId) : List Param :=
  [(PortName.chunk, "ArchetypeChunk", PassMode.byIn), (PortName.chunkIndex, "int", .byValue),
    (PortName.useEnabledMask, "bool", .byValue),
    (PortName.chunkEnabledMask, "v128", .byIn)].filterMap
      fun (port, type, mode) => portParam? g t n port type mode []

/-- A job without any field. -/
def bareJob (g : Graph) (t : SymbolTable) (b : Boundary) : Except CompileError Job := do
  let some typeName := t.get? (typeKey b.node) | throw (.unnamedJob b.node)
  let some kind := g.kind? b.node | throw (.graph (.nodeNotFound b.node))
  let make (contract : Contract) (discipline : Discipline) (burst : Bool) (attributes : List String)
      (params : List Param) : Job :=
    { node := b.node, typeName, contract, discipline, burst, attributes, params, fields := []
      sortKey := none, properties := b.properties, functions := b.functions, body := b.body }
  match kind with
  | .foreach spec =>
      return make .entity spec.run spec.burst spec.filters.attributes
        (entityParams g t b.node spec.items spec.entityAccess)
  | .jobEntity spec =>
      return make .entity (g.jobDiscipline b.node) spec.burst spec.filters.attributes
        (entityParams g t b.node spec.items spec.entityAccess ++ indexParams g t b.node spec.index)
  | .jobChunk spec =>
      return make .chunk (g.jobDiscipline b.node) spec.burst [] (chunkParams g t b.node)
  | _ => throw (.notBoundary b.node)

/-! ## Fields -/

def addVariable (g : Graph) (j : Job) (i : Nat) (v : JobVariable) : Planning Job := do
  match g.portRef? j.node v.name with
  | none => return j
  | some port =>
      let name ← register (.port port) (Text.variableName v.name)
      return j.addField ⟨name, v.type.name, v.isMutable, .jobVariable i, .jobVariable i⟩

/-- What an event gives out but a job cannot hold. -/
def isUncapturable (g : Graph) (source : PortRef) (port : Port) : Bool :=
  (g.kind? source.node).any NodeKind.isEvent &&
    (port.name == PortName.state || port.name == PortName.entityManager)

def markUnavailable (input : PortRef) : Planning PUnit :=
  modify fun p => { p with unavailable := p.unavailable ++ [input] }

/-- The hint for a captured output that has no name: its node's name if it is the primary output. -/
def captureHint (g : Graph) (source : PortRef) (port : Port) : String :=
  if port.isPrimaryOutput then ((g.node? source.node).map Node.name).getD port.name else port.name

def captureName (g : Graph) (boundary : NodeId) (source : PortRef) (port : Port) :
    Planning String := do
  match (← get).symbols.get? (.port source) with
  | some name => return name
  | none => register (.capture boundary source) (Text.variableName (captureHint g source port))

def addCrossing (g : Graph) (j : Job) (source : PortRef) (inputs : List PortRef) :
    Planning Job := do
  match g.port? source with
  | none => return j
  | some port =>
      if isUncapturable g source port then
        inputs.forM fun input => do
          report (.node input.node) (.notCapturable port.name)
          markUnavailable input
        return j
      let name ← captureName g j.node source port
      let type ← match g.inferType source with
        | some type => pure type.name
        | none => do
            report (.node j.node) (.unknownCaptureType name)
            pure "object"
      modify fun p =>
        { p with redirects := (inputs.map fun i => (i, j.node, name)).reverse ++ p.redirects }
      return j.addField ⟨name, type, false, .port source, .port source⟩

def reportUnavailable (g : Graph) (input source : PortRef) : Planning PUnit := do
  report (.node input.node) (.valueUnavailableInJob (g.portLabel source))
  markUnavailable input

/-- The field that copies a variable of the unit. -/
def addMember (g : Graph) (t : SymbolTable) (j : Job) (m : MemberId) : Job :=
  match t.get? (.member m), (g.member? m).bind Member.valueType? with
  | some name, some type =>
      j.addField ⟨name, type.name, false, .variable m, .expression (.member m none name)⟩
  | _, _ => j

/-- The field that copies an auto property of the unit; others are computed from their variable. -/
def addAutoProperty (g : Graph) (t : SymbolTable) (j : Job) (m : MemberId) : Job :=
  match t.get? (.member m), (g.member? m).bind Member.asProperty with
  | some name, some prop =>
      if prop.isAuto then
        j.addField ⟨name, prop.type.name, false, .property m, .expression (.member m none name)⟩
      else j
  | _, _ => j

/-! ## What the body does to entities and captures -/

/-- Nodes generated into the job: its body and the bodies of the functions copied into it. -/
def generatedNodes (g : Graph) (b : Boundary) : List NodeId :=
  g.slotIds.filter (b.after ++ g.functionNodes b.functions).contains

def usesCommandBuffer : NodeKind → Bool
  | .createEntity | .destroyEntity | .setComponent _ | .setComponentEnabled _ => true
  | _ => false

def addLookup (j : Job) (component : TypeRef) : Planning Job := do
  if (j.field? (.lookup component.name)).isSome then return j
  let name ← fresh (Text.variableName (component.name ++ "Lookup"))
  let source :=
    Expr.invokeOn (.ident "SystemAPI") "GetComponentLookup" [component.name] [.ident "true"]
  return j.addField ⟨name, "ComponentLookup<" ++ component.name ++ ">", false,
    .lookup component.name, .expression source⟩

/-- The captured value an assignment writes to. Captures are copies, so the write is lost. -/
def capturedTarget? (g : Graph) (t : SymbolTable) (b : Boundary) (j : Job) (n : NodeId) :
    Option String := do
  let target ← g.portRef? n PortName.target
  let source ← g.sourceOf? target
  if b.crossings.any fun (s, _) => s = source then
    (j.field? (.port source)).map CaptureField.name
  else
    match ← g.target? source.node with
    | .variable m | .property m =>
        if b.vars.contains m || b.properties.contains m then t.get? (.member m) else none
    | _ => none

def inspect (g : Graph) (b : Boundary) (j : Job) (n : NodeId) : Planning Job := do
  match g.kind? n with
  | some (.getComponent (some component)) => addLookup j component
  | some .setValue =>
      match capturedTarget? g (← get).symbols b j n with
      | some name =>
          report (.node n) (.writeToCapture name)
          return j
      | none => return j
  | _ => return j

/-! ## Whole jobs -/

section Asking

variable (ask : Handle → Planning String) (g : Graph)

/-- The command buffer; a parallel job writes through it with a sort key. -/
def addCommandBuffer (j : Job) : Planning Job := do
  let name ← ask .commandBuffer
  let buffer := Expr.handle .commandBuffer name (.job j.node)
  if !j.discipline.isParallel then
    return j.addField ⟨name, "EntityCommandBuffer", true, .commandBuffer, .expression buffer⟩
  let j := j.addField ⟨name, "EntityCommandBuffer.ParallelWriter", true, .commandBuffer,
    .expression (.invokeOn buffer "AsParallelWriter" [] [])⟩
  match j.contract with
  | .entity =>
      let key ← register (sortKeyKey j.node) "sortKey"
      return { j with
        params := j.params ++ [⟨key, "int", .byValue, ["ChunkIndexInQuery"]⟩], sortKey := some key }
  | .chunk =>
      let t := (← get).symbols
      return { j with
        sortKey := (g.portRef? j.node PortName.chunkIndex).bind fun r => t.get? (.port r) }

/-- Give a job everything that its body captures. -/
def equip (b : Boundary) (bare : Job) : Planning Job := do
  let vars := ((g.kind? b.node).map NodeKind.jobVariables).getD []
  let j ← vars.zipIdx.foldlM (fun j (v, i) => addVariable g j i v) bare
  let j ← b.crossings.foldlM (fun j (source, inputs) => addCrossing g j source inputs) j
  b.unavailable.forM fun (input, source) => reportUnavailable g input source
  let t := (← get).symbols
  let j := b.vars.foldl (addMember g t) j
  let j := b.properties.foldl (addAutoProperty g t) j
  let generated := generatedNodes g b
  let j ← generated.foldlM (inspect g b) j
  if generated.any fun n => (g.kind? n).any usesCommandBuffer then addCommandBuffer ask g j
  else return j

/-- Make a job of a claimed boundary. -/
def describe (b : Boundary) : Planning PUnit := do
  let bare ← attempt (bareJob g (← get).symbols b)
  if bare.contract = .chunk then
    modify fun p => { p with usings := Naming.distinct (p.usings ++ ["Unity.Burst.Intrinsics"]) }
  let j ← equip ask g b bare
  modify fun p => { p with jobs := p.jobs ++ [j] }

/-- The whole plan of a graph, where `ask` gives the handles of the update method. -/
def planWith : Planning PUnit := do
  g.indexedMembers.forM fun (id, m) => declareFunction g id m
  (g.nodesWith .preInit).forM (claim g)
  (g.nodesWith .init).forM (nameNode ask g)
  (← get).boundaries.forM (describe ask g)

end Asking

def planAll (g : Graph) : Planning PUnit := planWith (rootHandle g) g

end Planning

def Plan.make (g : Graph) : Except CompileError Plan :=
  ((Planning.planAll g).run (.start g)).map Prod.snd

end EntityFlow
