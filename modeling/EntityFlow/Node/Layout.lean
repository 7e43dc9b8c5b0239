import EntityFlow.Graph.Error
import EntityFlow.Member
import EntityFlow.Node.Kind

/-! # Port layouts

The ports of a node follow from its kind, the members of the graph and, for an executor, the job it
refers to. -/

namespace EntityFlow

namespace Layout

def entityOut : Port := .valueOut PortName.entity (some .entity) .readOnly

def intOut (name : String) : Port := .valueOut name (some .int) .readOnly

def accessOf (readOnly : Bool) : PortAccess := if readOnly then .readOnly else .readWrite

def ofItem (item : QueryItem) : Port := .valueOut item.name item.type item.access.portAccess

def ofVariable (v : JobVariable) : Port := .valueOut v.name (some v.type) (accessOf !v.isMutable)

/-- A call that returns nothing sits in the flow; any other is a value. -/
def ofCall (params : List (String × TypeRef)) (returns : Option TypeRef) : List Port :=
  let inputs := params.map fun (name, type) => Port.valueIn name (some type)
  match returns with
  | none => .flowIn PortName.enter :: inputs ++ [.flowOut PortName.exit]
  | some type => inputs ++ [.valueOut PortName.out (some type) .readOnly]

def ofExternal (e : External) : List Port :=
  let receiver := e.receiver.toList.map fun type => Port.valueIn PortName.self (some type)
  match e.use with
  | .field type readOnly | .property type readOnly =>
      receiver ++ [.valueOut PortName.out (some type) (accessOf readOnly)]
  | .method params returns => receiver ++ ofCall params returns

/-- The member of that identity, seen as what the reference says it is. -/
def lookup {α : Type} (members : List Member) (view : Member → Option α) (id : MemberId) :
    Except GraphError α :=
  match members[id.index]? >>= view with
  | some a => .ok a
  | none => .error (.memberNotFound id)

def ofTarget (members : List Member) : MemberTarget → Except GraphError (List Port)
  | .function id => do
      let f ← lookup members Member.asFunction id
      return ofCall (f.params.map fun p => (p.name, p.type)) f.returns
  | .property id => do
      let p ← lookup members Member.asProperty id
      return [.valueOut PortName.out (some p.type) .readWrite]
  | .variable id => do
      let v ← lookup members Member.asVariable id
      return [.valueOut PortName.out (some v.type) (accessOf v.readOnly)]
  | .external e => return ofExternal e

def ofEvent (e : Lifecycle) : List Port :=
  [.flowOut PortName.exit, .valueOut PortName.state (some (.struct "SystemState")) .readWrite] ++
  if e = .update then
    [.valueOut PortName.deltaTime (some .float) .readOnly,
      .valueOut PortName.elapsedTime (some .double) .readOnly,
      .valueOut PortName.entityManager (some (.struct "EntityManager")) .readOnly]
  else []

def ofForeach (spec : ForeachSpec) : List Port :=
  [.flowIn PortName.enter, .flowOut PortName.body, .flowOut PortName.exit] ++
  (spec.filters.withSharedComponent.mapIdx fun i type =>
    Port.valueIn (PortName.sharedFilter i) (some type)) ++
  (if spec.entityAccess then [entityOut] else []) ++
  spec.items.map ofItem

def ofJobEntity (spec : JobEntitySpec) : List Port :=
  [.flowOut PortName.execute] ++
  (if spec.entityAccess then [entityOut] else []) ++
  (if spec.index.inQuery then [intOut PortName.entityIndexInQuery] else []) ++
  (if spec.index.inChunk then [intOut PortName.entityIndexInChunk] else []) ++
  spec.items.map ofItem ++
  spec.vars.map ofVariable

def ofJobChunk (spec : JobChunkSpec) : List Port :=
  [.flowOut PortName.execute,
    .valueOut PortName.chunk (some (.struct "ArchetypeChunk")) .readOnly,
    intOut PortName.chunkIndex,
    .valueOut PortName.useEnabledMask (some .bool) .readOnly,
    .valueOut PortName.chunkEnabledMask (some (.struct "v128")) .readOnly] ++
  spec.vars.map ofVariable

def ofExecutor (runWith : Discipline) (vars : List JobVariable) : List Port :=
  [.flowIn PortName.enter,
    .valueIn PortName.query (some (.reference "EntityQuery")),
    .valueIn PortName.dependsOn (some (.struct "JobHandle"))] ++
  (if runWith.isParallel then
    [.valueIn PortName.baseEntityIndices (some (.struct "NativeArray<int>"))] else []) ++
  [.flowOut PortName.exit, .valueOut PortName.jobHandle (some (.struct "JobHandle")) .readOnly] ++
  vars.map fun v => Port.valueIn v.name (some v.type)

end Layout

open Layout in
/-- The ports of a node of this kind; `job` is the kind of the job an executor refers to. -/
def NodeKind.layout (members : List Member) (job : Option NodeKind) :
    NodeKind → Except GraphError (List Port)
  | .event e => return ofEvent e
  | .functionEntry id => do
      let f ← lookup members Member.asFunction id
      return .flowOut PortName.exit ::
        f.params.map fun p => Port.valueOut p.name (some p.type) .readWrite
  | .ret => return [.flowIn PortName.enter, .valueIn PortName.value none]
  | .literal v => return [.valueOut PortName.out (some v.type) .readOnly]
  | .operator op type =>
      return [.valueIn PortName.left type, .valueIn PortName.right type,
        .valueOut PortName.out (if op.isBoolean then some .bool else type) .readOnly]
  | .member target => ofTarget members target
  | .setValue =>
      return [.flowIn PortName.enter, .valueIn PortName.target none, .valueIn PortName.value none,
        .flowOut PortName.exit]
  | .localVar _ type =>
      return [.flowIn PortName.enter, .valueIn PortName.value (some type), .flowOut PortName.exit,
        .valueOut PortName.out (some type) .readWrite]
  | .branch =>
      return [.flowIn PortName.enter, .valueIn PortName.condition (some .bool),
        .flowOut PortName.onTrue, .flowOut PortName.onFalse, .flowOut PortName.exit]
  | .foreach spec => return ofForeach spec
  | .jobEntity spec => return ofJobEntity spec
  | .jobChunk spec => return ofJobChunk spec
  | .executor runWith _ => return ofExecutor runWith ((job.map NodeKind.jobVariables).getD [])
  | .createEntity => return [.flowIn PortName.enter, .flowOut PortName.exit, entityOut]
  | .destroyEntity =>
      return [.flowIn PortName.enter, .valueIn PortName.entity (some .entity),
        .flowOut PortName.exit]
  | .getComponent component =>
      return [.valueIn PortName.entity (some .entity), .valueOut PortName.out component .readOnly]
  | .setComponent component =>
      return [.flowIn PortName.enter, .valueIn PortName.entity (some .entity),
        .valueIn PortName.component component, .flowOut PortName.exit]
  | .setComponentEnabled _ =>
      return [.flowIn PortName.enter, .valueIn PortName.entity (some .entity),
        .valueIn PortName.value (some .bool), .flowOut PortName.exit]

end EntityFlow
