import EntityFlow.Compile.Draft

/-! # The unit as a declaration

The lifecycle methods come first, then one method for each function, and the types of jobs last. -/

namespace EntityFlow

open Declaration (Param Field Accessors Method TypeDecl Part)

/-- Everything that is settled when a unit is put together. -/
structure Assembly where
  graph : Graph
  options : Options
  plan : Plan
  draft : Draft
  ledger : Ledger
deriving Repr, Inhabited

namespace Assembly

variable (a : Assembly)

def settings : Settings := a.graph.settings

def flavor : Flavor := a.settings.flavor

/-- One level of indentation. -/
def unit : String := String.ofList (List.replicate a.options.indent ' ')

def burst : Bool := a.settings.burstCompile && !a.options.debugScript

def burstAttribute : List String := if a.burst then ["BurstCompile"] else []

def symbol (key : SymbolKey) : String := (a.plan.symbols.get? key).getD ""

/-! ## Members -/

def modifiers (isStatic : Bool) : String := if isStatic then "public static" else "public"

/-- Types that are classes; the others are structs and cannot set their fields where they declare
them. -/
def sort : Declaration.TypeSort :=
  match a.flavor with
  | .unmanagedSystem => .struct
  | .managedSystem => .object
  | .aspect => if a.settings.modifier.isStruct then .struct else .object

/-- Whether the default of a variable is assigned when the system is created. -/
def isAssigned (v : Variable) : Bool := !v.isStatic && a.flavor = .unmanagedSystem

def field (id : MemberId) (v : Variable) : Field where
  name := a.symbol (.member id)
  type := v.type.name
  modifiers := modifiers v.isStatic ++ (if v.readOnly then " readonly" else "")
  value := if a.isAssigned v then none else v.default.map Literal.render

def fields : List Field :=
  a.graph.indexedMembers.filterMap fun (id, m) => m.asVariable.map (a.field id)

def accessors (prop : Property) : Accessors :=
  match prop.backing with
  | none => .auto
  | some b => .backed (a.symbol (.member b))
      (((a.graph.member? b).bind Member.asVariable).any Variable.readOnly)

def property (id : MemberId) (prop : Property) : Declaration.Property where
  name := a.symbol (.member id)
  type := prop.type.name
  modifiers := modifiers prop.isStatic
  accessors := a.accessors prop

def properties : List Declaration.Property :=
  a.graph.indexedMembers.filterMap fun (id, m) => m.asProperty.map (a.property id)

/-! ## Bodies -/

def requirement (t : TypeRef) : String :=
  (if a.flavor = .managedSystem then "" else "state.") ++ "RequireForUpdate<" ++ t.name ++ ">();"

/-- What a system does when it is created, before its own code. -/
def createParts : List Part :=
  a.settings.requiredForUpdate.map (fun t => ⟨-2000, a.requirement t⟩) ++
  a.graph.indexedMembers.filterMap fun (id, m) => do
    let v ← m.asVariable
    let value ← v.default
    if a.isAssigned v then some ⟨-500, Code.assign (a.symbol (.member id)) value.render⟩ else none

/-- Code generated from the nodes that start a body of that method. -/
def bodyParts (method : String) : List Part :=
  a.draft.bodies.filterMap fun (m, body) =>
    if m = method then some ⟨0, Stmt.renderBody a.unit body⟩ else none

/-! ## Methods -/

def addParts (m : Method) (parts : List Part) : Method :=
  parts.foldl (fun m part => m.addCode part.priority part.code) m

/-- Lifecycle events with a method: starting and stopping only when a node asks for it. -/
def lifecycle : List Lifecycle :=
  Lifecycle.all.filter fun e =>
    !e.isStartStop || !(a.graph.nodesWhere fun k => k = .event e).isEmpty

def lifecycleHead (e : Lifecycle) : Method :=
  match a.flavor with
  | .managedSystem => { name := e.methodName, modifiers := "protected override", returns := "void" }
  | .unmanagedSystem | .aspect =>
      { name := e.methodName, modifiers := "public", returns := "void"
        params := [{ name := "state", type := "SystemState", mode := .byRef }]
        attributes := a.burstAttribute }

def lifecycleParts : Lifecycle → List Part
  | .create => a.createParts
  | .update | .destroy | .startRunning | .stopRunning => []

def lifecycleMethod (e : Lifecycle) : Method :=
  addParts (a.lifecycleHead e)
    (a.lifecycleParts e ++ a.ledger.partsOf e.methodName ++ a.bodyParts e.methodName)

def lifecycleMethods : List Method :=
  if a.flavor.isSystem then a.lifecycle.map a.lifecycleMethod else []

def functionParams (id : MemberId) (f : Function) : List Param :=
  (Naming.numbered f.params).map fun (i, param) =>
    { name := a.symbol (.param id i), type := param.type.name }

def functionHead (id : MemberId) (f : Function) : Method where
  name := a.symbol (.member id)
  modifiers := modifiers f.isStatic
  returns := (f.returns.map TypeRef.name).getD "void"
  params := a.functionParams id f

def functionMethod (id : MemberId) (f : Function) : Method :=
  let head := a.functionHead id f
  addParts head (a.ledger.partsOf head.name ++ a.bodyParts head.name)

def functionMethods : List Method :=
  a.graph.indexedMembers.filterMap fun (id, m) => m.asFunction.map (a.functionMethod id)

/-! ## Jobs -/

/-- A field of a job. In parallel only what is mutable can be written. -/
def jobField (j : Job) (f : CaptureField) : Field where
  name := f.name
  type := f.type
  attributes :=
    if j.discipline.isParallel && !f.isMutable then ["Unity.Collections.ReadOnly"] else []

/-- Fields of a job; an auto property it captures is declared as a property. -/
def jobFields (j : Job) : List Field :=
  (j.fields.filter fun f =>
    match f.owner with
    | .property _ => false
    | _ => true).map (jobField j)

def jobProperties (j : Job) : List Declaration.Property :=
  j.properties.filterMap fun id =>
    ((a.graph.member? id).bind Member.asProperty).map (a.property id)

def executeMethod (b : JobBody) : Method :=
  let head : Method :=
    { name := "Execute", modifiers := "public", returns := "void", params := b.job.params }
  head.addCode 0 (Stmt.renderBody a.unit b.execute)

/-- A function copied into a job: never static, and with the sort key it passes on. -/
def copiedMethod (j : Job) (id : MemberId) (f : Function) (body : List Stmt) : Method :=
  let key : List Param := j.sortKey.toList.map fun name => { name, type := "int" }
  let head := { a.functionHead id f with
    modifiers := modifiers false, params := a.functionParams id f ++ key }
  head.addCode 0 (Stmt.renderBody a.unit body)

def copiedMethods (b : JobBody) : List Method :=
  b.functions.filterMap fun (id, body) =>
    (a.graph.function? id).map fun f => a.copiedMethod b.job id f body

def jobType (b : JobBody) : TypeDecl where
  name := b.job.typeName
  sort := .struct
  modifiers := match b.job.contract with
    | .entity => "public partial"
    | .chunk => "public"
  attributes := (if b.job.burst then a.burstAttribute else []) ++ b.job.attributes
  bases := [b.job.contract.interface]
  fields := jobFields b.job
  properties := a.jobProperties b.job
  methods := a.executeMethod b :: a.copiedMethods b

def jobText (b : JobBody) : String :=
  let text := (a.jobType b).render a.unit
  if a.options.traceability then
    Code.traced text b.job.node (((a.graph.node? b.job.node).map Node.name).getD "")
  else text

/-! ## The unit -/

def bases : List String :=
  match a.flavor with
  | .unmanagedSystem =>
      "ISystem" :: (if a.lifecycle.any Lifecycle.isStartStop then ["ISystemStartStop"] else [])
  | .managedSystem => ["SystemBase"]
  | .aspect => ["IAspect"]

def unitModifiers : String :=
  let m := a.settings.modifier
  match a.flavor with
  | .unmanagedSystem | .managedSystem => "public partial"
  | .aspect =>
      "public" ++ (if m.readOnly then " readonly" else "") ++
        (if m.isPartial then " partial" else "")

def declaration : TypeDecl where
  name := a.symbol Naming.unitKey
  sort := a.sort
  modifiers := a.unitModifiers
  attributes := if a.flavor = .unmanagedSystem then a.burstAttribute else []
  bases := a.bases
  fields := a.fields
  properties := a.properties
  methods := a.lifecycleMethods ++ a.functionMethods
  nested := a.draft.jobs.map a.jobText

/-- The declaration, inside its namespace when there is one. -/
def declarationText : String :=
  let text := a.declaration.render a.unit
  match a.settings.namespaceName with
  | some name => Text.block ("namespace " ++ name) text a.unit
  | none => text

/-- The source text of the unit. -/
def source : String :=
  let usings := a.plan.usings.map fun u => "using " ++ u ++ ";"
  (if usings.isEmpty then "" else "\n".intercalate usings ++ "\n\n") ++ a.declarationText ++ "\n"

end Assembly

end EntityFlow
