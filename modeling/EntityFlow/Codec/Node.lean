import EntityFlow.Codec.Basic
import EntityFlow.Node.Basic

/-! # JSON form of nodes -/

namespace EntityFlow

namespace Lifecycle

def name : Lifecycle → String
  | .create => "Create"
  | .update => "Update"
  | .destroy => "Destroy"
  | .startRunning => "StartRunning"
  | .stopRunning => "StopRunning"

def toJson (e : Lifecycle) : Json := .str e.name
def ofJson? : Json → Option Lifecycle := caseOf? all name

end Lifecycle

namespace BinaryOp

def all : List BinaryOp :=
  [.add, .sub, .mul, .div, .rem, .eq, .ne, .lt, .le, .gt, .ge, .and, .or]

def name : BinaryOp → String
  | .add => "Add"
  | .sub => "Sub"
  | .mul => "Mul"
  | .div => "Div"
  | .rem => "Rem"
  | .eq => "Eq"
  | .ne => "Ne"
  | .lt => "Lt"
  | .le => "Le"
  | .gt => "Gt"
  | .ge => "Ge"
  | .and => "And"
  | .or => "Or"

def toJson (op : BinaryOp) : Json := .str op.name
def ofJson? : Json → Option BinaryOp := caseOf? all name

end BinaryOp

namespace ExternalUse

def paramToJson (p : String × TypeRef) : Json := .arr [.str p.1, p.2.toJson]

def paramsOfJson? : Json → Option (List (String × TypeRef)) :=
  Json.toList? (Json.toPair? Json.toString? TypeRef.ofJson?)

def toJson : ExternalUse → Json
  | .field type readOnly =>
      .tagged "Field" (.obj [("ty", type.toJson), ("read_only", .bool readOnly)])
  | .property type readOnly =>
      .tagged "Property" (.obj [("ty", type.toJson), ("read_only", .bool readOnly)])
  | .method params returns =>
      .tagged "Method" (.obj [("params", .list paramToJson params),
        ("returns", .option TypeRef.toJson returns)])

def ofJson? (form : Json.VariantForm) (j : Json) : Option ExternalUse := do
  match ← j.variant? with
  | ("Field", some v) =>
      match ← v.content? form ["ty", "read_only"] with
      | [type, readOnly] => return .field (← TypeRef.ofJson? type) (← readOnly.toBool?)
      | _ => none
  | ("Property", some v) =>
      match ← v.content? form ["ty", "read_only"] with
      | [type, readOnly] => return .property (← TypeRef.ofJson? type) (← readOnly.toBool?)
      | _ => none
  | ("Method", some v) =>
      match ← v.content? form ["params", "returns"] with
      | [params, returns] =>
          return .method (← paramsOfJson? params) (← returns.toOption? TypeRef.ofJson?)
      | _ => none
  | _ => none

end ExternalUse

namespace External

def toJson (e : External) : Json :=
  .obj [("owner", .option TypeRef.toJson e.owner), ("instance", .option TypeRef.toJson e.receiver),
    ("name", .str e.name), ("generic_args", .list TypeRef.toJson e.generics),
    ("invoke", e.use.toJson)]

def ofJson? (form : Json.VariantForm) (j : Json) : Option External := do
  match ← j.record? ["owner", "instance", "name", "generic_args", "invoke"] with
  | [owner, receiver, name, generics, use] =>
      return ⟨← owner.toOption? TypeRef.ofJson?, ← receiver.toOption? TypeRef.ofJson?,
        ← name.toString?, ← generics.toList? TypeRef.ofJson?, ← ExternalUse.ofJson? form use⟩
  | _ => none

end External

namespace MemberTarget

def toJson : MemberTarget → Json
  | .function m => .tagged "Function" m.toJson
  | .property m => .tagged "Property" m.toJson
  | .variable m => .tagged "Variable" m.toJson
  | .external e => .tagged "External" e.toJson

def ofJson? (form : Json.VariantForm) (j : Json) : Option MemberTarget := do
  match ← j.variant? with
  | ("Function", some v) => return .function (← MemberId.ofJson? v)
  | ("Property", some v) => return .property (← MemberId.ofJson? v)
  | ("Variable", some v) => return .variable (← MemberId.ofJson? v)
  | ("External", some v) => return .external (← External.ofJson? form v)
  | _ => none

end MemberTarget

namespace NodeKind

def componentToJson (name : String) (component : Option TypeRef) : Json :=
  .tagged name (.obj [("component", .option TypeRef.toJson component)])

def toJson : NodeKind → Json
  | .event e => .tagged "Event" e.toJson
  | .functionEntry f => .tagged "FunctionEntry" (.obj [("function", f.toJson)])
  | .ret => .str "Return"
  | .literal v => .tagged "Literal" (.obj [("value", v.toJson)])
  | .operator op type =>
      .tagged "Operator" (.obj [("op", op.toJson), ("ty", .option TypeRef.toJson type)])
  | .member target => .tagged "Member" (.obj [("target", target.toJson)])
  | .setValue => .str "SetValue"
  | .localVar name type => .tagged "Local" (.obj [("name", .str name), ("ty", type.toJson)])
  | .branch => .str "Branch"
  | .foreach spec => .tagged "EntitiesForeach" spec.toJson
  | .jobEntity spec => .tagged "JobEntity" spec.toJson
  | .jobChunk spec => .tagged "JobChunk" spec.toJson
  | .executor runWith job =>
      .tagged "JobExecutor"
        (.obj [("run_with", runWith.toJson), ("job", .option NodeId.toJson job)])
  | .createEntity => .str "CreateEntity"
  | .destroyEntity => .str "DestroyEntity"
  | .getComponent c => componentToJson "GetComponent" c
  | .setComponent c => componentToJson "SetComponent" c
  | .setComponentEnabled c => componentToJson "SetComponentEnabled" c

/-- Kinds that are written as their name alone. -/
def plain : List (String × NodeKind) :=
  [("Return", .ret), ("SetValue", .setValue), ("Branch", .branch), ("CreateEntity", .createEntity),
    ("DestroyEntity", .destroyEntity)]

def componentOfJson? (form : Json.VariantForm) (j : Json) : Option (Option TypeRef) := do
  match ← j.content? form ["component"] with
  | [component] => component.toOption? TypeRef.ofJson?
  | _ => none

/-- Kinds that carry something, by name. -/
def carrying? (form : Json.VariantForm) (name : String) (j : Json) : Option NodeKind :=
  match name with
  | "Event" => (Lifecycle.ofJson? j).map .event
  | "FunctionEntry" => do
      match ← j.content? form ["function"] with
      | [f] => return .functionEntry (← MemberId.ofJson? f)
      | _ => none
  | "Literal" => do
      match ← j.content? form ["value"] with
      | [v] => return .literal (← Literal.ofJson? v)
      | _ => none
  | "Operator" => do
      match ← j.content? form ["op", "ty"] with
      | [op, type] => return .operator (← BinaryOp.ofJson? op) (← type.toOption? TypeRef.ofJson?)
      | _ => none
  | "Member" => do
      match ← j.content? form ["target"] with
      | [target] => return .member (← MemberTarget.ofJson? form target)
      | _ => none
  | "Local" => do
      match ← j.content? form ["name", "ty"] with
      | [name, type] => return .localVar (← name.toString?) (← TypeRef.ofJson? type)
      | _ => none
  | "EntitiesForeach" => (ForeachSpec.ofJson? j).map .foreach
  | "JobEntity" => (JobEntitySpec.ofJson? j).map .jobEntity
  | "JobChunk" => (JobChunkSpec.ofJson? j).map .jobChunk
  | "JobExecutor" => do
      match ← j.content? form ["run_with", "job"] with
      | [runWith, job] =>
          return .executor (← Discipline.ofJson? runWith) (← job.toOption? NodeId.ofJson?)
      | _ => none
  | "GetComponent" => (componentOfJson? form j).map .getComponent
  | "SetComponent" => (componentOfJson? form j).map .setComponent
  | "SetComponentEnabled" => (componentOfJson? form j).map .setComponentEnabled
  | _ => none

def ofJson? (form : Json.VariantForm) (j : Json) : Option NodeKind := do
  let (name, payload) ← j.variant?
  match payload with
  | none | some .null => plain.lookup name
  | some v => carrying? form name v

end NodeKind

namespace Node

def toJson (n : Node) : Json :=
  .obj [("name", .str n.name), ("kind", n.kind.toJson), ("container", n.container.toJson),
    ("ports", .list Port.toJson n.ports)]

def ofJson? (form : Json.VariantForm) (j : Json) : Option Node := do
  match ← j.record? ["name", "kind", "container", "ports"] with
  | [name, kind, container, ports] =>
      return ⟨← name.toString?, ← NodeKind.ofJson? form kind, ← ContainerId.ofJson? container,
        ← ports.toList? (Port.ofJson? form)⟩
  | _ => none

end Node

end EntityFlow
