import EntityFlow.Codec.Basic
import EntityFlow.Diagnostic

/-! # JSON form of diagnostics

The fields that a problem carries are given by name. -/

namespace EntityFlow

namespace Severity

def all : List Severity := [.info, .warning, .error]

def name : Severity → String
  | .info => "Info"
  | .warning => "Warning"
  | .error => "Error"

def toJson (s : Severity) : Json := .str s.name
def ofJson? : Json → Option Severity := caseOf? all name

end Severity

namespace Owner

def toJson : Owner → Json
  | .graph => .str "Graph"
  | .node n => .tagged "Node" n.toJson
  | .member m => .tagged "Member" m.toJson

def ofJson? (j : Json) : Option Owner := do
  match ← j.variant? with
  | ("Graph", none) | ("Graph", some .null) => return .graph
  | ("Node", some v) => return .node (← NodeId.ofJson? v)
  | ("Member", some v) => return .member (← MemberId.ofJson? v)
  | _ => none

end Owner

namespace Problem

/-- Problems that are written as their name alone. -/
def plain : List (String × Problem) :=
  [("SystemApiOutsideSystem", .systemApiOutsideSystem),
    ("SystemApiInStaticFunction", .systemApiInStaticFunction),
    ("UnassignedComponent", .unassignedComponent), ("MissingJobReference", .missingJobReference),
    ("EmptyQuery", .emptyQuery), ("SharedFilterNotSupported", .sharedFilterNotSupported),
    ("AspectNotStruct", .aspectNotStruct), ("AspectNotReadOnly", .aspectNotReadOnly),
    ("AspectNotPartial", .aspectNotPartial), ("AspectWithoutVariables", .aspectWithoutVariables),
    ("MultipleAspectEntities", .multipleAspectEntities), ("QueryRequired", .queryRequired),
    ("RunHasNoJobHandle", .runHasNoJobHandle)]

/-- A problem's name and the fields it is written with. -/
def parts : Problem → String × List (String × Json)
  | .systemApiOutsideSystem => ("SystemApiOutsideSystem", [])
  | .systemApiInStaticFunction => ("SystemApiInStaticFunction", [])
  | .componentNotValueType type => ("ComponentNotValueType", [("ty", .str type)])
  | .unassignedComponent => ("UnassignedComponent", [])
  | .missingJobReference => ("MissingJobReference", [])
  | .writeToReadOnly port => ("WriteToReadOnly", [("port", .str port)])
  | .unassignedInput port => ("UnassignedInput", [("port", .str port)])
  | .unassignedQueryType item => ("UnassignedQueryType", [("item", .str item)])
  | .notAComponent item type => ("NotAComponent", [("item", .str item), ("ty", .str type)])
  | .duplicateQueryComponent type => ("DuplicateQueryComponent", [("ty", .str type)])
  | .emptyQuery => ("EmptyQuery", [])
  | .sharedFilterNotSupported => ("SharedFilterNotSupported", [])
  | .aspectNotStruct => ("AspectNotStruct", [])
  | .aspectNotReadOnly => ("AspectNotReadOnly", [])
  | .aspectNotPartial => ("AspectNotPartial", [])
  | .aspectWithoutVariables => ("AspectWithoutVariables", [])
  | .aspectVariableNotReadOnly name => ("AspectVariableNotReadOnly", [("name", .str name)])
  | .unsupportedAspectVariable name type =>
      ("UnsupportedAspectVariable", [("name", .str name), ("ty", .str type)])
  | .multipleAspectEntities => ("MultipleAspectEntities", [])
  | .aspectAutoProperty name => ("AspectAutoProperty", [("name", .str name)])
  | .unresolvedValue port => ("UnresolvedValue", [("port", .str port)])
  | .valueUnavailableInJob port => ("ValueUnavailableInJob", [("port", .str port)])
  | .unknownCaptureType name => ("UnknownCaptureType", [("name", .str name)])
  | .flowCycle node => ("FlowCycle", [("node", node.toJson)])
  | .notCapturable port => ("NotCapturable", [("port", .str port)])
  | .writeToCapture name => ("WriteToCapture", [("name", .str name)])
  | .handleOutsideUpdate method => ("HandleOutsideUpdate", [("method", .str method)])
  | .queryRequired => ("QueryRequired", [])
  | .runHasNoJobHandle => ("RunHasNoJobHandle", [])
  | .functionWithoutEntry name => ("FunctionWithoutEntry", [("name", .str name)])
  | .nestedUnitFailed reason => ("NestedUnitFailed", [("reason", .str reason)])

def toJson (p : Problem) : Json :=
  match p.parts with
  | (name, []) => .str name
  | (name, fields) => .tagged name (.obj fields)

/-- The one text field of a problem. -/
def text? (field : String) (j : Json) : Option String := do
  match ← j.content? .named [field] with
  | [text] => text.toString?
  | _ => none

/-- The two text fields of a problem. -/
def texts? (first second : String) (j : Json) : Option (String × String) := do
  match ← j.content? .named [first, second] with
  | [a, b] => return (← a.toString?, ← b.toString?)
  | _ => none

/-- Problems that carry something, by name. -/
def carrying? (name : String) (j : Json) : Option Problem :=
  match name with
  | "ComponentNotValueType" => (text? "ty" j).map .componentNotValueType
  | "WriteToReadOnly" => (text? "port" j).map .writeToReadOnly
  | "UnassignedInput" => (text? "port" j).map .unassignedInput
  | "UnassignedQueryType" => (text? "item" j).map .unassignedQueryType
  | "NotAComponent" => (texts? "item" "ty" j).map fun (a, b) => .notAComponent a b
  | "DuplicateQueryComponent" => (text? "ty" j).map .duplicateQueryComponent
  | "AspectVariableNotReadOnly" => (text? "name" j).map .aspectVariableNotReadOnly
  | "UnsupportedAspectVariable" =>
      (texts? "name" "ty" j).map fun (a, b) => .unsupportedAspectVariable a b
  | "AspectAutoProperty" => (text? "name" j).map .aspectAutoProperty
  | "UnresolvedValue" => (text? "port" j).map .unresolvedValue
  | "ValueUnavailableInJob" => (text? "port" j).map .valueUnavailableInJob
  | "UnknownCaptureType" => (text? "name" j).map .unknownCaptureType
  | "FlowCycle" => do
      match ← j.content? .named ["node"] with
      | [node] => return .flowCycle (← NodeId.ofJson? node)
      | _ => none
  | "NotCapturable" => (text? "port" j).map .notCapturable
  | "WriteToCapture" => (text? "name" j).map .writeToCapture
  | "HandleOutsideUpdate" => (text? "method" j).map .handleOutsideUpdate
  | "FunctionWithoutEntry" => (text? "name" j).map .functionWithoutEntry
  | "NestedUnitFailed" => (text? "reason" j).map .nestedUnitFailed
  | _ => none

def ofJson? (j : Json) : Option Problem := do
  let (name, payload) ← j.variant?
  match payload with
  | none | some .null => plain.lookup name
  | some v => carrying? name v

end Problem

namespace Diagnostic

def toJson (d : Diagnostic) : Json :=
  .obj [("severity", d.severity.toJson), ("owner", d.owner.toJson), ("kind", d.problem.toJson)]

def ofJson? (j : Json) : Option Diagnostic := do
  match ← j.record? ["severity", "owner", "kind"] with
  | [severity, owner, problem] =>
      return ⟨← Severity.ofJson? severity, ← Owner.ofJson? owner, ← Problem.ofJson? problem⟩
  | _ => none

end Diagnostic

end EntityFlow
