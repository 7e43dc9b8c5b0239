import EntityFlow.Json.Decode
import EntityFlow.Member
import EntityFlow.Query
import EntityFlow.Settings

/-! # JSON form of types, ports, queries, members and settings

A type `T` is written by `T.toJson` and read by `T.ofJson?`. A record is an object with its fields
in a fixed order; a choice is the name of the case, or an object whose one field is named for it.
Where a case carries fields of its own, the reader is told in which forms it may find them. -/

namespace EntityFlow

/-- Identities are 32-bit words. -/
def idBound : Nat := 0x1_0000_0000

/-- Positions of ports are 16-bit words. -/
def portBound : Nat := 0x1_0000

def NodeId.toJson (n : NodeId) : Json := .nat n.index
def EdgeId.toJson (e : EdgeId) : Json := .nat e.index
def ContainerId.toJson (c : ContainerId) : Json := .nat c.index
def MemberId.toJson (m : MemberId) : Json := .nat m.index

def NodeId.ofJson? (j : Json) : Option NodeId := (j.toNat? idBound).map .mk
def EdgeId.ofJson? (j : Json) : Option EdgeId := (j.toNat? idBound).map .mk
def ContainerId.ofJson? (j : Json) : Option ContainerId := (j.toNat? idBound).map .mk
def MemberId.ofJson? (j : Json) : Option MemberId := (j.toNat? idBound).map .mk

def portToJson (p : UInt16) : Json := .nat p.toNat
def portOfJson? (j : Json) : Option UInt16 := (j.toNat? portBound).map UInt16.ofNat

/-- A choice without content, named by `name`, among `all`. -/
def caseOf? {α : Type} (all : List α) (name : α → String) (j : Json) : Option α :=
  j.toCase? (all.map fun a => (name a, a))

/-! ## Types and literals -/

namespace TypeClass

def all : List TypeClass :=
  [.primitive, .struct, .component, .sharedComponent, .managedComponent, .aspect, .entity,
    .reference]

def name : TypeClass → String
  | .primitive => "Primitive"
  | .struct => "Struct"
  | .component => "Component"
  | .sharedComponent => "SharedComponent"
  | .managedComponent => "ManagedComponent"
  | .aspect => "Aspect"
  | .entity => "Entity"
  | .reference => "Reference"

def toJson (c : TypeClass) : Json := .str c.name
def ofJson? : Json → Option TypeClass := caseOf? all name

end TypeClass

namespace TypeRef

def toJson (t : TypeRef) : Json := .obj [("name", .str t.name), ("class", t.category.toJson)]

def ofJson? (j : Json) : Option TypeRef := do
  match ← j.record? ["name", "class"] with
  | [name, category] => return ⟨← name.toString?, ← TypeClass.ofJson? category⟩
  | _ => none

end TypeRef

namespace Literal

/-- Numbers that are not finite have no text in the format. -/
def floatToJson : Float64 → Json
  | .finite x => .real x
  | .infinite _ | .nan => .null

def toJson : Literal → Json
  | .bool b => .tagged "Bool" (.bool b)
  | .int i => .tagged "Int" (.int i)
  | .float x => .tagged "Float" (floatToJson x)
  | .double x => .tagged "Double" (floatToJson x)
  | .string s => .tagged "String" (.str s)
  | .default t => .tagged "Default" t.toJson

/-- Integers are signed 64-bit words. -/
def intOfJson? (j : Json) : Option Int := do
  let i ← j.toInt?
  if -0x8000_0000_0000_0000 ≤ i ∧ i < 0x8000_0000_0000_0000 then some i else none

def ofJson? (j : Json) : Option Literal := do
  match ← j.variant? with
  | ("Bool", some v) => return .bool (← v.toBool?)
  | ("Int", some v) => return .int (← intOfJson? v)
  | ("Float", some v) => return .float (.finite (← v.toReal?))
  | ("Double", some v) => return .double (.finite (← v.toReal?))
  | ("String", some v) => return .string (← v.toString?)
  | ("Default", some v) => return .default (← TypeRef.ofJson? v)
  | _ => none

end Literal

/-! ## Ports -/

namespace Direction

def all : List Direction := [.input, .output]

def name : Direction → String
  | .input => "Input"
  | .output => "Output"

def toJson (d : Direction) : Json := .str d.name
def ofJson? : Json → Option Direction := caseOf? all name

end Direction

namespace PortAccess

def all : List PortAccess := [.readOnly, .readWrite]

def name : PortAccess → String
  | .readOnly => "ReadOnly"
  | .readWrite => "ReadWrite"

def toJson (a : PortAccess) : Json := .str a.name
def ofJson? : Json → Option PortAccess := caseOf? all name

end PortAccess

namespace PortKind

def toJson : PortKind → Json
  | .flow => .str "Flow"
  | .value type access =>
      .tagged "Value" (.obj [("ty", .option TypeRef.toJson type), ("access", access.toJson)])

def ofJson? (form : Json.VariantForm) (j : Json) : Option PortKind := do
  match ← j.variant? with
  | ("Flow", none) | ("Flow", some .null) => return .flow
  | ("Value", some v) =>
      match ← v.content? form ["ty", "access"] with
      | [type, access] =>
        return .value (← type.toOption? TypeRef.ofJson?) (← PortAccess.ofJson? access)
      | _ => none
  | _ => none

end PortKind

namespace Port

def toJson (p : Port) : Json :=
  .obj [("name", .str p.name), ("direction", p.direction.toJson), ("kind", p.kind.toJson)]

def ofJson? (form : Json.VariantForm) (j : Json) : Option Port := do
  match ← j.record? ["name", "direction", "kind"] with
  | [name, direction, kind] =>
      return ⟨← name.toString?, ← Direction.ofJson? direction, ← PortKind.ofJson? form kind⟩
  | _ => none

end Port

/-! ## Queries and jobs -/

namespace ItemAccess

def all : List ItemAccess := [.readOnly, .readWrite, .value]

def name : ItemAccess → String
  | .readOnly => "ReadOnly"
  | .readWrite => "ReadWrite"
  | .value => "Value"

def toJson (a : ItemAccess) : Json := .str a.name
def ofJson? : Json → Option ItemAccess := caseOf? all name

end ItemAccess

namespace Discipline

def all : List Discipline := [.run, .schedule, .scheduleParallel]

def toJson (d : Discipline) : Json := .str d.methodName
def ofJson? : Json → Option Discipline := caseOf? all methodName

end Discipline

namespace EntityIndex

def all : List EntityIndex := [.none, .entity, .chunk, .chunkAndEntity]

def name : EntityIndex → String
  | .none => "None"
  | .entity => "Entity"
  | .chunk => "Chunk"
  | .chunkAndEntity => "ChunkAndEntity"

def toJson (i : EntityIndex) : Json := .str i.name
def ofJson? : Json → Option EntityIndex := caseOf? all name

end EntityIndex

namespace QueryItem

def toJson (i : QueryItem) : Json :=
  .obj [("name", .str i.name), ("ty", .option TypeRef.toJson i.type), ("access", i.access.toJson)]

def ofJson? (j : Json) : Option QueryItem := do
  match ← j.record? ["name", "ty", "access"] with
  | [name, type, access] =>
      return ⟨← name.toString?, ← type.toOption? TypeRef.ofJson?, ← ItemAccess.ofJson? access⟩
  | _ => none

end QueryItem

namespace QueryFilters

def toJson (f : QueryFilters) : Json :=
  let types := Json.list TypeRef.toJson
  .obj [("with_all", types f.withAll), ("with_any", types f.withAny),
    ("with_none", types f.withNone), ("with_change_filter", types f.withChangeFilter),
    ("with_shared_component", types f.withSharedComponent), ("options", .list .str f.options)]

def ofJson? (j : Json) : Option QueryFilters := do
  let types := Json.toList? TypeRef.ofJson?
  match ← j.record? ["with_all", "with_any", "with_none", "with_change_filter",
    "with_shared_component", "options"] with
  | [withAll, withAny, withNone, change, shared, options] =>
      return ⟨← types withAll, ← types withAny, ← types withNone, ← types change, ← types shared,
        ← options.toList? Json.toString?⟩
  | _ => none

end QueryFilters

namespace JobVariable

def toJson (v : JobVariable) : Json :=
  .obj [("name", .str v.name), ("ty", v.type.toJson), ("mutable", .bool v.isMutable)]

def ofJson? (j : Json) : Option JobVariable := do
  match ← j.record? ["name", "ty", "mutable"] with
  | [name, type, isMutable] =>
      return ⟨← name.toString?, ← TypeRef.ofJson? type, ← isMutable.toBool?⟩
  | _ => none

end JobVariable

namespace ForeachSpec

def toJson (s : ForeachSpec) : Json :=
  .obj [("items", .list QueryItem.toJson s.items), ("filters", s.filters.toJson),
    ("run", s.run.toJson), ("entity_access", .bool s.entityAccess), ("burst", .bool s.burst)]

def ofJson? (j : Json) : Option ForeachSpec := do
  match ← j.record? ["items", "filters", "run", "entity_access", "burst"] with
  | [items, filters, run, entityAccess, burst] =>
      return ⟨← items.toList? QueryItem.ofJson?, ← QueryFilters.ofJson? filters,
        ← Discipline.ofJson? run, ← entityAccess.toBool?, ← burst.toBool?⟩
  | _ => none

end ForeachSpec

namespace JobEntitySpec

def toJson (s : JobEntitySpec) : Json :=
  .obj [("items", .list QueryItem.toJson s.items), ("filters", s.filters.toJson),
    ("index", s.index.toJson), ("entity_access", .bool s.entityAccess),
    ("variables", .list JobVariable.toJson s.vars), ("burst", .bool s.burst)]

def ofJson? (j : Json) : Option JobEntitySpec := do
  match ← j.record? ["items", "filters", "index", "entity_access", "variables", "burst"] with
  | [items, filters, index, entityAccess, vars, burst] =>
      return ⟨← items.toList? QueryItem.ofJson?, ← QueryFilters.ofJson? filters,
        ← EntityIndex.ofJson? index, ← entityAccess.toBool?,
        ← vars.toList? JobVariable.ofJson?, ← burst.toBool?⟩
  | _ => none

end JobEntitySpec

namespace JobChunkSpec

def toJson (s : JobChunkSpec) : Json :=
  .obj [("variables", .list JobVariable.toJson s.vars), ("burst", .bool s.burst)]

def ofJson? (j : Json) : Option JobChunkSpec := do
  match ← j.record? ["variables", "burst"] with
  | [vars, burst] => return ⟨← vars.toList? JobVariable.ofJson?, ← burst.toBool?⟩
  | _ => none

end JobChunkSpec

/-! ## Members -/

namespace Parameter

def toJson (p : Parameter) : Json := .obj [("name", .str p.name), ("ty", p.type.toJson)]

def ofJson? (j : Json) : Option Parameter := do
  match ← j.record? ["name", "ty"] with
  | [name, type] => return ⟨← name.toString?, ← TypeRef.ofJson? type⟩
  | _ => none

end Parameter

namespace Function

def toJson (f : Function) : Json :=
  .obj [("name", .str f.name), ("params", .list Parameter.toJson f.params),
    ("return_type", .option TypeRef.toJson f.returns), ("is_static", .bool f.isStatic),
    ("container", f.container.toJson), ("entry", .option NodeId.toJson f.entry)]

def ofJson? (j : Json) : Option Function := do
  match ← j.record? ["name", "params", "return_type", "is_static", "container", "entry"] with
  | [name, params, returns, isStatic, container, entry] =>
      return ⟨← name.toString?, ← params.toList? Parameter.ofJson?,
        ← returns.toOption? TypeRef.ofJson?, ← isStatic.toBool?, ← ContainerId.ofJson? container,
        ← entry.toOption? NodeId.ofJson?⟩
  | _ => none

end Function

namespace Property

def toJson (p : Property) : Json :=
  .obj [("name", .str p.name), ("ty", p.type.toJson), ("is_static", .bool p.isStatic),
    ("backing", .option MemberId.toJson p.backing)]

def ofJson? (j : Json) : Option Property := do
  match ← j.record? ["name", "ty", "is_static", "backing"] with
  | [name, type, isStatic, backing] =>
      return ⟨← name.toString?, ← TypeRef.ofJson? type, ← isStatic.toBool?,
        ← backing.toOption? MemberId.ofJson?⟩
  | _ => none

end Property

namespace Variable

def toJson (v : Variable) : Json :=
  .obj [("name", .str v.name), ("ty", v.type.toJson), ("default", .option Literal.toJson v.default),
    ("read_only", .bool v.readOnly), ("is_static", .bool v.isStatic)]

def ofJson? (j : Json) : Option Variable := do
  match ← j.record? ["name", "ty", "default", "read_only", "is_static"] with
  | [name, type, default, readOnly, isStatic] =>
      return ⟨← name.toString?, ← TypeRef.ofJson? type, ← default.toOption? Literal.ofJson?,
        ← readOnly.toBool?, ← isStatic.toBool?⟩
  | _ => none

end Variable

namespace Member

def toJson : Member → Json
  | .function f => .tagged "Function" f.toJson
  | .property p => .tagged "Property" p.toJson
  | .variable v => .tagged "Variable" v.toJson

def ofJson? (j : Json) : Option Member := do
  match ← j.variant? with
  | ("Function", some v) => return .function (← Function.ofJson? v)
  | ("Property", some v) => return .property (← Property.ofJson? v)
  | ("Variable", some v) => return .variable (← Variable.ofJson? v)
  | _ => none

end Member

/-! ## Settings -/

namespace Flavor

def all : List Flavor := [.unmanagedSystem, .managedSystem, .aspect]

def name : Flavor → String
  | .unmanagedSystem => "UnmanagedSystem"
  | .managedSystem => "ManagedSystem"
  | .aspect => "Aspect"

def toJson (f : Flavor) : Json := .str f.name
def ofJson? : Json → Option Flavor := caseOf? all name

end Flavor

namespace Modifier

def toJson (m : Modifier) : Json :=
  .obj [("is_struct", .bool m.isStruct), ("read_only", .bool m.readOnly),
    ("partial", .bool m.isPartial)]

def ofJson? (j : Json) : Option Modifier := do
  match ← j.record? ["is_struct", "read_only", "partial"] with
  | [isStruct, readOnly, isPartial] =>
      return ⟨← isStruct.toBool?, ← readOnly.toBool?, ← isPartial.toBool?⟩
  | _ => none

end Modifier

namespace Settings

def toJson (s : Settings) : Json :=
  .obj [("name", .str s.name), ("namespace", .option .str s.namespaceName),
    ("usings", .list .str s.usings), ("flavor", s.flavor.toJson), ("modifier", s.modifier.toJson),
    ("burst_compile", .bool s.burstCompile),
    ("required_for_update", .list TypeRef.toJson s.requiredForUpdate)]

def ofJson? (j : Json) : Option Settings := do
  match ← j.record? ["name", "namespace", "usings", "flavor", "modifier", "burst_compile",
    "required_for_update"] with
  | [name, namespaceName, usings, flavor, modifier, burst, required] =>
      return ⟨← name.toString?, ← namespaceName.toOption? Json.toString?,
        ← usings.toList? Json.toString?, ← Flavor.ofJson? flavor, ← Modifier.ofJson? modifier,
        ← burst.toBool?, ← required.toList? TypeRef.ofJson?⟩
  | _ => none

end Settings

end EntityFlow
