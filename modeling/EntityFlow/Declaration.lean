import EntityFlow.Code.Form

/-! # Declarations: parameters, fields, properties, methods and types -/

namespace EntityFlow

inductive PassMode where
  | byValue
  | byIn
  | byRef
  | byOut
deriving DecidableEq, Repr, Inhabited

/-- The word before the type, with the blank that follows it. -/
def PassMode.word : PassMode → String
  | .byValue => ""
  | .byIn => "in "
  | .byRef => "ref "
  | .byOut => "out "

namespace Declaration

structure Param where
  name : String
  type : String
  mode : PassMode := .byValue
  attributes : List String := []
deriving DecidableEq, Repr, Inhabited

/-- Attributes on the line of what they belong to. -/
def inlineAttributes (attributes : List String) : String :=
  String.join (attributes.map fun a => "[" ++ a ++ "] ")

/-- Attributes on lines of their own. -/
def attributeLines (attributes : List String) : String :=
  String.join (attributes.map fun a => "[" ++ a ++ "]\n")

def Param.render (p : Param) : String :=
  inlineAttributes p.attributes ++ p.mode.word ++ p.type ++ " " ++ p.name

structure Field where
  name : String
  type : String
  modifiers : String := "public"
  attributes : List String := []
  value : Option String := none
deriving DecidableEq, Repr, Inhabited

def Field.render (f : Field) : String :=
  inlineAttributes f.attributes ++ f.modifiers ++ " " ++ f.type ++ " " ++ f.name ++
    (match f.value with
      | some value => " = " ++ value
      | none => "") ++ ";"

inductive Accessors where
  | auto
  /-- Forwarded to a field, for reading only if `readOnly`. -/
  | backed (field : String) (readOnly : Bool)
deriving DecidableEq, Repr, Inhabited

def Accessors.render : Accessors → String
  | .auto => "\x7b get; set; \x7d"
  | .backed field true => "\x7b get => " ++ field ++ "; \x7d"
  | .backed field false => "\x7b get => " ++ field ++ "; set => " ++ field ++ " = value; \x7d"

structure Property where
  name : String
  type : String
  modifiers : String
  accessors : Accessors
deriving DecidableEq, Repr, Inhabited

def Property.render (p : Property) : String :=
  p.modifiers ++ " " ++ p.type ++ " " ++ p.name ++ " " ++ p.accessors.render

/-- Code with the priority that orders it in a body. -/
structure Part where
  priority : Int
  code : String
deriving DecidableEq, Repr, Inhabited

structure Method where
  name : String
  modifiers : String
  returns : String
  params : List Param := []
  attributes : List String := []
  /-- In the order they were added. -/
  parts : List Part := []
deriving DecidableEq, Repr, Inhabited

namespace Method

/-- Add code to the body; empty code adds nothing. -/
def addCode (m : Method) (priority : Int) (code : String) : Method :=
  if code.isEmpty then m else { m with parts := m.parts ++ [⟨priority, code⟩] }

def hasCode (m : Method) : Bool := !m.parts.isEmpty

/-- Parts by priority, those of one priority in the order they were added. -/
def ordered (m : Method) : List Part := m.parts.mergeSort fun a b => a.priority ≤ b.priority

def body (m : Method) : String := "\n".intercalate (m.ordered.map Part.code)

def signature (m : Method) : String :=
  m.modifiers ++ " " ++ m.returns ++ " " ++ m.name ++ "(" ++
    Code.commaList (m.params.map Param.render) ++ ")"

def render (m : Method) (unit : String) : String :=
  attributeLines m.attributes ++ Text.block m.signature m.body unit

end Method

inductive TypeSort where
  | struct
  | object
deriving DecidableEq, Repr, Inhabited

def TypeSort.keyword : TypeSort → String
  | .struct => "struct"
  | .object => "class"

structure TypeDecl where
  name : String
  sort : TypeSort
  modifiers : String
  attributes : List String := []
  bases : List String := []
  fields : List Field := []
  properties : List Property := []
  methods : List Method := []
  /-- Types inside this one, as text. -/
  nested : List String := []
deriving DecidableEq, Repr, Inhabited

namespace TypeDecl

def header (t : TypeDecl) : String :=
  t.modifiers ++ " " ++ t.sort.keyword ++ " " ++ t.name ++
    (if t.bases.isEmpty then "" else " : " ++ Code.commaList t.bases)

/-- Fields and properties as one section each, then every method and every nested type. -/
def sections (t : TypeDecl) (unit : String) : List String :=
  (if t.fields.isEmpty then [] else ["\n".intercalate (t.fields.map Field.render)]) ++
  (if t.properties.isEmpty then [] else ["\n".intercalate (t.properties.map Property.render)]) ++
  t.methods.map (Method.render · unit) ++
  t.nested

def render (t : TypeDecl) (unit : String) : String :=
  attributeLines t.attributes ++ Text.block t.header ("\n\n".intercalate (t.sections unit)) unit

end TypeDecl

end Declaration

end EntityFlow
