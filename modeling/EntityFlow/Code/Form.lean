import EntityFlow.Id
import EntityFlow.Text.Lines

/-! # Forms of expressions and statements as text -/

namespace EntityFlow.Code

def commaList (items : List String) : String := ", ".intercalate items

/-- `Name<A, B>`, or `Name` without arguments. -/
def generic (name : String) (args : List String) : String :=
  if args.isEmpty then name else name ++ "<" ++ commaList args ++ ">"

/-- `target.Method<G>(args)`, or `Method<G>(args)` without a target. -/
def invoke (target : Option String) (method : String) (generics args : List String) : String :=
  let call := generic method generics ++ "(" ++ commaList args ++ ")"
  match target with
  | some target => target ++ "." ++ call
  | none => call

/-- Construction of an object, with a list of fields when any are set. -/
def newObject (type : String) (fields : List (String × String)) : String :=
  if fields.isEmpty then "new " ++ type ++ "()"
  else "new " ++ type ++ " \x7b " ++ commaList (fields.map fun (f, v) => f ++ " = " ++ v) ++ " \x7d"

/-- `typeof(A), typeof(B)`. -/
def typeOfList (types : List String) : String :=
  commaList (types.map fun t => "typeof(" ++ t ++ ")")

/-- A local of a given or inferred type, with or without a value. -/
def declare (type : Option String) (name : String) (value : Option String) : String :=
  match type, value with
  | none, some value => "var " ++ name ++ " = " ++ value ++ ";"
  | some type, some value => type ++ " " ++ name ++ " = " ++ value ++ ";"
  | some type, none => type ++ " " ++ name ++ ";"
  | none, none => "var " ++ name ++ " = default;"

def assign (target value : String) : String := target ++ " = " ++ value ++ ";"

def statement (expression : String) : String := expression ++ ";"

/-- A conditional; an empty alternative is left out. -/
def ifElse (condition onTrue onFalse unit : String) : String :=
  let head := Text.block ("if (" ++ condition ++ ")") onTrue unit
  if onFalse.isEmpty then head else head ++ " " ++ Text.block "else" onFalse unit

/-- Comments around a text that point back to its node. -/
def traced (text : String) (node : NodeId) (title : String) : String :=
  "// node " ++ toString node ++ " begin: " ++ title ++ "\n" ++ text ++ "\n// node " ++
    toString node
    ++ " end"

/-- What stands where no value could be produced. -/
def unresolved (port : String) : String := "default /* unresolved: " ++ port ++ " */"

end EntityFlow.Code
