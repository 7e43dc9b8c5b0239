import EntityFlow.Code.Expr

/-! # Statements -/

namespace EntityFlow

inductive Stmt where
  /-- A local; its type is inferred if none is given. -/
  | declare (type : Option String) (name : String) (value : Expr)
  | assign (target value : Expr)
  | eval (e : Expr)
  | ret (value : Option Expr)
  | branch (condition : Expr) (onTrue onFalse : List Stmt)
  /-- A loop over a query. -/
  | loop (binding : String) (query : Expr) (body : List Stmt)
  /-- A local that holds a new object of the type made for boundary `job`. -/
  | construct (job : NodeId) (name type : String) (fields : List (String × Expr))
  /-- What one node generated, with whatever follows it. -/
  | ofNode (n : NodeId) (body : List Stmt)
deriving Repr, Inhabited

namespace Stmt

mutual

/-- The texts of a statement, `unit` being one level of indentation. -/
def texts (unit : String) : Stmt → List String
  | .declare type name value => [Code.declare type name (some value.render)]
  | .assign target value => [Code.assign target.render value.render]
  | .eval e => [Code.statement e.render]
  | .ret none => ["return;"]
  | .ret (some value) => ["return " ++ value.render ++ ";"]
  | .branch condition onTrue onFalse =>
      [Code.ifElse condition.render (Text.joinStatements (textsList unit onTrue))
        (Text.joinStatements (textsList unit onFalse)) unit]
  | .loop binding query body =>
      [Text.block ("foreach (" ++ binding ++ " in " ++ query.render ++ ")")
        (Text.joinStatements (textsList unit body)) unit]
  | .construct _ name type fields =>
      [Code.declare none name
        (some (Code.newObject type (fields.map fun (f, e) => (f, e.render))))]
  | .ofNode _ body => textsList unit body

def textsList (unit : String) : List Stmt → List String
  | [] => []
  | s :: rest => texts unit s ++ textsList unit rest

end

/-- A body as text, one statement after the other. -/
def renderBody (unit : String) (body : List Stmt) : String :=
  Text.joinStatements (textsList unit body)

end Stmt

end EntityFlow
