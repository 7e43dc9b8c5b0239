import EntityFlow.Code.Form
import EntityFlow.Node.Kind

/-! # Expressions -/

namespace EntityFlow

/-- Something a unit declares once and shares: it exists in the update method only. -/
inductive Handle where
  | commandBuffer
  | entityManager
deriving DecidableEq, Repr, Inhabited

/-- Where the use of a handle comes from. -/
inductive HandleUse where
  /-- The node asks for it where its code is generated. -/
  | node (n : NodeId)
  /-- An event gives it out. -/
  | output (r : PortRef)
  /-- The job made for a node holds it. -/
  | job (n : NodeId)
deriving DecidableEq, Repr, Inhabited

inductive Expr where
  /-- A name, or a fixed text. -/
  | ident (text : String)
  | handle (h : Handle) (name : String) (use : HandleUse)
  /-- A field of the job the expression stands in. -/
  | capture (field : String)
  | literal (value : Literal)
  /-- No value could be produced for a port of that name. -/
  | unresolved (port : String)
  | binary (op : BinaryOp) (left right : Expr)
  /-- A member of the unit, through the unit's type if `qualifier` names it. -/
  | member (m : MemberId) (qualifier : Option String) (name : String)
  /-- A call of a function of the unit. -/
  | call (m : MemberId) (qualifier : Option String) (name : String) (args : List Expr)
  /-- A member of `target`. -/
  | access (target : Expr) (name : String)
  | index (target key : Expr)
  /-- A call of a method outside the unit, through no target. -/
  | invoke (method : String) (generics : List String) (args : List Expr)
  /-- A call of a method of `target`. -/
  | invokeOn (target : Expr) (method : String) (generics : List String) (args : List Expr)
deriving Repr, Inhabited

namespace Expr

mutual

def render : Expr → String
  | .ident text => text
  | .handle _ name _ => name
  | .capture field => field
  | .literal value => value.render
  | .unresolved port => Code.unresolved port
  | .binary op left right => "(" ++ render left ++ " " ++ op.symbol ++ " " ++ render right ++ ")"
  | .member _ none name => name
  | .member _ (some qualifier) name => qualifier ++ "." ++ name
  | .call _ qualifier name args => Code.invoke qualifier name [] (renderList args)
  | .access target name => render target ++ "." ++ name
  | .index target key => render target ++ "[" ++ render key ++ "]"
  | .invoke method generics args => Code.invoke none method generics (renderList args)
  | .invokeOn target method generics args =>
      Code.invoke (some (render target)) method generics (renderList args)

def renderList : List Expr → List String
  | [] => []
  | e :: rest => render e :: renderList rest

end

end Expr

end EntityFlow
