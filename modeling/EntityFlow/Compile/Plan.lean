import EntityFlow.Capability
import EntityFlow.Compile.Error
import EntityFlow.Job
import EntityFlow.Symbol

/-! # Plans

Before any body is generated, a plan settles every name, what each output reads as, and the jobs
with the values they capture. -/

namespace EntityFlow

structure Options where
  /-- Leave out what keeps a managed debugger from stepping through the code. -/
  debugScript : Bool := false
  /-- Put comments that name the node around every type made for one. -/
  traceability : Bool := true
  /-- Blanks for one level of indentation. -/
  indent : Nat := 4
  /-- Fail when analysis finds errors. -/
  denyErrors : Bool := false
deriving DecidableEq, Repr, Inhabited

/-- Whether an expression is read or assigned to. -/
inductive Access where
  | read
  | set
deriving DecidableEq, Repr, Inhabited

/-- What an output reads as. -/
inductive Binding where
  | fixed (e : Expr)
  /-- A reference whose value is reached differently for reading and for writing. -/
  | wrapper (name : String)
deriving Repr, Inhabited

def Binding.expr : Binding → Access → Expr
  | .fixed e, _ => e
  | .wrapper name, .read => .access (.ident name) "ValueRO"
  | .wrapper name, .set => .access (.ident name) "ValueRW"

namespace Handle

def hint : Handle → String
  | .commandBuffer => "ecb"
  | .entityManager => "entityManager"

def key (h : Handle) : SymbolKey := .unit h.hint

/-- The expression that makes the handle from the system state. -/
def initial (h : Handle) (state : String) : String :=
  match h with
  | .commandBuffer =>
      "SystemAPI.GetSingleton<EndSimulationEntityCommandBufferSystem.Singleton>()"
        ++ ".CreateCommandBuffer(" ++ state ++ ".WorldUnmanaged)"
  | .entityManager => state ++ ".EntityManager"

/-- Handles come before everything else in a method. -/
def priority : Handle → Int
  | .commandBuffer => -1000
  | .entityManager => -999

end Handle

namespace Flavor

/-- The system state inside lifecycle methods. -/
def stateName : Flavor → String
  | .managedSystem => "CheckedStateRef"
  | .unmanagedSystem | .aspect => "state"

end Flavor

/-- The declaration of a handle under a name. -/
def Handle.part (flavor : Flavor) (h : Handle) (name : String) : Declaration.Part :=
  ⟨h.priority, Code.declare none name (some (h.initial flavor.stateName))⟩

def updateMethod : String := Lifecycle.update.methodName

structure Plan where
  symbols : SymbolTable
  diagnostics : List Diagnostic := []
  /-- What outputs read as; of two bindings of one output the first counts. -/
  bindings : List (PortRef × Binding) := []
  boundaries : List Boundary := []
  jobs : List Job := []
  /-- Inputs that read a field while a boundary's body is generated; of two for one input the first
  counts, for whichever boundary it is. -/
  redirects : List (PortRef × NodeId × String) := []
  /-- Inputs that cannot be read in any job. -/
  unavailable : List PortRef := []
  usings : List String
  /-- Handles the update method declares. -/
  handles : List Handle := []
  /-- Code of the update method: the declarations of handles and of time values. -/
  parts : List Declaration.Part := []
deriving Repr, Inhabited

namespace Plan

def job? (p : Plan) (n : NodeId) : Option Job := p.jobs.find? fun j => j.node = n

def binding? (p : Plan) (output : PortRef) : Option Binding := p.bindings.lookup output

/-- The field an input reads while the body of `boundary` is generated. -/
def redirect? (p : Plan) (boundary : NodeId) (input : PortRef) : Option String :=
  match p.redirects.lookup input with
  | some (b, field) => if b = boundary then some field else none
  | none => none

/-- The first boundary claimed whose body holds the node. -/
def owner? (p : Plan) (n : NodeId) : Option NodeId :=
  (p.boundaries.find? fun b => b.after.contains n).map Boundary.node

/-- The name a key has, or else would get. -/
def nameOf (p : Plan) (key : SymbolKey) (hint : String) : String := (p.symbols.register key hint).1

def handleName (p : Plan) (h : Handle) : String := p.nameOf h.key h.hint

end Plan

/-- Steps of planning: they change the plan, and the first failure ends them. -/
abbrev Planning := StateT Plan (Except CompileError)

namespace Planning

def ofGraph {α : Type} : Except GraphError α → Planning α
  | .ok a => return a
  | .error e => throw (.graph e)

def attempt {α : Type} : Except CompileError α → Planning α
  | .ok a => return a
  | .error e => throw e

def report (owner : Owner) (problem : Problem) : Planning PUnit :=
  modify fun p => { p with diagnostics := p.diagnostics ++ [.of owner problem] }

def register (key : SymbolKey) (hint : String) : Planning String := do
  let p ← get
  let (name, symbols) := p.symbols.register key hint
  set { p with symbols }
  return name

def fresh (hint : String) : Planning String := do
  let p ← get
  let (name, symbols) := p.symbols.fresh hint
  set { p with symbols }
  return name

def bindOutput (output : PortRef) (b : Binding) : Planning PUnit :=
  modify fun p => { p with bindings := (output, b) :: p.bindings }

/-- Only systems have an update method. -/
def requireUpdate (g : Graph) : Planning PUnit :=
  if g.settings.flavor.isSystem then return () else throw (.missingEntryPoint updateMethod)

/-- Code at the top of the update method. -/
def declare (part : Declaration.Part) : Planning PUnit :=
  modify fun p => { p with parts := p.parts ++ [part] }

/-- The name of a handle that the update method declares, from now on if it did not yet. -/
def rootHandle (g : Graph) (h : Handle) : Planning String := do
  if (← get).handles.contains h then register h.key h.hint
  else
    requireUpdate g
    let name ← register h.key h.hint
    declare (h.part g.settings.flavor name)
    modify fun p => { p with handles := p.handles ++ [h] }
    return name

end Planning

end EntityFlow
