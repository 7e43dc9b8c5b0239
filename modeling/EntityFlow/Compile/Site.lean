import EntityFlow.Code.Stmt
import EntityFlow.Compile.Naming

/-! # Where code is generated

Besides making code, generation keeps a ledger: what it reports, and the handles that methods
declare because they are asked for. An error ends it, and what was entered until then stays. -/

namespace EntityFlow

/-- The type and method that code lands in. -/
inductive Scope where
  /-- The unit itself, outside its functions. -/
  | unit
  /-- A function of the unit, by the name of its method. -/
  | function (method : String)
  /-- The type made for a boundary. -/
  | job (boundary : NodeId)
deriving DecidableEq, Repr, Inhabited

namespace Scope

/-- The function whose method has to declare handles itself. -/
def method? : Scope → Option String
  | .function method => some method
  | .unit | .job _ => none

end Scope

/-- What is entered into the ledger. -/
inductive Note where
  | problem (d : Diagnostic)
  /-- A handle is used outside functions, and the update method declares it so. -/
  | root (h : Handle) (part : Declaration.Part)
  /-- A handle is used in a function, and its method declares it so. -/
  | own (method : String) (h : Handle) (part : Declaration.Part)
  /-- Node `n` uses a handle in a function whose method cannot declare it. -/
  | foreign (method : String) (n : NodeId) (h : Handle)
deriving DecidableEq, Repr, Inhabited

structure Ledger where
  diagnostics : List Diagnostic
  /-- Handles that were used outside functions. -/
  handles : List Handle
  /-- Handles that were used in functions, by method. -/
  functionHandles : List (String × Handle) := []
  /-- Declarations of handles and of time values, by the method they were added to. -/
  parts : List (String × Declaration.Part)
deriving DecidableEq, Repr, Inhabited

namespace Ledger

/-- What planning leaves for the code that is generated after it. -/
def ofPlan (p : Plan) : Ledger where
  diagnostics := p.diagnostics
  handles := p.handles
  parts := p.parts.map fun part => (updateMethod, part)

/-- Enter a note. A handle that a method was asked for before is neither declared nor reported
again. -/
def add (l : Ledger) : Note → Ledger
  | .problem d => { l with diagnostics := l.diagnostics ++ [d] }
  | .root h part =>
      if l.handles.contains h then l
      else { l with handles := l.handles ++ [h], parts := l.parts ++ [(updateMethod, part)] }
  | .own method h part =>
      if l.functionHandles.contains (method, h) then l
      else { l with
        functionHandles := l.functionHandles ++ [(method, h)]
        parts := l.parts ++ [(method, part)] }
  | .foreign method n h =>
      if l.functionHandles.contains (method, h) then l
      else { l with
        functionHandles := l.functionHandles ++ [(method, h)]
        diagnostics := l.diagnostics ++ [.atNode n (.handleOutsideUpdate method)] }

/-- What was added to a method. -/
def partsOf (l : Ledger) (method : String) : List Declaration.Part :=
  l.parts.filterMap fun (m, part) => if m = method then some part else none

end Ledger

/-- Steps of generation. The ledger survives an error. -/
abbrev Generation := ExceptT CompileError (StateM Ledger)

namespace Generation

def note (x : Note) : Generation PUnit := modify fun l => l.add x

def report (n : NodeId) (problem : Problem) : Generation PUnit :=
  note (.problem (.atNode n problem))

def ofGraph {α : Type} : Except GraphError α → Generation α
  | .ok a => return a
  | .error e => throw (.graph e)

def attempt {α : Type} : Except CompileError α → Generation α
  | .ok a => return a
  | .error e => throw e

end Generation

structure Site where
  graph : Graph
  plan : Plan
  scope : Scope
deriving Repr, Inhabited

namespace Site

/-- The job being generated. -/
def job? (s : Site) : Option Job :=
  match s.scope with
  | .job b => s.plan.job? b
  | .unit | .function _ => none

def isJob (s : Site) : Bool :=
  match s.scope with
  | .job _ => true
  | .unit | .function _ => false

/-- The field that an input reads here. -/
def redirect? (s : Site) (input : PortRef) : Option String :=
  match s.scope with
  | .job b => s.plan.redirect? b input
  | .unit | .function _ => none

/-- Inputs that a job cannot read. -/
def isUnavailable (s : Site) (input : PortRef) : Bool :=
  s.isJob && s.plan.unavailable.contains input

/-- A field of the job being generated. -/
def field? (s : Site) (owner : CaptureOwner) : Option CaptureField :=
  s.job?.bind fun j => j.field? owner

/-- The sort key that command buffer calls of the job take. -/
def sortKey? (s : Site) : Option String := s.job?.bind Job.sortKey

/-- The sort key that is passed on to a function copied into the job. -/
def forwardedSortKey? (s : Site) (function : MemberId) : Option String :=
  s.job?.bind fun j => if j.functions.contains function then j.sortKey else none

/-- The unit's type, when a member has to be reached through it. -/
def qualifier? (s : Site) (m : MemberId) : Option String :=
  if s.isJob && (s.graph.member? m).any Member.isStatic then s.plan.symbols.get? Naming.unitKey
  else none

/-- How a handle comes to be declared. Outside functions that is in the update method, which only
systems have. A function of a managed system declares it itself; the others have no state to make it
from. -/
def request (s : Site) (n : NodeId) (h : Handle) : Except CompileError Note :=
  let flavor := s.graph.settings.flavor
  let part := h.part flavor (s.plan.handleName h)
  match s.scope.method? with
  | none => if flavor.isSystem then .ok (.root h part) else .error (.missingEntryPoint updateMethod)
  | some method =>
      .ok (if flavor = .managedSystem then .own method h part else .foreign method n h)

/-- A handle of the unit, for node `n`. -/
def handle (s : Site) (n : NodeId) (h : Handle) : Generation Expr := do
  Generation.note (← Generation.attempt (s.request n h))
  return .handle h (s.plan.handleName h) (.node n)

end Site

end EntityFlow
