import EntityFlow.Compile.Flow

/-! # Drafts

A draft holds the statements of every method body, before any of them is text. -/

namespace EntityFlow

/-- Statements of a job: of its own method, and of the functions copied into it. -/
structure JobBody where
  job : Job
  execute : List Stmt
  functions : List (MemberId × List Stmt)
deriving Repr, Inhabited

structure Draft where
  /-- Bodies by method, in the order of the nodes they start from. -/
  bodies : List (String × List Stmt)
  /-- Jobs in the order of their boundaries; one that failed is left out. -/
  jobs : List JobBody
deriving Repr, Inhabited

namespace Draft

variable (g : Graph) (p : Plan)

/-- The body that starts at an entry node. Of the entries of a function only the one it points to
counts. -/
def entryBody (n : NodeId) : Generation (Option (String × List Stmt)) := do
  let node ← Generation.ofGraph (g.node n)
  match node.kind with
  | .event e => do
      let body ← Site.follow ⟨g, p, .unit⟩ n PortName.exit
      if g.settings.flavor.isSystem then return some (e.methodName, body)
      else throw (.missingEntryPoint e.methodName)
  | .functionEntry f =>
      if (g.function? f).bind Function.entry = some n then
        let method ← Generation.attempt (Naming.functionName g p.symbols f)
        let body ← Site.follow ⟨g, p, .function method⟩ n PortName.exit
        if (Naming.functionNames g p.symbols).contains method then return some (method, body)
        else throw (.missingEntryPoint method)
      else return none
  | _ => return none

/-- The body of a function as it is copied into a job. -/
def copiedBody (boundary : NodeId) (f : MemberId) : Generation (MemberId × List Stmt) := do
  let _ ← Generation.attempt (Naming.functionName g p.symbols f)
  match (g.function? f).bind Function.entry with
  | some entry => (f, ·) <$> Site.follow ⟨g, p, .job boundary⟩ entry PortName.exit
  | none => return (f, [])

/-- The bodies of the job that was made of a boundary. -/
def jobBody (n : NodeId) : Generation JobBody := do
  let some j := p.job? n | throw (.undescribedJob n)
  let execute ← Site.flow ⟨g, p, .job j.node⟩ j.body
  let functions ← j.functions.mapM (copiedBody g p j.node)
  return ⟨j, execute, functions⟩

/-- A job that cannot be generated is left out, and the reason is reported. -/
def jobBody? (n : NodeId) : Generation (Option JobBody) :=
  tryCatch (some <$> jobBody g p n) fun e =>
    if e.isStructural then do
      Generation.report n (.nestedUnitFailed e.message)
      return none
    else throw e

def generate : Generation Draft := do
  let bodies ← (g.nodesWith .entry).mapM (entryBody g p)
  let jobs ← p.boundaries.mapM fun b => jobBody? g p b.node
  return ⟨bodies.filterMap id, jobs.filterMap id⟩

end Draft

end EntityFlow
