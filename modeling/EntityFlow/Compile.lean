import EntityFlow.Check
import EntityFlow.Compile.Describe
import EntityFlow.Compile.Unit
import EntityFlow.Fingerprint

/-! # Compiling graphs

A graph is checked, planned, drafted and rendered. What the check and the generation report goes
with the unit; errors end the compilation. -/

namespace EntityFlow

structure CompiledUnit where
  name : String
  source : String
  /-- Of the source. -/
  fingerprint : String
  /-- Those of the check, then those of the generation. -/
  diagnostics : List Diagnostic
deriving DecidableEq, Repr, Inhabited

namespace Graph

/-- Everything about the unit that is settled before it is text. -/
def assemble (g : Graph) (options : Options) : Except CompileError Assembly := do
  let plan ← Plan.make g
  let (result, ledger) := (Draft.generate g plan).run.run (.ofPlan plan)
  return { graph := g, options, plan, draft := ← result, ledger }

end Graph

namespace Assembly

/-- What generation reported: first while planning, then while drafting. -/
def diagnostics (a : Assembly) : List Diagnostic := a.ledger.diagnostics

end Assembly

namespace Graph

def compile (g : Graph) (options : Options) : Except CompileError CompiledUnit := do
  let found := g.check
  if options.denyErrors && Diagnostic.hasErrors found then throw (.analysisFailed found)
  let a ← g.assemble options
  return {
    name := g.settings.name
    source := a.source
    fingerprint := fingerprint a.source
    diagnostics := found ++ a.diagnostics }

end Graph

end EntityFlow
