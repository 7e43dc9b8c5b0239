import EntityFlow.CommandLine

/-! # The program -/

namespace EntityFlow

/-- Whether an action went through without an error. -/
def succeeds (action : IO Unit) : IO Bool :=
  tryCatch (do action; return true) fun _ => return false

/-- The files of the machine. -/
def machineStore : Store IO where
  read path := tryCatch (some <$> IO.FS.readFile path) fun _ => return none
  write path text := succeeds (IO.FS.writeFile path text)
  publish folder path text := succeeds do
    IO.FS.createDirAll folder
    let draft := Directory.join folder ".unit.tmp"
    IO.FS.writeFile draft text
    IO.FS.rename draft path

def usage : String :=
  "usage: compile GRAPH [-o FILE] [OPTIONS] | check GRAPH | batch GRAPH... [--out-dir DIR] [OPTIONS]\n" ++
  "options: --debug-script --no-traceability --deny-errors --indent N"

end EntityFlow

open EntityFlow in
def main (args : List String) : IO UInt32 := do
  match Command.parse? args with
  | none =>
      IO.eprintln usage
      return 2
  | some command =>
      let outcome ← command.run machineStore
      IO.print outcome.stdout
      outcome.stderr.forM fun line => IO.eprintln line
      return outcome.exit.toUInt32
