import EntityFlow.Compile
import EntityFlow.Directory

/-! # Writing units

A unit goes to a file of its own name. A file that already has the unit's fingerprint is left alone,
so that whoever watches it sees no change. -/

namespace EntityFlow

def unitFile (name : String) : String := name ++ ".cs"

/-- Write a unit into a folder. Answers where it is and whether the file changed. -/
def publish {m : Type → Type} [Monad m] (store : Store m) (folder name source mark : String) :
    m (Except CompileError (String × Bool)) := do
  let path := Directory.join folder (unitFile name)
  if (← store.read path).any fun text => fingerprint text = mark then return .ok (path, false)
  else if ← store.publish folder path source then return .ok (path, true)
  else return .error .ioFailure

namespace CompiledUnit

def publish {m : Type → Type} [Monad m] (u : CompiledUnit) (store : Store m) (folder : String) :
    m (Except CompileError (String × Bool)) :=
  EntityFlow.publish store folder u.name u.source u.fingerprint

end CompiledUnit

end EntityFlow
