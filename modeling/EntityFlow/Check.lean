import EntityFlow.Check.Entity
import EntityFlow.Check.Query

/-! # Authoring analysis -/

namespace EntityFlow

/-- What is wrong with a graph as it was authored: aspects first, then queries, then entities. -/
def Graph.check (g : Graph) : List Diagnostic := Check.aspect g ++ Check.query g ++ Check.entity g

end EntityFlow
