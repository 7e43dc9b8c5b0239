import EntityFlow.Check.Aspect

/-! # Rules for queries -/

namespace EntityFlow.Check

/-- Problems of the items of a query; `seen` are the type names of the items before them. -/
def items (n : NodeId) (seen : List String) : List QueryItem → List Diagnostic
  | [] => []
  | item :: rest =>
      match item.type with
      | none => .atNode n (.unassignedQueryType item.name) :: items n seen rest
      | some type =>
          require (!item.access.requiresComponent || type.isComponent)
            (.atNode n (.notAComponent item.name type.name)) ++
          require (!seen.contains type.name) (.atNode n (.duplicateQueryComponent type.name)) ++
          items n (type.name :: seen) rest

def sharedFilter (n : NodeId) (filters : QueryFilters) : List Diagnostic :=
  require filters.withSharedComponent.isEmpty (.atNode n .sharedFilterNotSupported)

def queryNode (n : NodeId) : NodeKind → List Diagnostic
  | .foreach spec =>
      require (!spec.items.isEmpty) (.atNode n .emptyQuery) ++
      items n [] spec.items ++
      (if spec.run.isDeferred then sharedFilter n spec.filters else [])
  | .jobEntity spec =>
      require (!spec.items.isEmpty || spec.entityAccess) (.atNode n .emptyQuery) ++
      items n [] spec.items ++
      sharedFilter n spec.filters
  | _ => []

def query (g : Graph) : List Diagnostic :=
  g.nodeIds.flatMap fun n => ((g.kind? n).map (queryNode n)).getD []

end EntityFlow.Check
