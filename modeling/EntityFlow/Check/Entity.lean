import EntityFlow.Check.Aspect

/-! # Rules for entity operations, assignments and executors -/

namespace EntityFlow.Check

/-- An input that exists must be fed. -/
def requireInput (g : Graph) (n : NodeId) (name : String) : List Diagnostic :=
  match g.portRef? n name with
  | some input => require (g.sourceOf? input).isSome (.atNode n (.unassignedInput name))
  | none => []

def inStaticFunction (g : Graph) (n : NodeId) : Bool :=
  ((g.enclosingFunction? n).bind g.function?).any Function.isStatic

/-- Members of `SystemAPI` need a system, and an instance of it. -/
def systemApi (g : Graph) (n : NodeId) : List Diagnostic :=
  if !g.settings.flavor.isSystem then [.atNode n .systemApiOutsideSystem]
  else require (!inStaticFunction g n) (.atNode n .systemApiInStaticFunction)

/-- What an assignment writes to must be connected and writable. -/
def assignment (g : Graph) (n : NodeId) : List Diagnostic :=
  match g.portRef? n PortName.target with
  | none => []
  | some target =>
      match (g.sourceOf? target).bind g.port? with
      | some port => require port.isWritable (.atNode n (.writeToReadOnly port.name))
      | none => [.atNode n (.unassignedInput PortName.target)]

def entityNode (g : Graph) (n : NodeId) : NodeKind → List Diagnostic
  | .member (.external e) => if e.isOwnedBy "SystemAPI" then systemApi g n else []
  | .setComponent component =>
      (match component with
        | none => [.atNode n .unassignedComponent]
        | some type => require type.isValueType (.atNode n (.componentNotValueType type.name))) ++
      requireInput g n PortName.entity
  | .setComponentEnabled component | .getComponent component =>
      require component.isSome (.atNode n .unassignedComponent) ++ requireInput g n PortName.entity
  | .destroyEntity => requireInput g n PortName.entity
  | .executor _ none => [.atNode n .missingJobReference]
  | .setValue => assignment g n
  | _ => []

def entity (g : Graph) : List Diagnostic :=
  g.nodeIds.flatMap fun n => ((g.kind? n).map (entityNode g n)).getD []

end EntityFlow.Check
