import EntityFlow.Proofs.Generation.Grammar
import EntityFlow.Proofs.Generation.Reached
import EntityFlow.Proofs.Planning.Fields
import EntityFlow.Proofs.Planning.Redirects

/-!
# Entities in jobs

Describing a job predicts from the kinds of its nodes what their code will need, long before any
code is generated.  Generation then looks for the field that holds it, and would use a handle of the
unit if there were none.  The prediction is exact: a job holds the command buffer and the lookups
that its nodes use and no others, and the code of every one of these nodes goes through the field.
-/

namespace EntityFlow

theorem NodeKind.isSome_bufferMethod? (kind : NodeKind) :
    kind.bufferMethod?.isSome = Planning.usesCommandBuffer kind := by
  cases kind <;> rfl

namespace Site

open Generation

variable {s : Site} {n : NodeId} {node : Node} {f : CaptureField}

/-- The statement of a call on the command buffer: a new entity gets the name of its output. -/
def entityStatement (s : Site) (n : NodeId) (kind : NodeKind) (call : Expr) : Generation Stmt :=
  match kind with
  | .createEntity => do
      let output ← ofGraph (s.graph.portRef n PortName.entity)
      return .declare none (s.plan.nameOf (.port output) PortName.entity) call
  | _ => return .eval call

/-- What a node that writes to entities generates where the command buffer is `buffer`, whose calls
take the arguments `key` first. -/
def writeThrough (s : Site) (next : Follow) (n : NodeId) (kind : NodeKind) (method : BufferMethod)
    (buffer : Expr) (key : List Expr) : Generation (List Stmt) := do
  let args ← method.inputs.mapM (s.read n)
  let call := .invokeOn buffer method.name method.generics (key ++ args)
  s.thenExit next n [← s.entityStatement n kind call]

/-- In a job the command buffer is a field, and the sort key comes before all other arguments. -/
theorem bufferCall_of_field (hf : s.field? .commandBuffer = some f) (n : NodeId) (method : String)
    (generics : List String) (args : List Expr) : s.bufferCall n method generics args =
      pure (.invokeOn (.capture f.name) method generics
        (s.sortKey?.toList.map Expr.ident ++ args)) := by
  simp only [bufferCall, hf]

/-- A job with a command buffer writes through it. -/
theorem statementsWith_of_field {method : BufferMethod} (hn : s.graph.node? n = some node)
    (hmethod : node.kind.bufferMethod? = some method) (hf : s.field? .commandBuffer = some f)
    (next : Follow) : s.statementsWith next n = s.writeThrough next n node.kind method
      (.capture f.name) (s.sortKey?.toList.map Expr.ident) := by
  rw [statementsWith, Graph.node_eq_ok.2 hn]
  obtain ⟨title, kind, container, ports⟩ := node
  cases kind with
  | createEntity =>
    obtain rfl := Option.some.inj hmethod
    simp [ofGraph, createStatement, writeThrough, entityStatement, bufferCall_of_field hf]
  | destroyEntity =>
    obtain rfl := Option.some.inj hmethod
    simp [ofGraph, destroyStatement, writeThrough, entityStatement, bufferCall_of_field hf]
  | setComponent c =>
    obtain rfl := Option.some.inj hmethod
    simp [ofGraph, setComponentStatement, writeThrough, entityStatement, bufferCall_of_field hf]
  | setComponentEnabled c =>
    obtain rfl := Option.some.inj hmethod
    simp [ofGraph, setEnabledStatement, writeThrough, entityStatement, bufferCall_of_field hf]
  | _ => exact absurd hmethod nofun

/-- A job with a lookup reads components through it. -/
theorem computeWith_of_field {c : TypeRef} {output : PortRef}
    (hn : s.graph.node? output.node = some node) (hkind : node.kind = .getComponent (some c))
    (hf : s.field? (.lookup c.name) = some f) (resolve : Resolve) (access : Access) :
    s.computeWith resolve access output = (do
      let entity ← s.readWith resolve output.node PortName.entity
      return .index (.capture f.name) entity) := by
  have htype : TypeRef.nameOrObject (some c) = c.name := rfl
  rw [computeWith, Graph.node_eq_ok.2 hn]
  simp only [ofGraph, pure_bind, hkind, componentWith, htype, hf]

end Site

namespace Planning

open Site

variable {g : Graph} {p : Plan} {j : Job} {b : Boundary} {n : NodeId}

/-- The nodes looked at are those analyzed for the boundary. -/
theorem mem_generatedNodes {kind : NodeKind} (hn : g.kind? n = some kind) :
    n ∈ generatedNodes g b ↔ b.Covers g n := by
  have hslot : n ∈ g.slotIds := by
    obtain ⟨node, hnode, -⟩ := Option.map_eq_some_iff.1 hn
    exact Graph.mem_slotIds hnode
  simp only [generatedNodes, List.mem_filter, hslot, true_and, List.contains_eq_mem,
    decide_eq_true_eq, List.mem_append, Boundary.mem_functionNodes, Boundary.Covers]

/-- What the nodes of a boundary do to entities goes through fields of the job made for it. -/
structure EntitiesCaptured (g : Graph) (p : Plan) (b : Boundary) (j : Job) : Prop where
  /-- No two fields hold the same. -/
  distinct : j.owners.Nodup
  commandBuffer : .commandBuffer ∈ j.owners ↔ ∃ n, b.Covers g n ∧ WritesEntities g n
  lookup : ∀ type, .lookup type ∈ j.owners ↔ ∃ n, b.Covers g n ∧ ReadsComponent g n type
  /-- Code that writes to entities calls the field that holds the command buffer. -/
  writes : ∀ n node method, b.Covers g n → g.node? n = some node →
    node.kind.bufferMethod? = some method → ∃ f ∈ j.fields, f.owner = .commandBuffer ∧
      ∀ next, (inJob g p b).statementsWith next n =
        (inJob g p b).writeThrough next n node.kind method
        (.capture f.name) (j.sortKey.toList.map Expr.ident)
  /-- Code that reads a component looks the entity up in the field for the component's type. -/
  reads : ∀ node c output, b.Covers g output.node → g.node? output.node = some node →
    node.kind = .getComponent (some c) → ∃ f ∈ j.fields, f.owner = .lookup c.name ∧
      ∀ resolve access, (inJob g p b).computeWith resolve access output = (do
        let entity ← (inJob g p b).readWith resolve output.node PortName.entity
        return .index (.capture f.name) entity)

/-- Every job holds what the nodes of its boundary need for entities, and nothing of the kind
besides; and the code of these nodes uses it. -/
theorem job_entitiesCaptured (hp : Plan.make g = .ok p) (hj : j ∈ p.jobs) : ∃ b ∈ p.boundaries,
    Serves b j ∧ Boundary.analyze? g b.node b.body = some b ∧ EntitiesCaptured g p b j := by
  obtain ⟨b, hb, ⟨hserves, hequipped⟩, -, ha⟩ := exists_equipped hp hj
  have hjob : (inJob g p b).job? = some j := by
    have hmem := job?_of_mem hp hj
    rwa [hserves.node] at hmem
  have hfield : ∀ f ∈ j.fields, (inJob g p b).field? f.owner = some f := by
    intro f hf
    rw [Site.field?, hjob]
    exact Job.field?_of_mem hequipped.nodup hf
  have hkey : (inJob g p b).sortKey? = j.sortKey := by
    rw [Site.sortKey?, hjob]
    rfl
  have hbuffer : .commandBuffer ∈ j.owners ↔ ∃ n, b.Covers g n ∧ WritesEntities g n := by
    rw [hequipped.commandBuffer]
    refine exists_congr fun n => and_congr_left ?_
    rintro ⟨kind, hn, -⟩
    exact mem_generatedNodes hn
  have hlookup : ∀ type, .lookup type ∈ j.owners ↔ ∃ n, b.Covers g n ∧ ReadsComponent g n type := by
    intro type
    rw [hequipped.lookup]
    refine exists_congr fun n => and_congr_left ?_
    rintro ⟨c, hn, -⟩
    exact mem_generatedNodes hn
  refine ⟨b, hb, hserves, ha, hequipped.nodup, hbuffer, hlookup, ?_, ?_⟩
  · intro n node method hcovers hn hmethod
    have hwrites : WritesEntities g n := by
      refine ⟨node.kind, by simp [Graph.kind?, hn], ?_⟩
      rw [← NodeKind.isSome_bufferMethod?, hmethod]
      rfl
    obtain ⟨f, hf, howner⟩ := Job.mem_owners.1 (hbuffer.2 ⟨n, hcovers, hwrites⟩)
    refine ⟨f, hf, howner, fun next => ?_⟩
    rw [← hkey]
    exact statementsWith_of_field hn hmethod (howner ▸ hfield f hf) next
  · intro node c output hcovers hn hkind
    have hreads : ReadsComponent g output.node c.name :=
      ⟨c, by simp [Graph.kind?, hn, hkind], rfl⟩
    obtain ⟨f, hf, howner⟩ := Job.mem_owners.1 ((hlookup c.name).2 ⟨output.node, hcovers, hreads⟩)
    refine ⟨f, hf, howner, fun resolve access => ?_⟩
    exact computeWith_of_field hn hkind (howner ▸ hfield f hf) resolve access

namespace Spawning

/-- The body of a parallel loop calls a function that creates an entity, and in whose container a
component is read. -/
def graph : Graph := Graph.build {} [
  .addFunction "Spawn" [] none false,
  .addNode "Each" (.foreach { items := [⟨"a", some (.component "A"), .readOnly⟩]
                              run := .scheduleParallel }) ContainerTree.root,
  .addNode "Call" (.member (.function ⟨0⟩)) ContainerTree.root,
  .addNode "Entry" (.functionEntry ⟨0⟩) ⟨1⟩,
  .addNode "Create" .createEntity ⟨1⟩,
  .addNode "Read" (.getComponent (some (.component "Health"))) ⟨1⟩,
  .connect ⟨0⟩ "body" ⟨1⟩ "enter", .connect ⟨2⟩ "exit" ⟨3⟩ "enter"]

/-- The job of the loop holds the command buffer and one lookup, both for the function it copies. -/
theorem job_entitiesCaptured_each : ∃ p, Plan.make graph = .ok p ∧ ∃ j ∈ p.jobs, ∃ b ∈ p.boundaries,
    Serves b j ∧ Boundary.analyze? graph b.node b.body = some b ∧ EntitiesCaptured graph p b j ∧
    j.owners = [.lookup "Health", .commandBuffer] := by
  obtain ⟨p, hp, hany⟩ := exists_ok_of_any (x := Plan.make graph)
    (c := fun p => p.jobs.any fun j => j.owners = [.lookup "Health", .commandBuffer])
    (by decide +kernel)
  obtain ⟨j, hj, howners⟩ := List.any_eq_true.1 hany
  obtain ⟨b, hb, hserves, ha, hcaptured⟩ := job_entitiesCaptured hp hj
  exact ⟨p, hp, j, hj, b, hb, hserves, ha, hcaptured, of_decide_eq_true howners⟩

end Spawning

end Planning

end EntityFlow
