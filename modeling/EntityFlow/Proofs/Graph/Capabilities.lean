import EntityFlow.Capability
import EntityFlow.Proofs.Graph.Layouts

/-!
# Ports and kinds classify nodes alike

A node is classified twice.  Its ports tell whether flow enters it and whether it only produces
values, and its kind tells which parts it plays in a compilation.  The ports were computed when the
node was added, but the kind is looked up among the members and nodes of the present.  Both agree on
every node of a reachable graph, and go on to agree whatever is built on it.
-/

namespace EntityFlow

namespace Port

@[simp] theorem isFlow_flowIn (name : String) : (flowIn name).isFlow = true := rfl

@[simp] theorem isFlow_flowOut (name : String) : (flowOut name).isFlow = true := rfl

@[simp] theorem isFlow_valueIn (name : String) (type : Option TypeRef) :
    (valueIn name type).isFlow = false := rfl

@[simp] theorem isFlow_valueOut (name : String) (type : Option TypeRef) (access : PortAccess) :
    (valueOut name type access).isFlow = false := rfl

@[simp] theorem isInput_flowIn (name : String) : (flowIn name).isInput = true := rfl

@[simp] theorem isInput_flowOut (name : String) : (flowOut name).isInput = false := rfl

end Port

namespace Layout

/-- Whether some port is a flow port, and whether flow can enter through one. -/
def inFlow (ports : List Port) : Bool × Bool :=
  (ports.any Port.isFlow, ports.any fun p => p.isFlow && p.isInput)

/-- A call takes part in the flow exactly if it returns nothing. -/
theorem inFlow_ofCall (params : List (String × TypeRef)) (returns : Option TypeRef) :
    inFlow (ofCall params returns) = (returns.isNone, returns.isNone) := by
  cases returns with
  | none => simp [inFlow, ofCall]
  | some type => simp [inFlow, ofCall]

/-- Value ports in front do not change whether a node is in flow. -/
theorem inFlow_append_values {front ports : List Port} (hfront : ∀ p ∈ front, p.isFlow = false) :
    inFlow (front ++ ports) = inFlow ports := by
  simp +contextual [inFlow, hfront]

/-- Flow leaves the node and does not enter it. -/
theorem inFlow_outputs (name : String) {ports : List Port} (hflow : .flowOut name ∈ ports)
    (hports : ∀ p ∈ ports, p.isInput = false) : inFlow ports = (true, false) := by
  refine Prod.ext (List.any_eq_true.2 ⟨_, hflow, rfl⟩) (List.any_eq_false.2 fun p hp => ?_)
  simp [hports p hp]

end Layout

/-! ## One table for both -/

namespace Graph

variable {g : Graph} {n : NodeId} {node : Node} {kind : NodeKind} {target : MemberTarget}
  {ports : List Port}

/-- A member is in flow exactly if it is a call without result. -/
theorem inFlow_ofTarget (hl : Layout.ofTarget g.members target = .ok ports) :
    Layout.inFlow ports = (g.isVoidCall target, g.isVoidCall target) := by
  cases target with
  | function id =>
    simp only [Layout.ofTarget, bind_eq_ok, pure_eq_ok] at hl
    obtain ⟨f, hf, rfl⟩ := hl
    obtain ⟨x, hx, hview⟩ := lookup_eq_ok hf
    have hfunction : g.function? id = some f := Option.bind_eq_some_iff.2 ⟨x, hx, hview⟩
    rw [Layout.inFlow_ofCall, isVoidCall, hfunction, Option.any_some]
  | property id =>
    simp only [Layout.ofTarget, bind_eq_ok, pure_eq_ok] at hl
    obtain ⟨x, -, rfl⟩ := hl
    rfl
  | «variable» id =>
    simp only [Layout.ofTarget, bind_eq_ok, pure_eq_ok] at hl
    obtain ⟨x, -, rfl⟩ := hl
    rfl
  | external e =>
    obtain ⟨owner, receiver, name, generics, use⟩ := e
    have hreceiver : ∀ p ∈ receiver.toList.map fun type => Port.valueIn PortName.self (some type),
        p.isFlow = false := by
      intro p hp
      obtain ⟨type, -, rfl⟩ := List.mem_map.1 hp
      rfl
    obtain rfl := Except.ok.inj hl
    cases use with
    | field type readOnly => exact Layout.inFlow_append_values hreceiver
    | property type readOnly => exact Layout.inFlow_append_values hreceiver
    | method params returns =>
      refine (Layout.inFlow_append_values hreceiver).trans ?_
      rw [Layout.inFlow_ofCall]
      cases returns <;> rfl

/-- A node is without flow ports exactly if it generates expressions, and flow enters it exactly if
it generates statements. -/
theorem LaidOut.inFlow_ports (h : g.LaidOut node) : Layout.inFlow node.ports =
    (!(g.kindCapabilities node.kind).contains .valueCode,
      (g.kindCapabilities node.kind).contains .flowCode) := by
  obtain ⟨title, kind, container, ports⟩ := node
  obtain ⟨job, -, hl⟩ := h
  cases kind with
  | functionEntry f =>
    simp only [NodeKind.layout, bind_eq_ok, pure_eq_ok] at hl
    obtain ⟨f', -, rfl⟩ := hl
    simp [Layout.inFlow, kindCapabilities]
  | member target =>
    rw [inFlow_ofTarget hl, kindCapabilities]
    cases g.isVoidCall target <;> rfl
  | event e =>
    obtain rfl := Except.ok.inj hl
    cases e <;> rfl
  | «foreach» spec =>
    obtain rfl := Except.ok.inj hl
    rw [kindCapabilities]
    cases spec.run.isDeferred <;> rfl
  | jobEntity spec =>
    obtain rfl := Except.ok.inj hl
    refine Layout.inFlow_outputs PortName.execute (by simp [Layout.ofJobEntity]) ?_
    intro p hp
    simp only [Layout.ofJobEntity, List.mem_append, List.mem_map, List.mem_ite_nil_right,
      List.mem_singleton] at hp
    rcases hp with ((((rfl | ⟨-, rfl⟩) | ⟨-, rfl⟩) | ⟨-, rfl⟩) | ⟨item, -, rfl⟩) |
      ⟨v, -, rfl⟩ <;> rfl
  | jobChunk spec =>
    obtain rfl := Except.ok.inj hl
    refine Layout.inFlow_outputs PortName.execute (by simp [Layout.ofJobChunk]) ?_
    intro p hp
    simp only [Layout.ofJobChunk, List.mem_append, List.mem_map, List.mem_cons, List.not_mem_nil,
      or_false] at hp
    rcases hp with (rfl | rfl | rfl | rfl | rfl) | ⟨v, -, rfl⟩ <;> rfl
  | executor runWith job =>
    obtain rfl := Except.ok.inj hl
    cases runWith <;> rfl
  | ret | literal _ | operator _ _ | setValue | localVar _ _ | branch | createEntity | destroyEntity
  | getComponent _ | setComponent _ | setComponentEnabled _ =>
    obtain rfl := Except.ok.inj hl
    rfl

/-- Methods start at events and at the entries of functions. -/
theorem entry_mem_kindCapabilities : .entry ∈ g.kindCapabilities kind ↔
    (∃ e, kind = .event e) ∨ ∃ f, kind = .functionEntry f := by
  cases kind with
  | member target => simp only [kindCapabilities]; split <;> simp
  | «foreach» spec => simp only [kindCapabilities]; split <;> simp
  | _ => simp [kindCapabilities]

/-- Bodies that become a type of their own are those of deferred loops and of jobs. -/
theorem boundary_mem_kindCapabilities : .boundary ∈ g.kindCapabilities kind ↔
    (∃ spec, kind = .foreach spec ∧ spec.run.isDeferred) ∨ (∃ spec, kind = .jobEntity spec) ∨
      ∃ spec, kind = .jobChunk spec := by
  cases kind with
  | member target => simp only [kindCapabilities]; split <;> simp
  | «foreach» spec => simp only [kindCapabilities]; split <;> simp [*]
  | _ => simp [kindCapabilities]

/-! ## Reachable graphs -/

/-- The kind that the job of an executor has now. -/
def jobKind? (g : Graph) : NodeKind → Option NodeKind
  | .executor _ (some job) => g.kind? job
  | _ => none

/-- The kind of the job of an executor, whether it must exist or may be missing. -/
theorem jobKind?_of_jobKind {job : Option NodeKind} (h : g.jobKind kind = .ok job) :
    g.jobKind? kind = job := by
  cases kind with
  | executor runWith job' =>
    cases job' with
    | none => exact pure_eq_ok.1 h
    | some n =>
      obtain ⟨node, hnode, hjob⟩ := bind_eq_ok.1 h
      split at hjob
      · rw [jobKind?, kind?_of_node (node_eq_ok.1 hnode)]
        exact pure_eq_ok.1 hjob
      · exact absurd hjob throw_ne_ok
  | _ => exact pure_eq_ok.1 h

/-- The ports of a node are those that its kind calls for now, and the parts that it plays are those
that its ports allow. -/
structure InStep (g : Graph) (n : NodeId) (node : Node) : Prop where
  layout : node.kind.layout g.members (g.jobKind? node.kind) = .ok node.ports
  flowCode : .flowCode ∈ g.capabilities n ↔ node.hasFlowInput
  valueCode : .valueCode ∈ g.capabilities n ↔ node.isPure
  entry : .entry ∈ g.capabilities n ↔ (∃ e, node.kind = .event e) ∨
    ∃ f, node.kind = .functionEntry f
  boundary : .boundary ∈ g.capabilities n ↔
    (∃ spec, node.kind = .foreach spec ∧ spec.run.isDeferred) ∨
      (∃ spec, node.kind = .jobEntity spec) ∨ ∃ spec, node.kind = .jobChunk spec

theorem capabilities_of_node (hn : g.node? n = some node) :
    g.capabilities n = g.kindCapabilities node.kind := by
  rw [capabilities, kind?_of_node hn, Option.map_some, Option.getD_some]

/-- The ports of a node that is laid out are in step with its kind. -/
theorem LaidOut.inStep (h : g.LaidOut node) (hn : g.node? n = some node) : g.InStep n node := by
  have hports := h.inFlow_ports
  rw [← capabilities_of_node hn] at hports
  have hflow : node.ports.any Port.isFlow = !(g.capabilities n).contains .valueCode :=
    congrArg Prod.fst hports
  have henter : node.hasFlowInput = (g.capabilities n).contains .flowCode :=
    congrArg Prod.snd hports
  refine ⟨?_, ?_, ?_, ?_, ?_⟩
  · obtain ⟨job, hjob, hl⟩ := h
    rw [jobKind?_of_jobKind hjob, hl]
  · rw [henter, List.contains_iff_mem]
  · rw [Node.isPure, hflow, Bool.not_not, List.contains_iff_mem]
  · rw [capabilities_of_node hn, entry_mem_kindCapabilities]
  · rw [capabilities_of_node hn, boundary_mem_kindCapabilities]

/-- One more call leads from a reachable graph to a reachable one. -/
theorem Reachable.step (hg : g.Reachable) (s : BuildStep) : (g.step s).Reachable := by
  obtain ⟨settings, steps, rfl⟩ := hg
  exact ⟨settings, steps ++ [s], by rw [build, List.foldl_append]; rfl⟩

/-- Whatever is built on a reachable graph, its nodes stay as they are, and their ports stay in step
with their kinds and with the parts that they play. -/
theorem Reachable.inStep_foldl (hg : g.Reachable) (hn : g.node? n = some node)
    (steps : List BuildStep) : (steps.foldl Graph.step g).node? n = some node ∧
      (steps.foldl Graph.step g).InStep n node := by
  induction steps generalizing g with
  | nil => exact ⟨hn, (hg.laidOut hn).inStep hn⟩
  | cons s rest ih => exact ih (hg.step s) ((hg.invariant.grows_step s).node n node hn)

/-- A job with a variable, its executor, and a call of a function that returns nothing. -/
def staffed : Graph := build {} [
  .addFunction "Spawn" [⟨"count", .int⟩] none false,
  .addNode "Move" (.jobEntity { items := [], vars := [⟨"speed", .float, false⟩] })
    ContainerTree.root,
  .addNode "Run" (.executor .schedule (some ⟨0⟩)) ContainerTree.root,
  .addNode "Call" (.member (.function ⟨0⟩)) ContainerTree.root]

/-- The function gets its entry, and there are one more variable and one more node. -/
def staffedSteps : List BuildStep := [
  .addNode "Spawn" (.functionEntry ⟨0⟩) ⟨1⟩,
  .addVariable { name := "total", type := .int },
  .addNode "Total" (.member (.variable ⟨1⟩)) ContainerTree.root]

/-- An executor and a call stay in step while a function gets its entry and members are added. -/
theorem inStep_foldl_staffed : ∃ run call,
    staffed.node? ⟨1⟩ = some run ∧ "speed" ∈ run.ports.map Port.name ∧
    staffed.node? ⟨2⟩ = some call ∧ call.hasFlowInput ∧
    (staffedSteps.foldl step staffed).members ≠ staffed.members ∧
    (staffedSteps.foldl step staffed).InStep ⟨1⟩ run ∧
    (staffedSteps.foldl step staffed).InStep ⟨2⟩ call := by
  obtain ⟨run, hrun, hspeed⟩ : ∃ run, staffed.node? ⟨1⟩ = some run ∧
    "speed" ∈ run.ports.map Port.name := ⟨_, rfl, by decide⟩
  obtain ⟨call, hcall, henter⟩ : ∃ call, staffed.node? ⟨2⟩ = some call ∧ call.hasFlowInput :=
    ⟨_, rfl, by decide⟩
  have hg : staffed.Reachable := reachable_build _ _
  exact ⟨run, call, hrun, hspeed, hcall, henter, by decide +kernel,
    (hg.inStep_foldl hrun staffedSteps).2, (hg.inStep_foldl hcall staffedSteps).2⟩

end Graph

end EntityFlow
