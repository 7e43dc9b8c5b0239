import EntityFlow.Proofs.Generation.Drafts
import EntityFlow.Proofs.Graph.Reorder

/-!
# Compiling does not depend on the order of connections

Planning and generation ask a graph for its nodes and connections through few questions, and
rewiring leaves the answers as they are.  So each function of the compiler gives the same result
after rewiring, from the innermost outwards: once the functions it calls are rewritten, the two
sides compute to the same term.

`Agrees` lists what is asked of a graph.  Two graphs with the same nodes and connections agree if
both are `Listed`.  A graph is when it is built and when it is read, but not always when a node is
added afterwards at an index that was vacant.
-/

namespace EntityFlow

namespace Graph.Rewired

variable {g : Graph} {nodes : Slots Node} {edges : Slots Edge} {threads : Option Threads}
  (h : g.Rewired nodes edges threads)

include h

/-! ## Plans -/

section Planning

open Planning

theorem claim : Planning.claim (g.rewire nodes edges threads) = Planning.claim g := by
  funext n
  unfold Planning.claim claimBody
  rw [h.node, h.portRef, h.analyze?]

theorem nameTime : Planning.nameTime (g.rewire nodes edges threads) = Planning.nameTime g := by
  funext n port expression
  unfold Planning.nameTime
  rw [h.portRef, h.isConnected]
  rfl

theorem nameEntry : Planning.nameEntry (g.rewire nodes edges threads) = Planning.nameEntry g := by
  funext n function
  unfold Planning.nameEntry
  rw [h.portRef]
  rfl

theorem nameForeach :
    Planning.nameForeach (g.rewire nodes edges threads) = Planning.nameForeach g := by
  funext n node spec
  unfold Planning.nameForeach nameItem
  rw [h.portRef]

theorem nameExecutor :
    Planning.nameExecutor (g.rewire nodes edges threads) = Planning.nameExecutor g := by
  funext n runWith job
  unfold Planning.nameExecutor
  rw [h.portRef, h.isConnected]

theorem nameEvent (ask : Handle → Planning String) :
    Planning.nameEvent ask (g.rewire nodes edges threads) = Planning.nameEvent ask g := by
  funext n e
  unfold Planning.nameEvent
  rw [h.portRef, h.nameTime, h.isConnected]

theorem nameEntityNode (ask : Handle → Planning String) :
    Planning.nameEntityNode ask (g.rewire nodes edges threads) = Planning.nameEntityNode ask g := by
  funext n handle
  unfold Planning.nameEntityNode
  rw [h.enclosingFunction?]

theorem nameNode (ask : Handle → Planning String) :
    Planning.nameNode ask (g.rewire nodes edges threads) = Planning.nameNode ask g := by
  funext n
  unfold Planning.nameNode
  rw [h.node, h.nameEvent, h.nameEntry, h.portRef, h.nameForeach, h.nameExecutor, h.nameEntityNode]

theorem portParam? :
    Planning.portParam? (g.rewire nodes edges threads) = Planning.portParam? g := by
  funext t n port type mode attributes
  unfold Planning.portParam?
  rw [h.portRef?]

theorem bareJob : Planning.bareJob (g.rewire nodes edges threads) = Planning.bareJob g := by
  funext t b
  unfold Planning.bareJob entityParams itemParam? indexParams chunkParams
  rw [h.kind?, h.portParam?, h.jobDiscipline]

theorem addVariable :
    Planning.addVariable (g.rewire nodes edges threads) = Planning.addVariable g := by
  funext j i v
  unfold Planning.addVariable
  rw [h.portRef?]

theorem addCrossing :
    Planning.addCrossing (g.rewire nodes edges threads) = Planning.addCrossing g := by
  funext j source inputs
  unfold Planning.addCrossing isUncapturable captureName captureHint
  rw [h.port?, h.kind?, h.node?, h.inferType]

theorem reportUnavailable :
    Planning.reportUnavailable (g.rewire nodes edges threads) = Planning.reportUnavailable g := by
  funext input source
  unfold Planning.reportUnavailable
  rw [h.portLabel]

theorem generatedNodes :
    Planning.generatedNodes (g.rewire nodes edges threads) = Planning.generatedNodes g := by
  funext b
  unfold Planning.generatedNodes
  rw [h.slotIds, h.functionNodes]

theorem inspect : Planning.inspect (g.rewire nodes edges threads) = Planning.inspect g := by
  funext b j n
  unfold Planning.inspect capturedTarget?
  rw [h.kind?, h.portRef?, h.sourceOf?, h.target?]

theorem addCommandBuffer (ask : Handle → Planning String) :
    Planning.addCommandBuffer ask (g.rewire nodes edges threads) =
      Planning.addCommandBuffer ask g := by
  funext j
  unfold Planning.addCommandBuffer
  rw [h.portRef?]

theorem equip (ask : Handle → Planning String) :
    Planning.equip ask (g.rewire nodes edges threads) = Planning.equip ask g := by
  funext b bare
  unfold Planning.equip
  rw [h.kind?, h.addVariable, h.addCrossing, h.reportUnavailable, h.generatedNodes, h.inspect,
    h.addCommandBuffer]
  rfl

theorem describe (ask : Handle → Planning String) :
    Planning.describe ask (g.rewire nodes edges threads) = Planning.describe ask g := by
  funext b
  unfold Planning.describe
  rw [h.bareJob, h.equip]

/-- Planning does not depend on the order of connections. -/
theorem make : Plan.make (g.rewire nodes edges threads) = Plan.make g := by
  unfold Plan.make planAll planWith
  rw [h.nodesWith, h.claim, h.nameNode, h.describe]
  rfl

end Planning

/-! ## Code -/

section Site

variable (p : Plan) (scope : Scope)

theorem inputWith :
    Site.inputWith ⟨g.rewire nodes edges threads, p, scope⟩ = Site.inputWith ⟨g, p, scope⟩ := by
  funext resolve access input
  unfold Site.inputWith
  rw [h.portLabel, h.sourceOf?]
  rfl

theorem readWith :
    Site.readWith ⟨g.rewire nodes edges threads, p, scope⟩ = Site.readWith ⟨g, p, scope⟩ := by
  funext resolve n port
  unfold Site.readWith
  rw [h.portRef, h.inputWith]

theorem memberWith :
    Site.memberWith ⟨g.rewire nodes edges threads, p, scope⟩ = Site.memberWith ⟨g, p, scope⟩ := by
  funext resolve n target access
  unfold Site.memberWith Site.receiverWith Site.argumentsWith
  rw [h.portRef, h.readWith, h.inputWith]
  rfl

theorem computeWith :
    Site.computeWith ⟨g.rewire nodes edges threads, p, scope⟩ = Site.computeWith ⟨g, p, scope⟩ := by
  funext resolve access output
  unfold Site.computeWith Site.componentWith
  rw [h.node, h.readWith, h.memberWith, h.portLabel]
  rfl

theorem valueWithin (fuel : Nat) :
    Site.valueWithin ⟨g.rewire nodes edges threads, p, scope⟩ fuel =
    Site.valueWithin ⟨g, p, scope⟩ fuel := by
  induction fuel with
  | zero => rfl
  | succ fuel ih =>
    funext access output
    unfold Site.valueWithin
    rw [ih, h.computeWith]

/-- The code of a value does not depend on the order of connections. -/
theorem value : Site.value ⟨g.rewire nodes edges threads, p, scope⟩ = Site.value ⟨g, p, scope⟩ := by
  funext access output
  unfold Site.value
  rw [h.bound, h.valueWithin]

theorem read : Site.read ⟨g.rewire nodes edges threads, p, scope⟩ = Site.read ⟨g, p, scope⟩ := by
  funext n port
  unfold Site.read
  rw [h.value, h.readWith]

theorem readOptional :
    Site.readOptional ⟨g.rewire nodes edges threads, p, scope⟩ =
      Site.readOptional ⟨g, p, scope⟩ := by
  funext n port
  unfold Site.readOptional
  rw [h.portRef?, h.sourceOf?, h.inputWith, h.value]
  rfl

theorem constructionFields :
    Site.constructionFields ⟨g.rewire nodes edges threads, p, scope⟩ =
      Site.constructionFields ⟨g, p, scope⟩ := by
  funext j executor
  unfold Site.constructionFields Site.fieldValue
  rw [h.node, h.value, h.readOptional]

theorem followWith :
    Site.followWith ⟨g.rewire nodes edges threads, p, scope⟩ = Site.followWith ⟨g, p, scope⟩ := by
  funext next n port
  unfold Site.followWith
  rw [h.portRef]

theorem scheduleLoop :
    Site.scheduleLoop ⟨g.rewire nodes edges threads, p, scope⟩ =
      Site.scheduleLoop ⟨g, p, scope⟩ := by
  funext n spec
  unfold Site.scheduleLoop
  rw [h.constructionFields]
  rfl

theorem execute :
    Site.execute ⟨g.rewire nodes edges threads, p, scope⟩ = Site.execute ⟨g, p, scope⟩ := by
  funext n runWith j
  unfold Site.execute
  rw [h.readOptional, h.constructionFields, h.portRef]
  rfl

theorem inlineLoop :
    Site.inlineLoop ⟨g.rewire nodes edges threads, p, scope⟩ = Site.inlineLoop ⟨g, p, scope⟩ := by
  funext next n spec
  unfold Site.inlineLoop Site.loopName?
  rw [h.read, h.portRef, h.followWith]

theorem statementsWith :
    Site.statementsWith ⟨g.rewire nodes edges threads, p, scope⟩ =
      Site.statementsWith ⟨g, p, scope⟩ := by
  funext next n
  unfold Site.statementsWith Site.thenExit Site.target Site.localStatement Site.createStatement
    Site.destroyStatement Site.setComponentStatement Site.setEnabledStatement
  rw [h.node, h.readOptional, h.portRef, h.inputWith, h.value, h.read, h.followWith, h.memberWith,
    h.scheduleLoop, h.inlineLoop, h.execute]
  rfl

theorem nodeFlowWithin (fuel : Nat) :
    Site.nodeFlowWithin ⟨g.rewire nodes edges threads, p, scope⟩ fuel =
      Site.nodeFlowWithin ⟨g, p, scope⟩ fuel := by
  induction fuel with
  | zero => rfl
  | succ fuel ih =>
    funext path n
    unfold Site.nodeFlowWithin
    rw [ih, h.targetsOf, h.statementsWith]

/-- The code behind a flow output does not depend on the order of connections. -/
theorem flow : Site.flow ⟨g.rewire nodes edges threads, p, scope⟩ = Site.flow ⟨g, p, scope⟩ := by
  funext output
  unfold Site.flow Site.nodeFlow
  rw [h.targetsOf, h.bound, h.nodeFlowWithin]

theorem follow :
    Site.follow ⟨g.rewire nodes edges threads, p, scope⟩ = Site.follow ⟨g, p, scope⟩ := by
  funext n port
  unfold Site.follow
  rw [h.followWith, h.flow]

end Site

/-! ## Units -/

/-- Drafting does not depend on the order of connections. -/
theorem generate (p : Plan) :
    Draft.generate (g.rewire nodes edges threads) p = Draft.generate g p := by
  have hentry : Draft.entryBody (g.rewire nodes edges threads) p = Draft.entryBody g p := by
    funext n
    unfold Draft.entryBody
    simp only [h.node, h.follow]
    rfl
  have hjob : Draft.jobBody? (g.rewire nodes edges threads) p = Draft.jobBody? g p := by
    funext j
    unfold Draft.jobBody? Draft.jobBody Draft.copiedBody
    simp only [h.follow, h.flow]
    rfl
  unfold Draft.generate
  rw [h.nodesWith, hentry, hjob]

/-- The assembly of a rewired graph differs in the graph alone. -/
theorem assemble (options : Options) : (g.rewire nodes edges threads).assemble options =
    (g.assemble options).map fun a => { a with graph := g.rewire nodes edges threads } := by
  unfold Graph.assemble
  rw [h.make]
  cases hp : Plan.make g with
  | error e => rfl
  | ok p =>
    simp only [h.generate]
    rcases hrun : (Draft.generate g p).run.run (.ofPlan p) with ⟨e | draft, ledger⟩
    · simp only [bind, Except.bind, hrun, Except.map]
    · simp only [bind, Except.bind, hrun, Except.map, pure, Except.pure]

/-- Of the graph itself, only the names of nodes and the events it has are rendered. -/
theorem source (a : Assembly) (ha : a.graph = g) :
    Assembly.source { a with graph := g.rewire nodes edges threads } = a.source := by
  subst ha
  unfold Assembly.source Assembly.declarationText Assembly.declaration Assembly.jobText
    Assembly.lifecycleMethods Assembly.bases Assembly.lifecycle
  simp only [h.node?, h.nodesWhere]
  rfl

/-- What a graph compiles to does not depend on the order of its connections. -/
theorem compile : (g.rewire nodes edges threads).compile = g.compile := by
  funext options
  unfold Graph.compile
  rw [h.check, h.assemble]
  dsimp only
  split
  · rfl
  · cases ha : g.assemble options with
    | error e => rfl
    | ok a =>
      obtain ⟨hgraph, -⟩ := assemble_eq_ok ha
      show Except.ok _ = Except.ok _
      rw [h.source a hgraph]
      rfl

end Graph.Rewired

/-! ## Graphs -/

namespace Graph

variable {g g' : Graph}

/-- Two graphs give the same answers, except for the identities of connections. -/
structure Agrees (g g' : Graph) : Prop where
  settings : g'.settings = g.settings
  containers : g'.containers = g.containers
  members : g'.members = g.members
  nodeCount : g'.nodeCount = g.nodeCount
  edgeCount : g'.edges.count = g.edges.count
  nodeIds : g'.nodeIds = g.nodeIds
  node : g'.node = g.node
  nodesIn : g'.nodesIn = g.nodesIn
  port? : g'.port? = g.port?
  portRef : g'.portRef = g.portRef
  sourceOf? : g'.sourceOf? = g.sourceOf?
  sourcesOf : g'.sourcesOf = g.sourcesOf
  targetsOf : g'.targetsOf = g.targetsOf
  isConnected : g'.isConnected = g.isConnected
  incoming : g'.incoming = g.incoming
  outgoing : g'.outgoing = g.outgoing
  executorsOf : g'.executorsOf = g.executorsOf
  jobDiscipline : g'.jobDiscipline = g.jobDiscipline
  capabilities : g'.capabilities = g.capabilities
  nodesWith : g'.nodesWith = g.nodesWith
  inferType : g'.inferType = g.inferType
  check : g'.check = g.check
  analyze? : Boundary.analyze? g' = Boundary.analyze? g
  compile : g'.compile = g.compile

/-- Graphs with the same connections in another order give the same answers. -/
theorem Reordered.agrees (h : g.Reordered g') (hg : g.Listed) (hg' : g'.Listed) : g.Agrees g' := by
  have hedges : g'.edges.count = g.edges.count := h.live.length_eq
  have hnodes : g'.nodes.count = g.nodes.count := Slots.count_eq_of_get? fun i => h.node ⟨i⟩
  obtain ⟨nodes, edges, threads, rfl, hrewired⟩ := h.exists_rewire hg hg'
  exact {
    settings := rfl
    containers := rfl
    members := rfl
    nodeCount := (hg'.count.trans hnodes).trans hg.count.symm
    edgeCount := hedges
    nodeIds := hrewired.nodeIds
    node := hrewired.node
    nodesIn := hrewired.nodesIn
    port? := hrewired.port?
    portRef := hrewired.portRef
    sourceOf? := hrewired.sourceOf?
    sourcesOf := hrewired.sourcesOf
    targetsOf := hrewired.targetsOf
    isConnected := hrewired.isConnected
    incoming := hrewired.incoming
    outgoing := hrewired.outgoing
    executorsOf := hrewired.executorsOf
    jobDiscipline := hrewired.jobDiscipline
    capabilities := hrewired.capabilities
    nodesWith := hrewired.nodesWith
    inferType := hrewired.inferType
    check := hrewired.check
    analyze? := hrewired.analyze?
    compile := hrewired.compile }

/-- Graphs that were built, that need no threads, or that are as they were read list their
connections.  If two graphs do, and have the same nodes and connections, then they agree in
everything. -/
theorem agrees_of_reordered :
    (∀ g : Graph, (g.Reachable ∨ g.threads = none ∨ ∃ j, ofJson? j = some g) → g.Listed) ∧
    ∀ g g' : Graph, g.Listed → g'.Listed → g.Reordered g' → g.Agrees g' := by
  constructor
  · rintro g (hg | hg | ⟨j, hj⟩)
    · exact listed_of_threads hg.invariant.threads
    · exact listed_of_threads hg
    · exact listed_of_ofJson? hj
  · exact fun g g' hg hg' h => h.agrees hg hg'

namespace Turned

def nodes : List BuildStep := [
  .addNode "Update" (.event .update) ContainerTree.root,
  .addNode "Create" .createEntity ContainerTree.root,
  .addNode "Destroy" .destroyEntity ContainerTree.root]

def forward : Graph := build {} <| nodes ++ [
  .connect ⟨0⟩ "exit" ⟨1⟩ "enter", .connect ⟨1⟩ "exit" ⟨2⟩ "enter",
  .connect ⟨1⟩ "entity" ⟨2⟩ "entity"]

/-- The same connections, made in another order and with one that was removed. -/
def backward : Graph := build {} <| nodes ++ [
  .connect ⟨1⟩ "entity" ⟨2⟩ "entity", .connect ⟨0⟩ "exit" ⟨2⟩ "enter", .disconnect ⟨1⟩,
  .connect ⟨1⟩ "exit" ⟨2⟩ "enter", .connect ⟨0⟩ "exit" ⟨1⟩ "enter"]

/-- The entry of an update at index 1, where index 0 and `k` more indices behind it are vacant. -/
def gap (k : Nat) : Slots Node := .ofCells (#[none, forward.node? ⟨0⟩] ++ Array.replicate k none)

/-- The graph that a text with these connections holds. -/
def read (k : Nat) (edges : List Edge) : Graph :=
  let edges := .ofCells (edges.map some).toArray
  ⟨gap k, edges, .empty, [], {}, threadsOf? (gap k) edges⟩

/-- The text with all vacant indices listed, also those behind the last node. -/
def text (k : Nat) (edges : List Edge) : Json :=
  let g := read k edges
  .obj [
    ("graph", .obj [
      ("nodes", .list Node.toJson g.nodes.toList),
      ("node_holes", .list .nat (0 :: List.range' 2 k)),
      ("edge_property", direction),
      ("edges", .list (.option Edge.toJson) g.edges.trimmed)]),
    ("containers", g.containers.toJson),
    ("members", .list Member.toJson g.members),
    ("settings", g.settings.toJson)]

def exit : Edge := ⟨⟨⟨1⟩, 0⟩, ⟨⟨0⟩, 0⟩, .flow⟩

def time : Edge := ⟨⟨⟨1⟩, 2⟩, ⟨⟨0⟩, 1⟩, .value⟩

theorem node?_read (edges edges' : List Edge) (n : NodeId) :
    (read 1 edges').node? n = (read 0 edges).node? n := by
  obtain ⟨i⟩ := n
  match i with
  | 0 | 1 | 2 => rfl
  | i + 3 => rfl

/-- Built graphs with different tables of connections agree, and so do graphs that were read with
connections at a vacant index, one of them with a vacant index behind the last node. -/
theorem agrees_of_reordered_both :
    (forward.Reachable ∧ backward.Reachable ∧ forward.edges ≠ backward.edges ∧
      forward.Agrees backward) ∧
    (read 0 [exit, time]).threads.isSome = true ∧
    (read 0 [exit, time]).nodes.size ≠ (read 1 [time, exit]).nodes.size ∧
    (read 0 [exit, time]).Agrees (read 1 [time, exit]) := by
  obtain ⟨hlisted, hagrees⟩ := agrees_of_reordered
  have hforward : forward.Reachable := reachable_build _ _
  have hbackward : backward.Reachable := reachable_build _ _
  have hnodes : backward.nodes = forward.nodes := by decide +kernel
  have hbuilt : forward.Reordered backward :=
    ⟨by decide +kernel, by decide +kernel, by decide +kernel, fun n => by rw [node?, node?, hnodes],
      by decide +kernel⟩
  have hread : ∀ k edges, ofJson? (text k edges) = some (read k edges) → (read k edges).Listed :=
    fun k edges h => hlisted _ (.inr (.inr ⟨_, h⟩))
  refine ⟨⟨hforward, hbackward, by decide +kernel, ?_⟩, by decide +kernel, by decide +kernel, ?_⟩
  · exact hagrees _ _ (hlisted _ (.inl hforward)) (hlisted _ (.inl hbackward)) hbuilt
  · refine hagrees _ _ (hread _ _ (by decide +kernel)) (hread _ _ (by decide +kernel)) ?_
    exact ⟨rfl, rfl, rfl, node?_read _ _, by decide +kernel⟩

def placed : Graph :=
  (read 0 [exit]).outcome ((read 0 [exit]).addNode "Create" .createEntity ContainerTree.root)

/-- The same nodes and connections, as they are read. -/
def whole : Graph := { placed with threads := threadsOf? placed.nodes placed.edges }

/-- A node that is put at the vacant index lacks the connections which were read there. -/
theorem incoming_placed_ne_whole :
    ofJson? (text 0 [exit]) = some (read 0 [exit]) ∧ ofJson? whole.toJson = some whole ∧
    placed.Reordered whole ∧ whole.nodes.size = placed.nodes.size ∧
    placed.incoming ⟨0⟩ = [] ∧ whole.incoming ⟨0⟩ = [(⟨⟨0⟩, 0⟩, ⟨⟨1⟩, 0⟩)] :=
  ⟨by decide +kernel, by decide +kernel, ⟨rfl, rfl, rfl, fun _ => rfl, .refl _⟩, rfl,
    by decide +kernel, by decide +kernel⟩

end Turned

end Graph

end EntityFlow
