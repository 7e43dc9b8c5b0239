import EntityFlow.Proofs.Methods
import EntityFlow.Proofs.Unit.Members

/-!
# Lifecycle methods

An unmanaged system has one method for each of creation, update and destruction, whatever its events
are.  The code of an event stands at the end of the method of that event, node after node.  For
starting and stopping there is one interface but a method only for the events that the graph has:
with one of the two the interface is listed and half of it is missing.
-/

namespace EntityFlow

/-! ## Methods of events -/

namespace Graph

variable {g : Graph} {n : NodeId} {e : Lifecycle}

theorem mem_nodesWhere_event :
    n ∈ g.nodesWhere (fun k => k = .event e) ↔ g.kind? n = some (.event e) := by
  rw [nodesWhere, List.mem_filter, mem_nodeIds]
  constructor
  · rintro ⟨-, hn⟩
    obtain ⟨k, hk, heq⟩ := (Option.any_eq_true _ _).1 hn
    rwa [of_decide_eq_true heq] at hk
  · intro hk
    obtain ⟨node, hn, -⟩ := Option.map_eq_some_iff.1 hk
    exact ⟨⟨node, hn⟩, (Option.any_eq_true _ _).2 ⟨_, hk, decide_eq_true rfl⟩⟩

/-- Nodes of an event are listed in order. -/
theorem pairwise_nodesWhere_event (g : Graph) (e : Lifecycle) :
    (g.nodesWhere fun k => k = .event e).Pairwise fun n n' => n.index < n'.index := by
  rw [← filter_entry_event]
  exact (Planning.pairwise_nodesWith g .entry).filter _

/-- Unless errors are to be denied, all that is assembled is a unit. -/
theorem exists_compile {a : Assembly} (ha : g.assemble {} = .ok a) : ∃ u, g.compile {} = .ok u := by
  rw [compile_eq, ha]
  exact ⟨_, rfl⟩

end Graph

namespace Assembly

open Declaration (Method Part)

variable {g : Graph} {o : Options} {a : Assembly} {e : Lifecycle}

/-- The nodes of the event, ascending, end the method with the code generated from them.  Before it
stands what such a method begins with. -/
def Appends (a : Assembly) (m : Method) (e : Lifecycle) : Prop :=
  ∃ first ns bodies, first.Perm ((a.openingParts e).filter fun part => !part.code.isEmpty) ∧
    (∀ n, n ∈ ns ↔ a.graph.kind? n = some (.event e)) ∧
    ns.Pairwise (fun n n' => n.index < n'.index) ∧
    List.Forall₂ (Site.Generates ⟨a.graph, a.plan, .unit⟩ a.ledger) ns bodies ∧
    m.ordered = first ++ (bodies.map a.bodyPart).filter fun part => !part.code.isEmpty

def methodCount (a : Assembly) (e : Lifecycle) : Nat :=
  (a.declaration.methods.map Method.name).count e.methodName

/-- What the methods of an unmanaged system are. -/
structure ImplementsLifecycle (a : Assembly) : Prop where
  always : ∀ e : Lifecycle, e.isStartStop = false → a.methodCount e = 1
  /-- Starting and stopping have a method exactly if they have a node. -/
  running : ∀ e : Lifecycle, e.isStartStop = true →
    a.methodCount e = 1 ∧ (∃ n, a.graph.kind? n = some (.event e)) ∨
    a.methodCount e = 0 ∧ ∀ n, a.graph.kind? n ≠ some (.event e)
  code : ∀ e : Lifecycle, ∀ m ∈ a.declaration.methods, m.name = e.methodName → a.Appends m e
  /-- No other method has code from an event. -/
  functions : ∀ m ∈ a.declaration.methods, (∀ e : Lifecycle, m.name ≠ e.methodName) →
    ∃ ns, a.Filled m (.function m.name) (a.declarationParts m.name) ns ∧
      ∀ n ∈ ns, ∃ f, a.graph.kind? n = some (.functionEntry f)
  interface : "ISystemStartStop" ∈ a.declaration.bases ↔
    ∃ n, ∃ e : Lifecycle, a.graph.kind? n = some (.event e) ∧ e.isStartStop = true

theorem priority_declarationParts {m : String} {x : Part} (hx : x ∈ a.declarationParts m) :
    x.priority = -1000 ∨ x.priority = -999 := by
  obtain ⟨h, -, rfl⟩ := List.mem_map.1 hx
  exact a.priority_handlePart h

theorem priority_timeParts {x : Part} (hx : x ∈ a.plan.timeParts) : x.priority = -900 :=
  of_decide_eq_true (List.mem_filter.1 hx).2

/-- What a method begins with comes before the code of nodes. -/
theorem priority_openingParts {x : Part} (hx : x ∈ a.openingParts e) : x.priority < 0 := by
  cases e with
  | create =>
    have hcreate := priority_createParts hx
    omega
  | update =>
    rcases List.mem_append.1 hx with hhandle | htime
    · have hpriority := priority_declarationParts hhandle
      omega
    · rw [priority_timeParts htime]
      decide
  | destroy | startRunning | stopRunning => exact absurd hx List.not_mem_nil

/-- Creation, update and destruction are always there; starting and stopping if there is an
event. -/
theorem mem_lifecycle :
    e ∈ a.lifecycle ↔ e.isStartStop = false ∨ ∃ n, a.graph.kind? n = some (.event e) := by
  have hall : e ∈ Lifecycle.all := by cases e <;> decide
  rw [lifecycle, List.mem_filter, and_iff_right hall, Bool.or_eq_true, Bool.not_eq_true',
    Bool.not_eq_true', List.isEmpty_eq_false_iff_exists_mem]
  simp only [Graph.mem_nodesWhere_event]

/-- The interface for starting and stopping is listed if there is either event. -/
theorem mem_bases_startStop (hflavor : a.flavor = .unmanagedSystem) :
    "ISystemStartStop" ∈ a.declaration.bases ↔
      ∃ n, ∃ e : Lifecycle, a.graph.kind? n = some (.event e) ∧ e.isStartStop = true := by
  have hbases : "ISystemStartStop" ∈ a.declaration.bases ↔
      a.lifecycle.any Lifecycle.isStartStop = true := by
    change "ISystemStartStop" ∈ a.bases ↔ _
    rw [bases, hflavor]
    cases a.lifecycle.any Lifecycle.isStartStop <;> decide
  rw [hbases, List.any_eq_true]
  constructor
  · rintro ⟨e, he, hrunning⟩
    rcases mem_lifecycle.1 he with halways | ⟨n, hn⟩
    · exact absurd (halways.symm.trans hrunning) (by decide)
    · exact ⟨n, e, hn, hrunning⟩
  · rintro ⟨n, e, hn, hrunning⟩
    exact ⟨e, mem_lifecycle.2 (.inr ⟨n, hn⟩), hrunning⟩

section Methods

variable (hp : Plan.make a.graph = .ok a.plan)

include hp

/-- No function has the method name of an event. -/
theorem name_ne_methodName {m : Method} (hm : m ∈ a.functionMethods) (e : Lifecycle) :
    m.name ≠ e.methodName := by
  rw [functionMethods_eq] at hm
  obtain ⟨x, -, rfl⟩ := List.mem_map.1 hm
  rw [name_functionMethod]
  intro hname
  exact symbol_not_mem_ownNames (Planning.sound_make hp) _ (hname ▸ e.methodName_mem_ownNames)

/-- A method with the name of an event is the method of that event. -/
theorem eq_lifecycleMethod {m : Method} (hm : m ∈ a.declaration.methods)
    (hname : m.name = e.methodName) : m = a.lifecycleMethod e ∧ e ∈ a.events := by
  rcases List.mem_append.1 hm with hlifecycle | hfunction
  · rw [lifecycleMethods_eq] at hlifecycle
    obtain ⟨e', he', rfl⟩ := List.mem_map.1 hlifecycle
    rw [name_lifecycleMethod] at hname
    obtain rfl := Lifecycle.methodName_injective hname
    exact ⟨rfl, he'⟩
  · exact absurd hname (name_ne_methodName hp hfunction e)

/-- There is one method for each event of the unit, and none for the others. -/
theorem methodCount_eq (hg : a.graph.Reachable) (e : Lifecycle) :
    a.methodCount e = if e ∈ a.events then 1 else 0 := by
  have hnodup : (a.declaration.methods.map Method.name).Nodup := by
    have hnames := (List.nodup_cons.1 (nodup_names hg hp)).2
    rw [Assembly.names, List.append_assoc] at hnames
    exact (List.nodup_append'.1 hnames).1
  have hmem : e.methodName ∈ a.declaration.methods.map Method.name ↔ e ∈ a.events := by
    constructor
    · intro hname
      obtain ⟨m, hm, hname⟩ := List.mem_map.1 hname
      exact (eq_lifecycleMethod hp hm hname).2
    · intro he
      refine List.mem_map.2 ⟨a.lifecycleMethod e, List.mem_append_left _ ?_, name_lifecycleMethod e⟩
      rw [lifecycleMethods_eq]
      exact List.mem_map_of_mem he
  rw [methodCount, hnodup.count]
  simp only [hmem]

variable (hl : a.ledger.Settled a.graph a.plan)
  (hstarts : List.Forall₂ (Draft.Starts a.graph a.plan a.ledger) (a.graph.nodesWith .entry)
  a.draft.bodies)

include hl hstarts

/-- The code of an event stands at the end of its method. -/
theorem appends_lifecycleMethod (e : Lifecycle) : a.Appends (a.lifecycleMethod e) e := by
  obtain ⟨opening, bodies, hopening, hbodies, hparts⟩ := filled_lifecycleMethod hp hl hstarts e
  rw [List.filter_append] at hparts
  have hzero : ∀ x ∈ (bodies.map a.bodyPart).filter fun part => !part.code.isEmpty,
      x.priority = 0 := by
    intro x hx
    obtain ⟨body, -, rfl⟩ := List.mem_map.1 (List.mem_filter.1 hx).1
    rfl
  obtain ⟨first, hfirst, hordered⟩ := Declaration.exists_ordered_eq_append hparts
    (fun x hx y hy => hzero y hy ▸
      priority_openingParts (hopening.mem_iff.1 (List.mem_filter.1 hx).1))
    (Declaration.pairwise_of_priority_eq hzero)
  exact ⟨first, _, bodies, hfirst.trans (hopening.filter _), fun n => Graph.mem_nodesWhere_event,
    Graph.pairwise_nodesWhere_event _ _, hbodies, hordered⟩

/-- The method of a function has code from the entry of a function only. -/
theorem filled_of_mem_functionMethods (hg : a.graph.Reachable) {m : Method}
    (hm : m ∈ a.functionMethods) :
    ∃ ns, a.Filled m (.function m.name) (a.declarationParts m.name) ns ∧
      ∀ n ∈ ns, ∃ f, a.graph.kind? n = some (.functionEntry f) := by
  rw [functionMethods_eq] at hm
  obtain ⟨x, hx, rfl⟩ := List.mem_map.1 hm
  obtain ⟨member, hmember, hfunction⟩ := Graph.mem_declared.1 hx
  rw [Member.asFunction_eq_some.1 hfunction] at hmember
  rw [name_functionMethod]
  refine ⟨_, filled_functionMethod hp hl hstarts hg hmember (get?_symbol hg hp hmember),
    fun n hn => ?_⟩
  exact ⟨x.1, (hg.invariant.entries x.1 x.2 n hmember).1 (Option.mem_toList.1 hn)⟩

end Methods

/-- Of every unmanaged system that is assembled: which methods it has, and where the code of each
event stands. -/
theorem implementsLifecycle (hg : g.Reachable) (hflavor : g.settings.flavor = .unmanagedSystem)
    (ha : g.assemble o = .ok a) : a.ImplementsLifecycle := by
  have hstarts := Graph.starts_draft hg ha
  have hl := Graph.settled_ledger ha
  obtain ⟨rfl, hp, -⟩ := Graph.assemble_eq_ok ha
  have hevents : a.events = a.lifecycle := by
    rw [events, flavor, settings, hflavor]
    rfl
  have hcount := methodCount_eq hp hg
  rw [hevents] at hcount
  constructor
  case always => exact fun e he => (hcount e).trans (if_pos (mem_lifecycle.2 (.inl he)))
  case running =>
    intro e he
    by_cases hn : ∃ n, a.graph.kind? n = some (.event e)
    · exact .inl ⟨(hcount e).trans (if_pos (mem_lifecycle.2 (.inr hn))), hn⟩
    · refine .inr ⟨(hcount e).trans (if_neg fun hmem => ?_), not_exists.1 hn⟩
      rcases mem_lifecycle.1 hmem with halways | hsome
      · exact absurd (halways.symm.trans he) (by decide)
      · exact hn hsome
  case code =>
    intro e m hm hname
    rw [(eq_lifecycleMethod hp hm hname).1]
    exact appends_lifecycleMethod hp hl hstarts e
  case functions =>
    intro m hm hother
    rcases List.mem_append.1 hm with hlifecycle | hfunction
    · rw [lifecycleMethods_eq] at hlifecycle
      obtain ⟨e, -, rfl⟩ := List.mem_map.1 hlifecycle
      exact absurd (name_lifecycleMethod e) (hother e)
    · exact filled_of_mem_functionMethods hp hl hstarts hg hfunction
  case interface => exact mem_bases_startStop hflavor

/-- Whatever events an unmanaged system has, its unit has the methods they need, and their code. -/
theorem compile_implementsLifecycle {u : CompiledUnit} (hg : g.Reachable)
    (hflavor : g.settings.flavor = .unmanagedSystem) (h : g.compile o = .ok u) :
    ∃ a, g.assemble o = .ok a ∧ a.graph = g ∧ u.source = a.source ∧ a.ImplementsLifecycle := by
  obtain ⟨a, ha, hsource, -⟩ := Graph.compile_eq_ok h
  exact ⟨a, ha, (Graph.assemble_eq_ok ha).1, hsource, implementsLifecycle hg hflavor ha⟩

namespace Running

/-- Two updates and a stop, each with a statement of its own. -/
def stopping : Graph := Graph.build {} [
  .addNode "Update" (.event .update) ContainerTree.root,
  .addNode "Stop" (.event .stopRunning) ContainerTree.root,
  .addNode "Again" (.event .update) ContainerTree.root,
  .addNode "First" (.localVar "first" .float) ContainerTree.root,
  .addNode "Last" (.localVar "last" .float) ContainerTree.root,
  .addNode "Second" (.localVar "second" .float) ContainerTree.root,
  .connect ⟨2⟩ "exit" ⟨5⟩ "enter", .connect ⟨1⟩ "exit" ⟨4⟩ "enter", .connect ⟨0⟩ "exit" ⟨3⟩ "enter"]

def starting : Graph := Graph.build {} [.addNode "Start" (.event .startRunning) ContainerTree.root]

/-- Stopping is implemented and starting is not, but the interface for both is listed. -/
theorem compile_implementsLifecycle_stopping : ∃ u a, stopping.settings.flavor = .unmanagedSystem ∧
    stopping.compile {} = .ok u ∧ stopping.assemble {} = .ok a ∧ u.source = a.source ∧
    a.declaration.methods.map Method.name = ["OnCreate", "OnUpdate", "OnDestroy", "OnStopRunning"] ∧
    (a.lifecycleMethod .update).parts.map Part.code =
      ["float first = default;", "float second = default;"] ∧
    a.ImplementsLifecycle := by
  obtain ⟨a, ha, hcheck⟩ := exists_ok_of_any (x := stopping.assemble {})
    (c := fun a => a.declaration.methods.map Method.name =
        ["OnCreate", "OnUpdate", "OnDestroy", "OnStopRunning"] ∧
      (a.lifecycleMethod .update).parts.map Part.code =
        ["float first = default;", "float second = default;"])
    (by decide +kernel)
  obtain ⟨hnames, hparts⟩ := of_decide_eq_true hcheck
  obtain ⟨u, hu⟩ := Graph.exists_compile ha
  have hflavor : stopping.settings.flavor = .unmanagedSystem := by cbv
  obtain ⟨a', ha', -, hsource, himplements⟩ :=
    compile_implementsLifecycle (Graph.reachable_build _ _) hflavor hu
  obtain rfl := Except.ok.inj (ha.symm.trans ha')
  exact ⟨u, a, hflavor, hu, ha, hsource, hnames, hparts, himplements⟩

/-- The unit is listed as one that can be started and stopped, and nothing in it is called when it
stops. -/
theorem starting_without_stop : ∃ u a, starting.compile {} = .ok u ∧ starting.assemble {} = .ok a ∧
    u.source = a.source ∧ starting.kind? ⟨0⟩ = some (.event .startRunning) ∧
    "ISystemStartStop" ∈ a.declaration.bases ∧
    ∀ m ∈ a.declaration.methods, m.name ≠ Lifecycle.stopRunning.methodName := by
  obtain ⟨a, ha, hcheck⟩ := exists_ok_of_any (x := starting.assemble {})
    (c := fun a => "ISystemStartStop" ∈ a.declaration.bases ∧
      ∀ m ∈ a.declaration.methods, m.name ≠ Lifecycle.stopRunning.methodName) (by decide +kernel)
  obtain ⟨hbases, hmethods⟩ := of_decide_eq_true hcheck
  obtain ⟨u, hu⟩ := Graph.exists_compile ha
  obtain ⟨a', ha', hsource, -⟩ := Graph.compile_eq_ok hu
  obtain rfl := Except.ok.inj (ha.symm.trans ha')
  exact ⟨u, a, hu, ha, hsource, by cbv, hbases, hmethods⟩

end Running

end Assembly

end EntityFlow
