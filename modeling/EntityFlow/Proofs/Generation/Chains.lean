import EntityFlow.Proofs.Generation.Failures
import EntityFlow.Proofs.Generation.Fuel
import EntityFlow.Proofs.Generation.Successors
import EntityFlow.Proofs.Planning.Bindings

/-!
# Access follows chains of members

An assignment to a member of a member of an item writes through to the item.  The access is handed
on from receiver to receiver and decides at the end of the chain how the item is reached, and there
only: the members along the chain, and all that is given to methods, are the same whether the chain
is read or assigned to.

This holds of the items of a loop with up to 65536 ports.  A name leads to a port by a 16-bit word,
so in a larger loop a late item can take the place of an early one, to which an assignment then
does not write through.
-/

namespace EntityFlow

/-! ## What follows a receiver -/

/-- A step from an expression to one of its members. -/
inductive Selector where
  | access (name : String)
  | invoke (method : String) (generics : List String) (args : List Expr)

namespace Selector

def on (target : Expr) : Selector → Expr
  | .access name => .access target name
  | .invoke method generics args => .invokeOn target method generics args

def text : Selector → String
  | .access name => "." ++ name
  | .invoke method generics args => "." ++ Code.invoke none method generics (Expr.renderList args)

/-- The expression that is reached from `root` in these steps. -/
def chain (root : Expr) (steps : List Selector) : Expr := steps.foldl on root

def suffix : List Selector → String
  | [] => ""
  | step :: rest => step.text ++ suffix rest

/-- A step of a chain adds its text to that of its target. -/
theorem render_on (target : Expr) (step : Selector) :
    (step.on target).render = target.render ++ step.text := by
  cases step with
  | access name => rw [on, Expr.render, text, String.append_assoc]
  | invoke method generics args =>
    simp only [on, Expr.render, text, Code.invoke, String.append_assoc]

/-- A chain is written as its root followed by its steps. -/
theorem render_chain (root : Expr) (steps : List Selector) :
    (chain root steps).render = root.render ++ suffix steps := by
  induction steps generalizing root with
  | nil => simp [chain, suffix]
  | cons step rest ih =>
    rw [chain, List.foldl_cons, ← chain, ih, render_on, suffix, String.append_assoc]

end Selector

namespace Graph

variable {g : Graph} {n m : NodeId} {node : Node} {r o : PortRef} {x : External}
  {ms : List (NodeId × External)}

/-- Members of outside types, each of which has the one before it as its receiver: the receiver of
the first is `r`, and `o` is the output of the last. -/
inductive Chain (g : Graph) (r : PortRef) : List (NodeId × External) → PortRef → Prop
  | start : Chain g r [] r
  /-- The receiver is the first port of a member. -/
  | next {ms : List (NodeId × External)} {o : PortRef} {m : NodeId} {x : External} {port : UInt16}
      {out : Port} (h : Chain g r ms o) (hm : g.kind? m = some (.member (.external x)))
      (hx : x.receiver.isSome = true) (hfed : g.sourceOf? ⟨m, 0⟩ = some o)
      (hout : g.port? ⟨m, port⟩ = some out) (houtput : out.isOutput) (hvalue : out.isValue) :
      Chain g r (ms ++ [(m, x)]) ⟨m, port⟩

/-- The receiver of an outside member is its first port. -/
theorem Reachable.portRef_receiver (hg : g.Reachable)
    (hm : g.kind? m = some (.member (.external x)))
    (hx : x.receiver.isSome = true) : g.portRef m PortName.self = .ok ⟨m, 0⟩ := by
  obtain ⟨node, hnode, hkind⟩ := Option.map_eq_some_iff.1 hm
  obtain ⟨job, -, hl⟩ := hg.laidOut hnode
  rw [hkind] at hl
  obtain ⟨type, htype⟩ := Option.isSome_iff_exists.1 hx
  obtain ⟨rest, hports⟩ : ∃ rest, node.ports = .valueIn PortName.self (some type) :: rest := by
    rw [← Except.ok.inj hl, Layout.ofExternal, htype]
    split
    · exact ⟨_, rfl⟩
    · exact ⟨_, rfl⟩
    · exact ⟨_, rfl⟩
  refine portRef_eq_ok.2 ⟨node, 0, hnode, ?_, rfl⟩
  rw [hports, List.findIdx?_cons]
  rfl

/-- A member that gives out a value sits in no flow. -/
theorem Reachable.isPureProducer_member (hg : g.Reachable) {target : MemberTarget} {out : Port}
    (hm : g.kind? r.node = some (.member target)) (hout : g.port? r = some out)
    (houtput : out.isOutput) (hvalue : out.isValue) : g.IsPureProducer r.node := by
  obtain ⟨node, hnode, hkind⟩ := Option.map_eq_some_iff.1 hm
  refine ⟨node, hnode, Decidable.not_not.1 fun hflow => ?_⟩
  obtain ⟨job, -, hl⟩ := hg.laidOut hnode
  rw [hkind] at hl
  obtain ⟨inputs, hports, hinputs⟩ :=
    (Layout.single_ofTarget hl).exists_exit (Node.exists_flow_of_not_isPure hflow)
  rw [port?_of_node hnode, Node.port?, hports] at hout
  obtain ⟨-, rfl⟩ := Layout.Single.eq_of_isOutput hinputs hout houtput
  exact absurd hvalue (by simp [Port.isValue, Port.flowOut, Port.isFlow])

end Graph

namespace Site

open Generation Planning

variable {s : Site} {resolve : Resolve} {access : Access} {input output o r : PortRef} {m : NodeId}
  {x : External} {ms : List (NodeId × External)} {w : String} {E : CompileError → Prop}

/-- How a member of an outside type is reached from its receiver. -/
def selectorWith (s : Site) (resolve : Resolve) (m : NodeId) (x : External) : Generation Selector :=
  match x.use with
  | .field _ _ | .property _ _ => return .access x.name
  | .method params _ => do
      let args ← s.argumentsWith resolve m (params.map Prod.fst)
      return .invoke x.name (x.generics.map TypeRef.name) args

def selectors (s : Site) (ms : List (NodeId × External)) : Generation (List Selector) :=
  ms.mapM fun x => s.selectorWith s.value x.1 x.2

/-! ## One member -/

/-- Outside of jobs an input reads what its source gives. -/
theorem inputWith_of_source (hroot : s.isJob = false) (h : s.graph.sourceOf? input = some o) :
    s.inputWith resolve access input = resolve access o := by
  obtain ⟨g, p, scope⟩ := s
  cases scope with
  | job b => exact absurd hroot nofun
  | unit | function method =>
    simp only [inputWith, redirect?, isUnavailable, isJob, Bool.false_and,
      Bool.false_eq_true, if_false]
    rw [h]

/-- What feeds an input is assigned through where the input is a target, and read otherwise. -/
theorem target_and_read_of_source {n : NodeId} {name : String} (hroot : s.isJob = false)
    (hi : s.graph.portRef n name = .ok input) (h : s.graph.sourceOf? input = some o) :
    s.target n name = s.value .set o ∧ s.read n name = s.value .read o := by
  rw [target, read, readWith, hi]
  exact ⟨inputWith_of_source hroot h, inputWith_of_source hroot h⟩

/-- A member is reached from what feeds its receiver, with the same access. -/
theorem memberWith_external (hg : s.graph.Reachable) (hroot : s.isJob = false)
    (hm : s.graph.kind? m = some (.member (.external x))) (hx : x.receiver.isSome = true)
    (hfed : s.graph.sourceOf? ⟨m, 0⟩ = some o) (resolve : Resolve) (access : Access) :
    s.memberWith resolve m (.external x) access =
      (do let target ← resolve access o
          let step ← s.selectorWith resolve m x
          return step.on target) := by
  obtain ⟨type, htype⟩ := Option.isSome_iff_exists.1 hx
  have hreceiver : s.receiverWith resolve m x access = some <$> resolve access o := by
    rw [receiverWith, htype, hg.portRef_receiver hm hx]
    change (do return some (← s.inputWith resolve access ⟨m, 0⟩)) = _
    rw [inputWith_of_source hroot hfed, map_eq_pure_bind]
  rw [memberWith, hreceiver, selectorWith, bind_map_left]
  refine bind_congr fun target => ?_
  cases x.use with
  | field type readOnly | property type readOnly => rw [pure_bind]; rfl
  | method params returns => simp only [bind_assoc, pure_bind]; rfl

/-- The value of a member is reached from the value of its receiver. -/
theorem value_external (hacyclic : ∀ n, ¬Relation.TransGen s.graph.PureFeeds n n)
    (hg : s.graph.Reachable) (hp : Plan.make s.graph = .ok s.plan) (hroot : s.isJob = false)
    (hhandle : ∀ n h, Meets (s.handle n h) (fun _ => True) E) (hE : ∀ n, ¬E (.valueCycle n))
    (hm : s.graph.kind? output.node = some (.member (.external x))) (hx : x.receiver.isSome = true)
    (hfed : s.graph.sourceOf? ⟨output.node, 0⟩ = some o)
    (hpure : s.graph.IsPureProducer output.node) (access : Access) : s.value access output =
      (do let target ← s.value access o
          let step ← s.selectorWith s.value output.node x
          return step.on target) := by
  rw [value_eq_computeWith hacyclic hg (complete_make hg hp) hhandle hE access hpure
    (binding?_member hp hm), computeWith_member hm, memberWith_external hg hroot hm hx hfed]

/-! ## The whole chain -/

/-- An output that is bound is read through its binding, whatever is read next. -/
theorem value_of_bound {b : Binding} (h : s.plan.binding? output = some b) (access : Access) :
    s.value access output = pure (b.expr access) := by
  rw [value, valueWithin, h]

/-- By induction on the chain: the access is handed on to where the chain starts. -/
theorem value_chain (hacyclic : ∀ n, ¬Relation.TransGen s.graph.PureFeeds n n)
    (hg : s.graph.Reachable) (hp : Plan.make s.graph = .ok s.plan) (hroot : s.isJob = false)
    (hhandle : ∀ n h, Meets (s.handle n h) (fun _ => True) E) (hE : ∀ n, ¬E (.valueCycle n))
    {b : Binding} (hbound : s.plan.binding? r = some b) (h : s.graph.Chain r ms o)
    (access : Access) : s.value access o = Selector.chain (b.expr access) <$> s.selectors ms := by
  induction h with
  | start =>
    rw [value_of_bound hbound, selectors, List.mapM_nil, map_pure]
    rfl
  | @next ms o m x port out h hm hx hfed hout houtput hvalue ih =>
    have hpure := hg.isPureProducer_member (r := ⟨m, port⟩) hm hout houtput hvalue
    rw [value_external hacyclic hg hp hroot hhandle hE hm hx hfed hpure, ih, selectors, selectors,
      List.mapM_append, map_bind, bind_map_left]
    refine bind_congr fun steps => ?_
    rw [List.mapM_cons, List.mapM_nil]
    simp only [pure_bind, bind_assoc, map_bind, map_pure, Selector.chain, List.foldl_append,
      List.foldl_cons, List.foldl_nil]

/-! ## Reading only -/

/-- The site at which references can be read only, whatever is asked for. -/
def readOnly (s : Site) : Site :=
  { s with plan := { s.plan with
      bindings := s.plan.bindings.map fun x => (x.1, .fixed (x.2.expr .read)) } }

/-- Seen read-only, a wrapper is bound to its text for reading. -/
theorem binding?_readOnly (s : Site) (r : PortRef) :
    s.readOnly.plan.binding? r = (s.plan.binding? r).map fun b => .fixed (b.expr .read) := by
  simp only [Plan.binding?, readOnly]
  induction s.plan.bindings with
  | nil => rfl
  | cons x rest ih =>
    rw [List.map_cons, List.lookup_cons, List.lookup_cons]
    cases r == x.1
    · exact ih
    · rfl

/-- The access is used for receivers only, and computing a value looks at no binding. -/
theorem computeWith_readOnly (resolve : Resolve) (access : Access) (output : PortRef) :
    s.readOnly.computeWith (fun _ => resolve .read) access output =
    s.computeWith resolve .read output :=
  rfl

/-- By induction on the fuel: a value at the read-only site is a value that is read. -/
theorem valueWithin_readOnly (fuel : Nat) (access : Access) (output : PortRef) :
    s.readOnly.valueWithin fuel access output = s.valueWithin fuel .read output := by
  induction fuel generalizing access output with
  | zero => rfl
  | succ fuel ih =>
    have hresolve : s.readOnly.valueWithin fuel = fun _ => s.valueWithin fuel .read := by
      funext access output
      exact ih access output
    rw [valueWithin, valueWithin, binding?_readOnly, hresolve]
    cases s.plan.binding? output with
    | none => exact computeWith_readOnly (s.valueWithin fuel) access output
    | some b => rfl

/-- The steps of a chain are read, and read alike whether the root may be written or not. -/
theorem selectors_readOnly (s : Site) (ms : List (NodeId × External)) :
    s.readOnly.selectors ms = s.selectors ms := by
  have hresolve : s.readOnly.value = fun _ => s.value .read := by
    funext access output
    exact valueWithin_readOnly _ access output
  rw [selectors, hresolve]
  rfl

/-! ## Chains return -/

/-- Outside functions handles are declared in the update method, which aspects do not have. -/
def lacksUpdate (s : Site) : Bool := s.scope.method?.isNone && !s.graph.settings.flavor.isSystem

/-- A request for a handle fails only where the unit lacks an update. -/
theorem meets_handle_of_lacksUpdate (n : NodeId) (h : Handle) : Meets (s.handle n h) (fun _ => True)
    fun e => e = .missingEntryPoint updateMethod ∧ s.lacksUpdate = true := by
  refine meets_bind (meets_attempt (Q := fun _ => True) (fun _ _ => trivial) fun e he => ?_)
    fun x _ => meets_bind (meets_note (T := fun _ => True) x trivial) fun _ _ => meets_pure trivial
  obtain ⟨rfl, hmethod, hsystem⟩ := request_eq_error he
  exact ⟨rfl, by simp [lacksUpdate, hmethod, hsystem]⟩

section Returns

variable (hacyclic : ∀ n, ¬Relation.TransGen s.graph.PureFeeds n n) (hg : s.graph.Reachable)
  (hp : Complete s.graph s.plan) (hhandle : ∀ n h, Meets (s.handle n h) (fun _ => True) E)

include hacyclic hg hp hhandle

/-- What is given to a method feeds a pure producer. -/
theorem meets_selectorWith (hm : s.graph.kind? m = some (.member (.external x)))
    (hpure : s.graph.IsPureProducer m) : Meets (s.selectorWith s.value m x) (fun _ => True) E := by
  obtain ⟨node, hnode, hkind⟩ := Option.map_eq_some_iff.1 hm
  unfold selectorWith
  split
  · exact meets_pure trivial
  · exact meets_pure trivial
  · rename_i params returns huse
    refine meets_bind
      (meets_argumentsWith hg hnode (fun access name _ r hr => ?_) fun name hname => ?_)
      fun args _ => meets_pure trivial
    · apply meets_input_of_pure hacyclic hg hp hhandle (Nat.le_succ _)
      rwa [Graph.node_of_portRef hr]
    · rw [hkind, Graph.operands, Graph.arguments, huse]
      exact List.mem_append_right _ hname

/-- A chain has one step for each of its nodes. -/
theorem meets_selectors (h : s.graph.Chain r ms o) :
    Meets (s.selectors ms) (fun steps => steps.length = ms.length) E := by
  induction h with
  | start => exact meets_pure rfl
  | @next ms o m x port out h hm hx hfed hout houtput hvalue ih =>
    have hpure := hg.isPureProducer_member (r := ⟨m, port⟩) hm hout houtput hvalue
    rw [selectors, List.mapM_append]
    refine meets_bind ih fun steps hsteps => ?_
    rw [List.mapM_cons, List.mapM_nil, bind_assoc]
    refine meets_bind (meets_selectorWith hacyclic hg hp hhandle hm hpure) fun step _ => ?_
    exact meets_pure (by simp [hsteps])

end Returns

/-! ## Access -/

/-- How the end of a chain is reached that starts at a reference of that name. -/
structure FollowsAccess (s : Site) (w : String) (ms : List (NodeId × External))
    (o : PortRef) : Prop where
  /-- The steps along the chain are the same for reading and for assignments. -/
  value : ∀ access, s.value access o = Selector.chain ((Binding.wrapper w).expr access) <$>
    s.selectors ms
  /-- This is what an input reads, or is assigned through, if the chain feeds it. -/
  input : ∀ n name i, s.graph.portRef n name = .ok i → s.graph.sourceOf? i = some o →
    s.target n name = s.value .set o ∧ s.read n name = s.value .read o
  /-- All within the steps is read. -/
  readOnly : s.readOnly.selectors ms = s.selectors ms
  /-- There are such steps, unless one of them needs the update method where the unit has none. -/
  returns : Meets (s.selectors ms) (fun steps => steps.length = ms.length)
    fun e => e = .missingEntryPoint updateMethod ∧ s.lacksUpdate = true
  text : ∀ steps, (Selector.chain ((Binding.wrapper w).expr .set) steps).render =
      w ++ ".ValueRW" ++ Selector.suffix steps ∧
    (Selector.chain ((Binding.wrapper w).expr .read) steps).render =
      w ++ ".ValueRO" ++ Selector.suffix steps

/-- A chain from a wrapper follows the access for which it is asked. -/
theorem followsAccess_of_bound (hacyclic : ∀ n, ¬Relation.TransGen s.graph.PureFeeds n n)
    (hg : s.graph.Reachable) (hp : Plan.make s.graph = .ok s.plan) (hroot : s.isJob = false)
    (hbound : s.plan.binding? r = some (.wrapper w)) (h : s.graph.Chain r ms o) :
    s.FollowsAccess w ms o where
  value := value_chain hacyclic hg hp hroot meets_handle_of_lacksUpdate (fun _ => nofun) hbound h
  input n name i hi hsource := target_and_read_of_source hroot hi hsource
  readOnly := s.selectors_readOnly ms
  returns := meets_selectors hacyclic hg (complete_make hg hp) meets_handle_of_lacksUpdate h
  text steps := by
    have hset : ((Binding.wrapper w).expr .set).render = w ++ ".ValueRW" := by
      rw [Binding.expr, Expr.render, Expr.render, String.append_assoc]
      rfl
    have hread : ((Binding.wrapper w).expr .read).render = w ++ ".ValueRO" := by
      rw [Binding.expr, Expr.render, Expr.render, String.append_assoc]
      rfl
    rw [Selector.render_chain, Selector.render_chain, hset, hread]
    exact ⟨rfl, rfl⟩

end Site

namespace Graph

open Planning

variable {g : Graph} {p : Plan} {scope : Scope} {n : NodeId} {node : Node} {spec : ForeachSpec}
  {item : QueryItem} {r o : PortRef} {ms : List (NodeId × External)}

/-- Where a loop over entities runs in place, an item that can be written to is reached through its
name, and so is everything that is reached from it through members of outside types: by the same
steps, from the reference for writing where it is assigned to and from the one for reading where it
is read.  The ports of the loop have to be told apart, by their names and by their positions. -/
theorem item_followsAccess (hg : g.Reachable) (hp : Plan.make g = .ok p)
    (hacyclic : ∀ n, ¬Relation.TransGen g.PureFeeds n n) (hroot : Site.isJob ⟨g, p, scope⟩ = false)
    (hn : g.node? r.node = some node) (hkind : node.kind = .foreach spec)
    (hrun : spec.run.isDeferred = false) (hnames : (node.ports.map Port.name).Nodup)
    (hsize : node.ports.length ≤ 0x1_0000) (hitem : item ∈ spec.items)
    (haccess : item.access = .readWrite) (hr : g.port? r = some (Layout.ofItem item))
    (hchain : g.Chain r ms o) :
    ∃ w, p.symbols.get? (.port r) = some w ∧ Site.FollowsAccess ⟨g, p, scope⟩ w ms o := by
  have hfound : g.portRef r.node item.name = .ok r := portRef_of_port? hn hnames hr
  obtain ⟨before, after, hitems, hlast⟩ := exists_spares hg hn hkind hnames hsize hitem
  obtain ⟨w, hw, hbound⟩ := binding?_item hn hkind hrun hitems hlast hp r hfound
  rw [haccess, itemBinding] at hbound
  exact ⟨w, hw, Site.followsAccess_of_bound hacyclic hg hp hroot hbound hchain⟩

namespace Nested

/-- The item, a tile that holds its place in a grid. -/
def tile : QueryItem := ⟨"tile", some (.component "Tile"), .readWrite⟩

def grid : External := .instanceField (.component "Tile") "Grid" (.component "Grid")

def cell : External :=
  ⟨none, some (.component "Grid"), "At", [], .method [("index", .int)] (some .float)⟩

/-- A cell of the grid is set: it is found by a method, and the place given to the method is read
from the item that the grid is reached from. -/
def graph : Graph := build {} [
  .addNode "Update" (.event .update) ContainerTree.root,
  .addNode "Each" (.foreach { items := [tile], run := .run }) ContainerTree.root,
  .addNode "Write" .setValue ContainerTree.root,
  .addNode "Grid" (.member (.external grid)) ContainerTree.root,
  .addNode "Index" (.member (.external (.instanceField (.component "Tile") "Index" .int)))
    ContainerTree.root,
  .addNode "At" (.member (.external cell)) ContainerTree.root,
  .connect ⟨0⟩ "exit" ⟨1⟩ "enter", .connect ⟨1⟩ "body" ⟨2⟩ "enter",
  .connect ⟨1⟩ "tile" ⟨3⟩ "instance",
  .connect ⟨1⟩ "tile" ⟨4⟩ "instance", .connect ⟨3⟩ "Out" ⟨5⟩ "instance",
  .connect ⟨4⟩ "Out" ⟨5⟩ "index",
  .connect ⟨5⟩ "Out" ⟨2⟩ "target"]

theorem chain : graph.Chain ⟨⟨1⟩, 3⟩ [(⟨3⟩, grid), (⟨5⟩, cell)] ⟨⟨5⟩, 2⟩ := by
  have hgrid : graph.port? ⟨⟨3⟩, 1⟩ =
      some (.valueOut "Out" (some (.component "Grid")) .readWrite) := by
    decide +kernel
  have hcell : graph.port? ⟨⟨5⟩, 2⟩ = some (.valueOut "Out" (some .float) .readOnly) := by
    decide +kernel
  have hfirst : graph.Chain ⟨⟨1⟩, 3⟩ [(⟨3⟩, grid)] ⟨⟨3⟩, 1⟩ :=
    .next .start (by decide +kernel) rfl (by decide +kernel) hgrid rfl rfl
  exact .next hfirst (by decide +kernel) rfl (by decide +kernel) hcell rfl rfl

/-- What the target of the assignment is, where it is set and where it is read. -/
def texts (p : Plan) : List String :=
  let s : Site := ⟨graph, p, .unit⟩
  [s.target ⟨2⟩ PortName.target, s.read ⟨2⟩ PortName.target].filterMap fun m =>
    ((m.run.run (.ofPlan p)).1.toOption.map Expr.render)

/-- A chain of two steps, for writing and for reading, with an argument that is only read. -/
theorem item_followsAccess_nested : ∃ p, Plan.make graph = .ok p ∧
    texts p =
    ["tile.ValueRW.Grid.At(tile.ValueRO.Index)", "tile.ValueRO.Grid.At(tile.ValueRO.Index)"] ∧
    ∃ w, p.symbols.get? (.port ⟨⟨1⟩, 3⟩) = some w ∧
      Site.FollowsAccess ⟨graph, p, .unit⟩ w [(⟨3⟩, grid), (⟨5⟩, cell)] ⟨⟨5⟩, 2⟩ := by
  obtain ⟨p, hp, htexts⟩ := exists_ok_of_any (x := Plan.make graph) (c := fun p => decide (texts p =
    ["tile.ValueRW.Grid.At(tile.ValueRO.Index)", "tile.ValueRO.Grid.At(tile.ValueRO.Index)"]))
    (by decide +kernel)
  obtain ⟨node, hnode, hfacts⟩ := (Option.any_eq_true (fun node : Node =>
    decide (node.kind = .foreach { items := [tile], run := .run } ∧
      (node.ports.map Port.name).Nodup ∧
      node.ports.length ≤ 0x1_0000)) (graph.node? ⟨1⟩)).1 (by decide +kernel)
  obtain ⟨hkind, hnames, hsize⟩ := of_decide_eq_true hfacts
  exact ⟨p, hp, of_decide_eq_true htexts, item_followsAccess (reachable_build _ _) hp
    (acyclic_of_ascending (by decide +kernel)) rfl hnode hkind rfl hnames hsize
    (List.mem_singleton_self _) rfl (by decide +kernel) chain⟩

end Nested

/-- Building on keeps a node as it is. -/
theorem Invariant.node?_foldl (h : g.Invariant) (hn : g.node? n = some node)
    (steps : List BuildStep) : (steps.foldl Graph.step g).node? n = some node := by
  induction steps generalizing g with
  | nil => exact hn
  | cons s steps ih => exact ih (h.step s) ((h.grows_step s).node n node hn)

namespace Broad

/-- Items that are told apart by how often the letter of their names is written. -/
def spare (i : ℕ) : QueryItem := ⟨String.ofList (List.replicate (i + 1) 'a'), none, .value⟩

def loop (k : ℕ) : ForeachSpec := { items := Nested.tile :: (List.range k).map spare, run := .run }

def nodes (k : ℕ) : List BuildStep := [
  .addNode "Update" (.event .update) ContainerTree.root,
  .addNode "Each" (.foreach (loop k)) ContainerTree.root,
  .addNode "Write" .setValue ContainerTree.root]

/-- A tile is set, of a query with `k` more items. -/
def graph (k : ℕ) : Graph := build {} (nodes k ++ [
  .connect ⟨0⟩ "exit" ⟨1⟩ "enter", .connect ⟨1⟩ "body" ⟨2⟩ "enter",
  .connect ⟨1⟩ "tile" ⟨2⟩ "target"])

theorem exists_loop (k : ℕ) : ∃ node, (graph k).node? ⟨1⟩ = some node ∧
    node.kind = .foreach (loop k) ∧ node.ports = Layout.ofForeach (loop k) := by
  obtain ⟨node, hn, hfacts⟩ : ∃ node, (build {} (nodes k)).node? ⟨1⟩ = some node ∧
      node.kind = .foreach (loop k) ∧ node.ports = Layout.ofForeach (loop k) := ⟨_, rfl, rfl, rfl⟩
  refine ⟨node, ?_, hfacts⟩
  rw [graph, build, List.foldl_append]
  exact (reachable_build {} (nodes k)).invariant.node?_foldl hn _

/-- The names of the ports of the loop. -/
theorem map_name_ports (k : ℕ) : (Layout.ofForeach (loop k)).map Port.name =
    ["enter", "body", "exit", "tile"] ++ (List.range k).map fun i => (spare i).name := by
  simp only [Layout.ofForeach, loop, List.map_append, List.map_cons, List.map_map]
  rfl

theorem nodup_names (k : ℕ) : ((Layout.ofForeach (loop k)).map Port.name).Nodup := by
  have hspare : ∀ i, (spare i).name.toList = List.replicate (i + 1) 'a' :=
    fun i => String.toList_ofList
  rw [map_name_ports]
  refine List.nodup_append'.2 ⟨by decide, List.nodup_range.map fun i j hij => ?_, ?_⟩
  · have hlength := congrArg (fun name : String => name.toList.length) hij
    simpa [hspare] using hlength
  · -- no fixed name is written with that letter only
    have hfixed : ∀ name ∈ ["enter", "body", "exit", "tile"], ∃ c ∈ name.toList, c ≠ 'a' := by
      simp
    intro name hname hmem
    obtain ⟨i, -, rfl⟩ := List.mem_map.1 hmem
    obtain ⟨c, hc, hne⟩ := hfixed _ hname
    rw [hspare] at hc
    exact hne (List.eq_of_mem_replicate hc)

/-- The name of the last item leads to the position of the item, as far as a word can hold it. -/
theorem portRef_last (k : ℕ) :
    (graph (k + 1)).portRef ⟨1⟩ (spare k).name = .ok ⟨⟨1⟩, UInt16.ofNat (k + 4)⟩ := by
  obtain ⟨node, hn, -, hports⟩ := exists_loop (k + 1)
  have hlast : node.ports[k + 4]? = some (Layout.ofItem (spare k)) := by
    rw [hports]
    simp [Layout.ofForeach, loop]
  have hdistinct : (node.ports.map Port.name).Nodup := hports ▸ nodup_names (k + 1)
  exact portRef_eq_ok.2 ⟨node, k + 4, hn, findIdx?_of_nodup hdistinct hlast, rfl⟩

/-- The last of 65536 more items is found at the port of the first item, and the port reads as the
last one does: the tile cannot be assigned to. -/
theorem tile_overridden : ∃ p w node, (graph 65536).Reachable ∧ Plan.make (graph 65536) = .ok p ∧
    (∀ n, ¬Relation.TransGen (graph 65536).PureFeeds n n) ∧
    (graph 65536).node? ⟨1⟩ = some node ∧ node.kind = .foreach (loop 65536) ∧
    (node.ports.map Port.name).Nodup ∧
    (graph 65536).port? ⟨⟨1⟩, 3⟩ = some (Layout.ofItem Nested.tile) ∧
    (graph 65536).sourceOf? ⟨⟨2⟩, 1⟩ = some ⟨⟨1⟩, 3⟩ ∧
    p.symbols.get? (.port ⟨⟨1⟩, 3⟩) = some w ∧
    Site.target ⟨graph 65536, p, .unit⟩ ⟨2⟩ PortName.target = pure (.ident w) ∧
    (Expr.ident w).render ≠ w ++ ".ValueRW" := by
  have hg : (graph 65536).Reachable := reachable_build _ _
  obtain ⟨node, hn, hkind, hports⟩ := exists_loop 65536
  obtain ⟨p, hp⟩ := exists_make hg (by decide +kernel)
  have hsource : (graph 65536).sourceOf? ⟨⟨2⟩, 1⟩ = some ⟨⟨1⟩, 3⟩ := by decide +kernel
  have htarget : (graph 65536).portRef ⟨2⟩ PortName.target = .ok ⟨⟨2⟩, 1⟩ := by decide +kernel
  have hitems : (loop 65536).items = (Nested.tile :: (List.range 65535).map spare) ++
      [spare 65535] := by
    simp [loop, List.range_succ (n := 65535)]
  obtain ⟨w, hw, hbound⟩ := binding?_item hn hkind rfl hitems
    (fun _ hx => absurd hx List.not_mem_nil) hp ⟨⟨1⟩, 3⟩ (portRef_last 65535)
  refine ⟨p, w, node, hg, hp, acyclic_of_ascending (by decide +kernel), hn, hkind,
    hports ▸ nodup_names _, by decide +kernel, hsource, hw, ?_, ?_⟩
  · obtain ⟨hset, -⟩ :=
      Site.target_and_read_of_source (s := ⟨graph 65536, p, .unit⟩) rfl htarget hsource
    rw [hset, Site.value_of_bound hbound]
    rfl
  · intro h
    have hlength := congrArg String.length h
    simp [Expr.render] at hlength

end Broad

end Graph

end EntityFlow
