import EntityFlow.Proofs.Boundary.Members
import EntityFlow.Proofs.Generation.Reached

/-!
# Which members a job has to have

A body that calls a function of the unit's instances needs a copy of it, and a copy needs what it
calls in turn.  So the functions of a boundary are described without a search: among the sets of
instance functions that hold what the body calls, and with a function also what the nodes in its
container call, they are the least.  Functions that call each other make no difference.  The
properties and variables of a boundary are those that its body and these functions refer to, and
what stands behind the properties.
-/

namespace EntityFlow

namespace Graph

variable {g : Graph} {m : MemberId} {ms : List MemberId} {ns : List NodeId} {n : NodeId}

/-! ## Calls -/

/-- The node stands for a call of an instance function. -/
def Calls (g : Graph) (n : NodeId) (m : MemberId) : Prop :=
  g.kind? n = some (.member (.function m)) ∧ g.IsInstanceFunction m

def PlacedIn (g : Graph) (n : NodeId) (f : MemberId) : Prop :=
  ∃ fn node, g.function? f = some fn ∧ g.node? n = some node ∧ node.container = fn.container

/-- A set of instance functions that holds what nodes `ns` call, and with a function also what the
nodes in its container call. -/
structure CallClosed (g : Graph) (ns : List NodeId) (F : Set MemberId) : Prop where
  functions : ∀ m ∈ F, g.IsInstanceFunction m
  start : ∀ n ∈ ns, ∀ m, g.Calls n m → m ∈ F
  next : ∀ f ∈ F, ∀ n, g.PlacedIn n f → ∀ m, g.Calls n m → m ∈ F

theorem mem_calledFunctions_iff : m ∈ g.calledFunctions ns ↔ ∃ n ∈ ns, g.Calls n m := by
  simp only [mem_calledFunctions, target?_eq_some, Calls]
  constructor
  · rintro ⟨hm, n, hn, hkind⟩
    exact ⟨n, hn, hkind, hm⟩
  · rintro ⟨n, hn, hkind, hm⟩
    exact ⟨hm, n, hn, hkind⟩

/-- The body of a function consists of the nodes placed in it. -/
theorem mem_functionBody {f : MemberId} : n ∈ g.functionBody f ↔ g.PlacedIn n f := by
  have hnodes : n ∈ g.functionNodes [f] ↔ _ := Boundary.mem_functionNodes
  simpa [functionNodes, PlacedIn] using hnodes

theorem mem_memberIds (h : g.IsInstanceFunction m) : m ∈ g.memberIds := by
  obtain ⟨f, hf, -⟩ := h
  exact List.mem_map.2 ⟨m.index, List.mem_range.2 (index_lt_of_member? hf), rfl⟩

/-- The functions that are found include all that they call themselves. -/
theorem callClosed_referencedFunctions (g : Graph) (ns : List NodeId) :
    g.CallClosed ns {m | m ∈ g.referencedFunctions ns} where
  functions m hm := isInstanceFunction_of_mem_referencedFunctions hm
  start n hn m hm := mem_closure_of_mem (mem_memberIds hm.2) (mem_calledFunctions_iff.2 ⟨n, hn, hm⟩)
  next f hf n hn m hm := by
    refine mem_closure_of_next (mem_memberIds hm.2) hf ?_
    exact mem_calledFunctions_iff.2 ⟨n, mem_functionBody.2 hn, hm⟩

/-- Every set of functions that is closed under calls contains those that are found. -/
theorem CallClosed.subset {F : Set MemberId} (h : g.CallClosed ns F)
    (hm : m ∈ g.referencedFunctions ns) : m ∈ F := by
  refine closure_induction (p := fun m => m ∈ F) ?_ ?_ m hm
  · intro m hm _
    obtain ⟨n, hn, hcall⟩ := mem_calledFunctions_iff.1 hm
    exact h.start n hn m hcall
  · intro f hf m hm _
    obtain ⟨n, hn, hcall⟩ := mem_calledFunctions_iff.1 hm
    exact h.next f hf n (mem_functionBody.1 hn) m hcall

/-- The functions that are found are the least set closed under calls. -/
theorem isLeast_referencedFunctions (g : Graph) (ns : List NodeId) :
    IsLeast {F | g.CallClosed ns F} {m | m ∈ g.referencedFunctions ns} :=
  ⟨callClosed_referencedFunctions g ns, fun _ hF _ hm => hF.subset hm⟩

end Graph

namespace Boundary

open EntityFlow.Graph

variable {g : Graph} {a : Boundary} {n : NodeId}

/-- A boundary covers its body and the bodies of the functions that it calls. -/
theorem mem_reached : n ∈ a.after ++ g.functionNodes a.functions ↔ a.Covers g n := by
  rw [List.mem_append, mem_functionNodes, Covers]

/-- What the boundary lists of the members: the least set of functions closed under calls, and the
properties and variables that the nodes covered refer to, each list by ascending index. -/
structure Lists (g : Graph) (a : Boundary) : Prop where
  functions : IsLeast {F | g.CallClosed a.after F} {m | m ∈ a.functions}
  properties : ∀ m, m ∈ a.properties ↔
    g.IsInstanceProperty m ∧ ∃ n, a.Covers g n ∧ g.kind? n = some (.member (.property m))
  vars : ∀ m, m ∈ a.vars ↔ g.IsInstanceVariable m ∧
    ((∃ n, a.Covers g n ∧ g.kind? n = some (.member (.variable m))) ∨
      ∃ owner ∈ a.properties, ∃ p, g.member? owner = some (.property p) ∧ p.backing = some m)
  ascending : ∀ ms ∈ [a.functions, a.properties, a.vars], ms.Pairwise fun m m' => m.index < m'.index

/-- The members listed for a boundary of a reachable graph, however its functions call each other:
there is an analysis unless nothing leaves the body port, and then it lists exactly the members that
the body and the functions it leads to refer to. -/
theorem analyze?_lists (hg : g.Reachable) (b : NodeId) (body : PortRef) :
    (analyze? g b body = none ↔ ∀ e ∈ g.live, e.source ≠ body) ∧
    ∀ a, analyze? g b body = some a → a.Lists g := by
  refine ⟨analyze?_eq_none_iff hg.invariant.anchored, fun a ha => ?_⟩
  obtain ⟨hfunctions, hproperties, hvars⟩ := members_eq ha
  refine ⟨?_, fun m => ?_, fun m => ?_, ?_⟩
  · rw [hfunctions]
    exact isLeast_referencedFunctions g a.after
  · rw [hproperties, mem_referencedProperties]
    simp only [mem_reached, target?_eq_some]
  · rw [hvars, mem_referencedVariables hg.invariant]
    simp only [mem_reached, target?_eq_some]
  · simp only [List.forall_mem_cons, List.not_mem_nil, false_imp_iff, implies_true, and_true]
    refine ⟨?_, ?_, ?_⟩
    · rw [hfunctions]
      exact pairwise_referencedFunctions g a.after
    · rw [hproperties]
      exact pairwise_membersAmong g _
    · rw [hvars]
      exact pairwise_membersAmong g _

/-- The body of a loop calls one of two functions that call each other.  The second one also reads a
property that a variable stands behind, reads a static variable and calls a static function, which
reads another variable. -/
def pingPong : Graph := Graph.build {} [
  .addFunction "Ping" [] none false, .addFunction "Pong" [] none false,
  .addFunction "Log" [] none true,
  .addVariable { name := "speed", type := .float },
  .addVariable { name := "total", type := .int, isStatic := true },
  .addVariable { name := "level", type := .int },
  .addProperty { name := "Pace", type := .float, isStatic := false, backing := some ⟨3⟩ },
  .addNode "Each" (.foreach { items := [], run := .schedule }) ContainerTree.root,
  .addNode "Ping" (.member (.function ⟨0⟩)) ContainerTree.root,
  .addNode "Pong" (.member (.function ⟨1⟩)) ⟨1⟩,
  .addNode "Ping" (.member (.function ⟨0⟩)) ⟨2⟩,
  .addNode "Pace" (.member (.property ⟨6⟩)) ⟨2⟩,
  .addNode "total" (.member (.variable ⟨4⟩)) ⟨2⟩,
  .addNode "Log" (.member (.function ⟨2⟩)) ⟨2⟩,
  .addNode "level" (.member (.variable ⟨5⟩)) ⟨3⟩,
  .connect ⟨0⟩ "body" ⟨1⟩ "enter"]

theorem pingPong_analyze? : analyze? pingPong ⟨0⟩ ⟨⟨0⟩, 1⟩ = some
    { node := ⟨0⟩, body := ⟨⟨0⟩, 1⟩, before := [], after := [⟨1⟩], crossings := []
      unavailable := [], vars := [⟨3⟩], properties := [⟨6⟩], functions := [⟨0⟩, ⟨1⟩] } := by
  cbv

/-- Two functions that call each other are both found. -/
theorem analyze?_lists_pingPong : ∃ a, analyze? pingPong ⟨0⟩ ⟨⟨0⟩, 1⟩ = some a ∧
    a.functions = [⟨0⟩, ⟨1⟩] ∧ a.properties = [⟨6⟩] ∧ a.vars = [⟨3⟩] ∧ a.Lists pingPong := by
  refine ⟨_, pingPong_analyze?, rfl, rfl, rfl, ?_⟩
  exact (analyze?_lists (reachable_build _ _) ⟨0⟩ ⟨⟨0⟩, 1⟩).2 _ pingPong_analyze?

end Boundary

end EntityFlow
