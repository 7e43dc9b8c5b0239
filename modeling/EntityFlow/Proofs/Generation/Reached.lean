import EntityFlow.Proofs.Generation.Walk
import EntityFlow.Proofs.Planning.Provenance
import EntityFlow.Proofs.Planning.Redirects

/-!
# Which nodes are generated into a job

Analysis and generation decide for themselves what belongs to a job.  Analysis leaves out the nodes
with a path into the boundary, and of a function it takes the container; generation goes wherever
flow leads.  The two agree except for flow that departs in one of two ways: from the body port back
to the boundary or to what runs before it, or from a function out of what was analyzed.
-/

namespace EntityFlow

/-- Flow leads from a port of `m` to a port of `n`. -/
def Graph.Flows (g : Graph) (m n : NodeId) : Prop :=
  ∃ e ∈ g.live, e.source.node = m ∧ g.IsFlowPort e.source ∧ e.target.node = n

namespace Boundary

open EntityFlow.Graph

/-- The node was analyzed for the boundary: it is in the body, or it is placed in the container of a
function that the body calls. -/
def Covers (g : Graph) (b : Boundary) (n : NodeId) : Prop :=
  n ∈ b.after ∨ ∃ f ∈ b.functions, ∃ fn node, g.function? f = some fn ∧ g.node? n = some node ∧
    node.container = fn.container

/-- Flow leads here, and what was analyzed does not. -/
inductive Departs (g : Graph) (b : Boundary) : NodeId → Prop
  /-- From the body port to the boundary or to a node that runs before it. -/
  | back {e : Edge} (he : e ∈ g.live) (hs : e.source = b.body)
      (ht : e.target.node = b.node ∨ e.target.node ∈ b.before) : Departs g b e.target.node
  /-- From the entry of a function, or from a node in its container. -/
  | out {f : MemberId} {fn : Function} {e : Edge} (hf : f ∈ b.functions)
      (hfn : g.function? f = some fn) (he : e ∈ g.live) (hflow : g.IsFlowPort e.source)
      (hs : fn.entry = some e.source.node ∨
        ∃ node, g.node? e.source.node = some node ∧ node.container = fn.container)
      (ht : ¬b.Covers g e.target.node) : Departs g b e.target.node

/-- Reached along flow from where it departs. -/
def Strays (g : Graph) (b : Boundary) (n : NodeId) : Prop :=
  ∃ m, b.Departs g m ∧ Relation.ReflTransGen g.Flows m n

variable {g : Graph} {b : Boundary} {e : Edge}

/-- The nodes of a container are those placed in it. -/
theorem mem_nodesIn {c : ContainerId} {n : NodeId} :
    n ∈ g.nodesIn c ↔ ∃ node, g.node? n = some node ∧ node.container = c := by
  simp only [nodesIn, List.mem_filter, Option.any_eq_true, decide_eq_true_eq, mem_nodeIds]
  refine and_iff_right_of_imp ?_
  rintro ⟨node, hnode, -⟩
  exact ⟨node, hnode⟩

/-- The nodes of functions are those placed in their containers. -/
theorem mem_functionNodes {fs : List MemberId} {n : NodeId} : n ∈ g.functionNodes fs ↔
    ∃ f ∈ fs, ∃ fn node, g.function? f = some fn ∧ g.node? n = some node ∧
      node.container = fn.container := by
  rw [functionNodes, List.mem_flatMap]
  refine exists_congr fun f => and_congr_right fun _ => ?_
  unfold functionBody
  cases g.function? f with
  | none => simp
  | some fn => simp [mem_nodesIn]

instance (n : NodeId) : Decidable (b.Covers g n) :=
  decidable_of_iff (n ∈ b.after ∨
    n ∈ g.functionNodes b.functions) (or_congr_right mem_functionNodes)

/-- Where flow leaves the body, it strays. -/
theorem Departs.strays {n : NodeId} (h : b.Departs g n) : b.Strays g n := ⟨n, h, .refl⟩

/-- Flow does not lead out of a body: what it leads back to would have the body before it. -/
theorem mem_after_of_flow (h : g.Anchored) (ha : analyze? g b.node b.body = some b)
    (he : e ∈ g.live)
    (hs : e.source.node ∈ b.after) (hflow : g.IsFlowPort e.source) : e.target.node ∈ b.after := by
  have hbody := isBody_after h ha
  obtain ⟨hnode, hbefore⟩ := hbody.beside _ hs
  have hfeeds : g.Feeds e.source.node e.target.node := ⟨e, he, rfl, rfl⟩
  rw [before_eq ha, mem_predecessors h] at hbefore
  refine hbody.flow e he hs hflow (fun ht => ?_) (fun ht => ?_)
  · exact hbefore ⟨hnode, .single (ht ▸ hfeeds)⟩
  · rw [before_eq ha, mem_predecessors h] at ht
    exact hbefore ⟨hnode, .head hfeeds ht.2⟩

/-- Flow stays in the body, or strays from it, or has strayed already. -/
theorem covers_or_strays_of_flow (h : g.Anchored) (ha : analyze? g b.node b.body = some b)
    (he : e ∈ g.live) (hs : b.Covers g e.source.node ∨ b.Strays g e.source.node)
    (hflow : g.IsFlowPort e.source) : b.Covers g e.target.node ∨ b.Strays g e.target.node := by
  rcases hs with (hafter | ⟨f, hf, fn, node, hfn, hnode, hplaced⟩) | ⟨m, hm, hpath⟩
  · exact .inl (.inl (mem_after_of_flow h ha he hafter hflow))
  · by_cases ht : b.Covers g e.target.node
    · exact .inl ht
    · exact .inr (Departs.out hf hfn he hflow (.inr ⟨node, hnode, hplaced⟩) ht).strays
  · exact .inr ⟨m, hm, hpath.tail ⟨e, he, rfl, hflow, rfl⟩⟩

/-- What hangs off the body port is the body, as far as it does not lead back. -/
theorem covers_or_strays_of_body (h : g.Anchored) (ha : analyze? g b.node b.body = some b)
    (he : e ∈ g.live) (hs : e.source = b.body) :
    b.Covers g e.target.node ∨ b.Strays g e.target.node := by
  by_cases hback : e.target.node = b.node ∨ e.target.node ∈ b.before
  · exact .inr (Departs.back he hs hback).strays
  · rw [not_or] at hback
    exact .inl (.inl ((isBody_after h ha).start e he hs hback.1 hback.2))

end Boundary

namespace Draft

open Generation Stmt Planning Boundary

variable {g : Graph} {p : Plan} {j : Job} {b : Boundary} {body : JobBody} {ledger : Ledger}

/-- What is generated into a job, into its own method or into the copy of a function, was analyzed
for its boundary or is strayed to. -/
theorem jobBody_covers (hg : g.Reachable) (hp : Plan.make g = .ok p) (hj : j ∈ p.jobs)
    (hrun : ((jobBody g p j.node).run.run ledger).1 = .ok body) : ∃ b ∈ p.boundaries,
      b.node = j.node ∧ analyze? g b.node b.body = some b ∧
      ∀ ss, ss = body.execute ∨ (∃ f, (f, ss) ∈ body.functions) →
        ∀ n ∈ nodesOf ss, b.Covers g n ∨ b.Strays g n := by
  obtain ⟨b, hb, hserves, hhangs, ha⟩ := exists_serves hp hj
  have hanchored := hg.invariant.anchored
  have hbody : ∀ e ∈ g.live, e.source = j.body →
      (b.Covers g e.target.node ∨ b.Strays g e.target.node) ∧ g.IsFlowPort e.source := by
    intro e he hs
    rw [hserves.body] at hs
    exact ⟨covers_or_strays_of_body hanchored ha he hs, hhangs.isFlowPort hg he hs⟩
  have hentry : ∀ f ∈ j.functions, ∀ fn, g.function? f = some fn → ∀ e ∈ g.live,
      fn.entry = some e.source.node → g.IsFlowPort e.source →
        b.Covers g e.target.node ∨ b.Strays g e.target.node := by
    intro f hf fn hfn e he hs hflow
    rw [hserves.functions] at hf
    by_cases ht : b.Covers g e.target.node
    · exact .inl ht
    · exact .inr (Departs.out hf hfn he hflow (.inl hs) ht).strays
  have hmeets := meets_jobBody (R := fun n => b.Covers g n ∨ b.Strays g n) hg
    (fun e he => covers_or_strays_of_flow hanchored ha he) (job?_of_mem hp hj)
    (Site.provides_any ⟨g, p, .job j.node⟩) (fun _ _ _ _ => trivial) hbody hentry ledger
  rw [hrun] at hmeets
  refine ⟨b, hb, hserves.node.symm, ha, ?_⟩
  rintro ss (rfl | ⟨f, hf⟩)
  · exact hmeets.1
  · exact hmeets.2 _ hf

namespace Loose

/-- A query item that loops over a component. -/
def item : QueryItem := ⟨"a", some (.component "A"), .readOnly⟩

/-- The body of the first loop is the loop itself.  The body of the second calls a function whose
entry leads out of its container, to a local that reads a variable. -/
def graph : Graph := Graph.build {} [
  .addFunction "Spawn" [] none false,
  .addVariable ⟨"speed", .float, none, false, false⟩,
  .addNode "Self" (.foreach { items := [item], run := .schedule }) ContainerTree.root,
  .addNode "Each" (.foreach { items := [item], run := .schedule }) ContainerTree.root,
  .addNode "Call" (.member (.function ⟨0⟩)) ContainerTree.root,
  .addNode "Entry" (.functionEntry ⟨0⟩) ⟨1⟩,
  .addNode "Count" (.localVar "count" .float) ContainerTree.root,
  .addNode "Speed" (.member (.variable ⟨1⟩)) ContainerTree.root,
  .connect ⟨0⟩ "body" ⟨0⟩ "enter", .connect ⟨1⟩ "body" ⟨2⟩ "enter",
  .connect ⟨3⟩ "exit" ⟨4⟩ "enter", .connect ⟨5⟩ "Out" ⟨4⟩ "value"]

def plan : Plan :=
  match Plan.make graph with
  | .ok p => p
  | .error _ => .start graph

theorem make_graph : Plan.make graph = .ok plan := by
  have hok : (Plan.make graph).isOk = true := by decide +kernel
  unfold plan
  cases hmake : Plan.make graph with
  | error e => simp [hmake, Except.isOk, Except.toBool] at hok
  | ok p => rfl

/-- The nodes generated into the method of a job, and into the functions copied into it. -/
def emitted (n : NodeId) : Option (List NodeId × List NodeId) := do
  let j ← plan.job? n
  let body ← ((jobBody graph plan j.node).run.run (.ofPlan plan)).1.toOption
  return (nodesOf body.execute, body.functions.flatMap fun x => nodesOf x.2)

/-- The loop that is its own body comes once more inside. -/
theorem emitted_self : emitted ⟨0⟩ = some ([⟨0⟩], []) := by decide +kernel

/-- The node behind the function is generated although the body lacks it. -/
theorem emitted_each : emitted ⟨1⟩ = some ([⟨2⟩], [⟨4⟩]) := by decide +kernel

/-- How the nodes of a job are seen in its body. -/
theorem exists_jobBody {n : NodeId} {ms ns : List NodeId} (h : emitted n = some (ms, ns)) :
    ∃ j ∈ plan.jobs, j.node = n ∧ ∃ body,
      ((jobBody graph plan j.node).run.run (.ofPlan plan)).1 = .ok body ∧
      nodesOf body.execute = ms ∧
      body.functions.flatMap (fun x => nodesOf x.2) = ns := by
  simp only [emitted, Option.bind_eq_bind, Option.bind_eq_some_iff, Option.pure_def,
    Option.some.injEq, Prod.mk.injEq] at h
  obtain ⟨j, hj, body, hbody, hms, hns⟩ := h
  refine ⟨j, List.mem_of_find?_eq_some hj, by simpa using List.find?_some hj, body, ?_, hms, hns⟩
  cases hrun : ((jobBody graph plan j.node).run.run (.ofPlan plan)).1 with
  | error e => simp [hrun, Except.toOption] at hbody
  | ok body' =>
    rw [hrun] at hbody
    exact congrArg _ (Option.some.inj hbody)

/-- The function copied into the second job is generated up to the local, which is strayed to. -/
theorem jobBody_covers_each : Plan.make graph = .ok plan ∧ ∃ j ∈ plan.jobs, j.node = ⟨1⟩ ∧
    ∃ body, ((jobBody graph plan j.node).run.run (.ofPlan plan)).1 = .ok body ∧
      ∃ b ∈ plan.boundaries, b.node = ⟨1⟩ ∧ ∃ x ∈ body.functions, ⟨4⟩ ∈ nodesOf x.2 ∧
        (b.Covers graph ⟨4⟩ ∨ b.Strays graph ⟨4⟩) := by
  obtain ⟨j, hj, hnode, body, hrun, -, hfunctions⟩ := exists_jobBody emitted_each
  obtain ⟨b, hb, hbnode, -, hall⟩ := jobBody_covers (Graph.reachable_build _ _) make_graph hj hrun
  obtain ⟨x, hx, hn⟩ := List.mem_flatMap.1 (hfunctions ▸ List.mem_singleton.2 rfl)
  exact ⟨make_graph, j, hj, hnode, body, hrun, b, hb, hbnode.trans hnode, x, hx, hn,
    hall x.2 (.inr ⟨x.1, hx⟩) _ hn⟩

/-- The first job schedules itself, and the second job has a copy of the function with the local.
Neither of the two nodes was analyzed for the job. -/
theorem jobBody_not_covers : graph.Reachable ∧ graph.settings.flavor.isSystem ∧
    Plan.make graph = .ok plan ∧
    (∃ j ∈ plan.jobs, ∃ body, ((jobBody graph plan j.node).run.run (.ofPlan plan)).1 = .ok body ∧
      ∃ b ∈ plan.boundaries, b.node = j.node ∧ ∃ n ∈ nodesOf body.execute, ¬b.Covers graph n) ∧
    ∃ j ∈ plan.jobs, ∃ body, ((jobBody graph plan j.node).run.run (.ofPlan plan)).1 = .ok body ∧
      ∃ b ∈ plan.boundaries, b.node = j.node ∧
        ∃ x ∈ body.functions, ∃ n ∈ nodesOf x.2, ¬b.Covers graph n := by
  have hself : ∃ b ∈ plan.boundaries, b.node = ⟨0⟩ ∧ ¬b.Covers graph ⟨0⟩ := by decide +kernel
  have heach : ∃ b ∈ plan.boundaries, b.node = ⟨1⟩ ∧ ¬b.Covers graph ⟨4⟩ := by decide +kernel
  refine ⟨Graph.reachable_build _ _, by decide +kernel, make_graph, ?_, ?_⟩
  · obtain ⟨j, hj, hnode, body, hrun, hexecute, -⟩ := exists_jobBody emitted_self
    obtain ⟨b, hb, hbnode, hcovers⟩ := hself
    exact ⟨j, hj, body, hrun, b, hb, hbnode.trans hnode.symm, ⟨0⟩, by simp [hexecute], hcovers⟩
  · obtain ⟨j, hj, hnode, body, hrun, -, hfunctions⟩ := exists_jobBody emitted_each
    obtain ⟨b, hb, hbnode, hcovers⟩ := heach
    obtain ⟨x, hx, hn⟩ := List.mem_flatMap.1 (hfunctions ▸ List.mem_singleton.2 rfl)
    exact ⟨j, hj, body, hrun, b, hb, hbnode.trans hnode.symm, x, hx, ⟨4⟩, hn, hcovers⟩

end Loose

end Draft

end EntityFlow
