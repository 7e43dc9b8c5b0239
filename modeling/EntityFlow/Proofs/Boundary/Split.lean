import EntityFlow.Boundary
import EntityFlow.Proofs.Graph.Invariant
import Mathlib

/-!
# How a boundary splits a graph

Around a boundary `b` a graph falls into three parts that do not meet: `b` itself, the nodes with a
path into it, and its body.  The body is described without a search: among the sets of other nodes
that hold the targets of the body port, are closed under flow, and are closed under going back to
the pure producer of a value, it is the least.
-/

namespace EntityFlow

/-! ## Closures keep the order of their domain -/

/-- A round keeps the order of the domain. -/
theorem grow_sublist {α : Type} [DecidableEq α] {domain s : List α} {next : α → List α} :
    (grow domain next s).Sublist domain := List.filter_sublist

theorem saturate_sublist {α : Type} [DecidableEq α] {domain s : List α} {next : α → List α}
    (rounds : Nat) (hs : s.Sublist domain) : (saturate domain next rounds s).Sublist domain := by
  induction rounds generalizing s with
  | zero => exact hs
  | succ rounds ih =>
    simp only [saturate]
    split
    · exact hs
    · exact ih grow_sublist

/-- The closure lists its elements in the order of the domain. -/
theorem closure_sublist {α : Type} [DecidableEq α] {domain start : List α} {next : α → List α} :
    (closure domain next start).Sublist domain := saturate_sublist _ List.filter_sublist

namespace Graph

variable {g : Graph} {b m n : NodeId} {body r : PortRef} {before : List NodeId} {e : Edge}

/-! ## Steps of the two searches -/

def Feeds (g : Graph) (m n : NodeId) : Prop :=
  ∃ e ∈ g.live, e.source.node = m ∧ e.target.node = n

def IsFlowPort (g : Graph) (r : PortRef) : Prop := ∃ p, g.port? r = some p ∧ p.isFlow

def IsValuePort (g : Graph) (r : PortRef) : Prop := ∃ p, g.port? r = some p ∧ p.isValue

def IsPureProducer (g : Graph) (n : NodeId) : Prop := ∃ node, g.node? n = some node ∧ node.isPure

theorem isValueInput_iff : g.isValueInput r ↔ g.IsValuePort r := by
  simp [isValueInput, IsValuePort, Option.any_eq_true]

/-- Purity as the boundary reads it off from the ports is that of pure producers. -/
theorem isPureNode_iff : g.isPureNode n ↔ g.IsPureProducer n := by
  simp [isPureNode, IsPureProducer, Option.any_eq_true]

theorem mem_slotIds {node : Node} (h : g.node? n = some node) : n ∈ g.slotIds :=
  List.mem_map.2 ⟨n.index, List.mem_range.2 (lt_bound_of_node? h), rfl⟩

theorem mem_feeders (h : g.Anchored) : m ∈ g.feeders n ↔ g.Feeds m n := by
  simp only [feeders, List.mem_map, Prod.exists, h.mem_incoming]
  constructor
  · rintro ⟨i, o, ⟨rfl, e, he, rfl, rfl⟩, rfl⟩
    exact ⟨e, he, rfl, rfl⟩
  · rintro ⟨e, he, rfl, rfl⟩
    exact ⟨e.target, e.source, ⟨rfl, e, he, rfl, rfl⟩, rfl⟩

/-- A body goes on along a flow output, or back to the pure producer of a value. -/
theorem mem_bodySteps (h : g.Anchored) : m ∈ g.bodySteps n ↔
    (∃ e ∈ g.live, e.source.node = n ∧ g.IsFlowPort e.source ∧ e.target.node = m) ∨
    ∃ e ∈ g.live, e.target.node = n ∧ g.IsValuePort e.target ∧
      g.IsPureProducer e.source.node ∧ e.source.node = m := by
  simp only [bodySteps, List.mem_append, List.mem_map, List.mem_filter, Prod.exists,
    h.mem_outgoing, h.mem_incoming, Bool.and_eq_true, isValueInput_iff, isPureNode_iff]
  constructor
  · rintro (⟨o, i, ⟨⟨rfl, e, he, rfl, rfl⟩, hp⟩, rfl⟩ |
      ⟨i, o, ⟨⟨rfl, e, he, rfl, rfl⟩, hi, ho⟩, rfl⟩)
    · exact .inl ⟨e, he, rfl, by simpa [IsFlowPort, Option.any_eq_true] using hp, rfl⟩
    · exact .inr ⟨e, he, rfl, hi, ho, rfl⟩
  · rintro (⟨e, he, rfl, hp, rfl⟩ | ⟨e, he, rfl, hi, ho, rfl⟩)
    · refine .inl ⟨e.source, e.target, ⟨⟨rfl, e, he, rfl, rfl⟩, ?_⟩, rfl⟩
      simpa [IsFlowPort, Option.any_eq_true] using hp
    · exact .inr ⟨e.target, e.source, ⟨⟨rfl, e, he, rfl, rfl⟩, hi, ho⟩, rfl⟩

/-! ## What runs before -/

/-- The nodes before a boundary are those from which it can be reached, itself excepted. -/
theorem mem_predecessors (h : g.Anchored) :
    n ∈ g.predecessors b ↔ n ≠ b ∧ Relation.TransGen g.Feeds n b := by
  simp only [predecessors, List.mem_filter, ne_eq, decide_not, Bool.not_eq_true',
    decide_eq_false_iff_not]
  rw [and_comm]
  refine and_congr_right fun hne => ⟨fun hn => ?_, fun hn => ?_⟩
  · have hpath : Relation.ReflTransGen g.Feeds n b := by
      refine closure_induction (p := fun n => Relation.ReflTransGen g.Feeds n b) ?_ ?_ n hn
      · intro n hs _
        rw [List.mem_singleton.1 hs]
      · intro m hm n hn _
        exact .head ((mem_feeders h).1 hn) hm
    rcases Relation.reflTransGen_iff_eq_or_transGen.1 hpath with heq | hpath
    · exact absurd heq.symm hne
    · exact hpath
  · -- induction along the path, from its last connection back to `n`
    clear hne
    induction hn using Relation.TransGen.head_induction_on with
    | single hfeed =>
      obtain ⟨e, he, rfl, rfl⟩ := hfeed
      obtain ⟨s, hs⟩ := h.source e he
      obtain ⟨t, ht⟩ := h.target e he
      have hb : e.target.node ∈ closure g.slotIds g.feeders [e.target.node] :=
        mem_closure_of_mem (mem_slotIds ht) (by simp)
      exact mem_closure_of_next (mem_slotIds hs) hb ((mem_feeders h).2 ⟨e, he, rfl, rfl⟩)
    | head hfeed _ ih =>
      obtain ⟨e, he, rfl, rfl⟩ := hfeed
      obtain ⟨s, hs⟩ := h.source e he
      exact mem_closure_of_next (mem_slotIds hs) ih ((mem_feeders h).2 ⟨e, he, rfl, rfl⟩)

/-! ## The body -/

/-- A set of nodes beside the boundary and what runs before it that holds the targets of the body
port there, and with a node also what its flow outputs lead to there and the pure producers there
that it reads. -/
structure IsBody (g : Graph) (b : NodeId) (body : PortRef) (before : List NodeId)
    (S : Set NodeId) : Prop where
  beside : ∀ n ∈ S, n ≠ b ∧ n ∉ before
  start : ∀ e ∈ g.live, e.source = body → e.target.node ≠ b → e.target.node ∉ before →
    e.target.node ∈ S
  flow : ∀ e ∈ g.live, e.source.node ∈ S → g.IsFlowPort e.source → e.target.node ≠ b →
    e.target.node ∉ before → e.target.node ∈ S
  pure : ∀ e ∈ g.live, e.target.node ∈ S → g.IsValuePort e.target →
    g.IsPureProducer e.source.node → e.source.node ≠ b → e.source.node ∉ before →
    e.source.node ∈ S

/-- The body is closed: under flow, and under the pure producers that it reads. -/
theorem isBody_bodyNodes (h : g.Anchored) :
    g.IsBody b body before {n | n ∈ g.bodyNodes b body before} where
  beside n hn := by
    refine closure_induction (p := fun n => n ≠ b ∧ n ∉ before) ?_ ?_ n hn
    · intro n hs _
      simpa using (List.mem_filter.1 hs).2
    · intro m _ n hn _
      simpa using (List.mem_filter.1 hn).2
  start e he hs hb hbefore := by
    obtain ⟨t, ht⟩ := h.target e he
    refine mem_closure_of_mem (mem_slotIds ht) (List.mem_filter.2 ⟨List.mem_map.2 ?_, ?_⟩)
    · exact ⟨e.target, h.mem_targetsOf.2 ⟨e, he, hs, rfl⟩, rfl⟩
    · simp [hb, hbefore]
  flow e he hn hp hb hbefore := by
    obtain ⟨t, ht⟩ := h.target e he
    refine mem_closure_of_next (mem_slotIds ht) hn (List.mem_filter.2 ⟨?_, by simp [hb, hbefore]⟩)
    exact (mem_bodySteps h).2 (.inl ⟨e, he, rfl, hp, rfl⟩)
  pure e he hn hi ho hb hbefore := by
    obtain ⟨s, hs⟩ := h.source e he
    refine mem_closure_of_next (mem_slotIds hs) hn (List.mem_filter.2 ⟨?_, by simp [hb, hbefore]⟩)
    exact (mem_bodySteps h).2 (.inr ⟨e, he, rfl, hi, ho, rfl⟩)

/-- The body contains nothing that such a set could do without. -/
theorem bodyNodes_subset {S : Set NodeId} (h : g.Anchored) (hS : g.IsBody b body before S)
    (hn : n ∈ g.bodyNodes b body before) : n ∈ S := by
  refine closure_induction (p := fun n => n ∈ S) ?_ ?_ n hn
  · intro n hs _
    obtain ⟨hs, hin⟩ := List.mem_filter.1 hs
    obtain ⟨i, hi, rfl⟩ := List.mem_map.1 hs
    obtain ⟨e, he, hsource, rfl⟩ := h.mem_targetsOf.1 hi
    have hin : e.target.node ≠ b ∧ e.target.node ∉ before := by simpa using hin
    exact hS.start e he hsource hin.1 hin.2
  · intro m hm n hn _
    obtain ⟨hstep, hin⟩ := List.mem_filter.1 hn
    have hin : n ≠ b ∧ n ∉ before := by simpa using hin
    rcases (mem_bodySteps h).1 hstep with ⟨e, he, rfl, hp, rfl⟩ | ⟨e, he, rfl, hi, ho, rfl⟩
    · exact hS.flow e he hm hp hin.1 hin.2
    · exact hS.pure e he hm hi ho hin.1 hin.2

/-- The body is the least set of its kind. -/
theorem isLeast_bodyNodes (h : g.Anchored) :
    IsLeast {S | g.IsBody b body before S} {n | n ∈ g.bodyNodes b body before} :=
  ⟨isBody_bodyNodes h, fun _ hS _ hn => bodyNodes_subset h hS hn⟩

/-! ## Order -/

theorem pairwise_slotIds (g : Graph) : g.slotIds.Pairwise fun m n => m.index < n.index := by
  rw [slotIds, List.pairwise_map]
  exact List.pairwise_lt_range

/-- The nodes before a boundary are in order. -/
theorem pairwise_predecessors (g : Graph) (b : NodeId) :
    (g.predecessors b).Pairwise fun m n => m.index < n.index :=
  ((pairwise_slotIds g).sublist closure_sublist).filter _

/-- The nodes of a body are in order. -/
theorem pairwise_bodyNodes (g : Graph) (b : NodeId) (body : PortRef) (before : List NodeId) :
    (g.bodyNodes b body before).Pairwise fun m n => m.index < n.index :=
  (pairwise_slotIds g).sublist closure_sublist

end Graph

namespace Boundary

variable {g : Graph} {b : NodeId} {body : PortRef} {a : Boundary}

/-- There is a boundary exactly if something is connected to the body port. -/
theorem analyze?_eq_none_iff (h : g.Anchored) :
    analyze? g b body = none ↔ ∀ e ∈ g.live, e.source ≠ body := by
  simp only [analyze?]
  split
  · rename_i hempty
    refine iff_of_true rfl fun e he hs => ?_
    have hmem := h.mem_targetsOf.2 ⟨e, he, hs, rfl⟩
    rw [List.isEmpty_iff.1 hempty] at hmem
    exact List.not_mem_nil hmem
  · rename_i hne
    refine iff_of_false (by simp) fun hnone => hne (List.isEmpty_iff.2 ?_)
    refine List.eq_nil_iff_forall_not_mem.2 fun i hi => ?_
    obtain ⟨e, he, hs, -⟩ := h.mem_targetsOf.1 hi
    exact hnone e he hs

/-- The parts of an analysis are those of the graph. -/
theorem fields_eq (ha : analyze? g b body = some a) :
    a.node = b ∧ a.before = g.predecessors b ∧ a.after = g.bodyNodes b body a.before := by
  simp only [analyze?] at ha
  split at ha
  · exact absurd ha (by simp)
  · rw [← Option.some.inj ha]
    exact ⟨rfl, rfl, rfl⟩

theorem node_eq (ha : analyze? g b body = some a) : a.node = b := (fields_eq ha).1

theorem before_eq (ha : analyze? g b body = some a) : a.before = g.predecessors b :=
  (fields_eq ha).2.1

theorem after_eq (ha : analyze? g b body = some a) : a.after = g.bodyNodes b body a.before :=
  (fields_eq ha).2.2

theorem body_eq (ha : analyze? g b body = some a) : a.body = body := by
  simp only [analyze?] at ha
  split at ha
  · exact absurd ha (by simp)
  · rw [← Option.some.inj ha]

/-- What stands after a boundary is its body. -/
theorem isBody_after (h : g.Anchored) (ha : analyze? g b body = some a) :
    g.IsBody b body a.before {n | n ∈ a.after} := by
  rw [after_eq ha]
  exact Graph.isBody_bodyNodes h

/-- The split of a reachable graph around any node, cyclic or not: there is one unless nothing
leaves the body port, and then `before` holds the other nodes with a path into the boundary, `after`
is its least body, both are listed by ascending index, and the boundary and the two lists do not
meet. -/
theorem analyze?_split (hg : g.Reachable) (b : NodeId) (body : PortRef) :
    (analyze? g b body = none ↔ ∀ e ∈ g.live, e.source ≠ body) ∧
    ∀ a, analyze? g b body = some a →
      (∀ n, n ∈ a.before ↔ n ≠ b ∧ Relation.TransGen g.Feeds n b) ∧
      IsLeast {S | g.IsBody b body a.before S} {n | n ∈ a.after} ∧
      (a.before.Pairwise fun m n => m.index < n.index) ∧
      (a.after.Pairwise fun m n => m.index < n.index) ∧
      b ∉ a.before ∧ b ∉ a.after ∧ ∀ n ∈ a.before, n ∉ a.after := by
  have h := hg.invariant.anchored
  refine ⟨analyze?_eq_none_iff h, fun a ha => ?_⟩
  have hbody := isBody_after h ha
  refine ⟨fun n => ?_, ?_, ?_, ?_, ?_, fun hb => (hbody.beside b hb).1 rfl,
    fun n hn hafter => (hbody.beside n hafter).2 hn⟩
  · rw [before_eq ha]
    exact Graph.mem_predecessors h
  · rw [after_eq ha]
    exact Graph.isLeast_bodyNodes h
  · rw [before_eq ha]
    exact Graph.pairwise_predecessors g b
  · rw [after_eq ha]
    exact Graph.pairwise_bodyNodes g b body a.before
  · rw [before_eq ha, Graph.mem_predecessors h]
    exact fun hb => hb.1 rfl

/-- A local is made, then a job starts.  The body of the job runs in a circle: it assigns the local
to another one, which is made only after the job. -/
def circle : Graph := Graph.build {} [
  .addNode "Update" (.event .update) ContainerTree.root,
  .addNode "x" (.localVar "x" .int) ContainerTree.root,
  .addNode "Each" (.foreach { items := [], run := .schedule }) ContainerTree.root,
  .addNode "Set" .setValue ContainerTree.root,
  .addNode "y" (.localVar "y" .int) ContainerTree.root,
  .connect ⟨0⟩ "exit" ⟨1⟩ "enter", .connect ⟨1⟩ "exit" ⟨2⟩ "enter",
  .connect ⟨2⟩ "body" ⟨3⟩ "enter", .connect ⟨3⟩ "exit" ⟨3⟩ "enter",
  .connect ⟨2⟩ "exit" ⟨4⟩ "enter", .connect ⟨4⟩ "Out" ⟨3⟩ "target",
  .connect ⟨1⟩ "Out" ⟨3⟩ "value"]

theorem circle_reachable : circle.Reachable := Graph.reachable_build _ _

/-- The loop in the middle of the circle, analyzed. -/
theorem circle_analyze? : analyze? circle ⟨2⟩ ⟨⟨2⟩, 1⟩ = some
    { node := ⟨2⟩, body := ⟨⟨2⟩, 1⟩, before := [⟨0⟩, ⟨1⟩], after := [⟨3⟩]
      crossings := [(⟨⟨1⟩, 3⟩, [⟨⟨3⟩, 2⟩])], unavailable := [(⟨⟨3⟩, 1⟩, ⟨⟨4⟩, 3⟩)]
      vars := [], properties := [], functions := [] } := by
  cbv

/-- The nodes on both sides of the loop in a circle. -/
theorem analyze?_split_circle : ∃ a, analyze? circle ⟨2⟩ ⟨⟨2⟩, 1⟩ = some a ∧
    a.before = [⟨0⟩, ⟨1⟩] ∧ a.after = [⟨3⟩] ∧
    IsLeast {S | circle.IsBody ⟨2⟩ ⟨⟨2⟩, 1⟩ a.before S} {n | n ∈ a.after} := by
  refine ⟨_, circle_analyze?, rfl, rfl, ?_⟩
  exact ((analyze?_split circle_reachable ⟨2⟩ ⟨⟨2⟩, 1⟩).2 _ circle_analyze?).2.1

end Boundary

end EntityFlow
