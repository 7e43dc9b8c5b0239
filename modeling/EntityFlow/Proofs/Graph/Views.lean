import EntityFlow.Proofs.Graph.Invariant

/-!
# Five questions about one relation

What feeds an input, what an output feeds, and what is connected to a node in either direction are
asked apart, each time by another walk over the connections.  All the answers count a connection as
often as it was made, so an answer at one end of a connection can be told from an answer at the
other.  Whether a port is connected is asked in the direction of the port only, and that is enough:
a connection that was built starts at an output and ends at an input.
-/

namespace EntityFlow

namespace Graph

variable {g : Graph} {i o r : PortRef}

/-- How many live connections lead from an output to an input. -/
def multiplicity (g : Graph) (o i : PortRef) : Nat :=
  g.live.countP fun e => e.source = o && e.target = i

/-! ## Counting -/

/-- A sorted view counts a connection as often as it is live, if what the view keeps and shows tells
its two ends. -/
theorem count_mergeSort_view {β : Type} [BEq β] [LawfulBEq β] {keep : Edge → Bool}
    {view : Edge → β} {b : β} (g : Graph) (le : β → β → Bool)
    (h : ∀ e, view e = b ∧ keep e = true ↔ e.source = o ∧ e.target = i) :
    (((g.live.filter keep).map view).mergeSort le).count b = g.multiplicity o i := by
  rw [(List.mergeSort_perm _ le).count_eq, List.count, List.countP_map, List.countP_filter]
  refine List.countP_congr fun e _ => ?_
  simp only [Function.comp_apply, Bool.and_eq_true, beq_iff_eq, decide_eq_true_eq]
  exact h e

namespace Anchored

variable (h : g.Anchored)

include h

/-- A source is listed as often as it is connected. -/
theorem count_sourcesOf (i o : PortRef) : (g.sourcesOf i).count o = g.multiplicity o i := by
  rw [sourcesOf, h.edgesInto, List.filter_filter]
  refine count_mergeSort_view g _ fun e => ?_
  simp only [Bool.and_eq_true, decide_eq_true_eq]
  exact and_congr_right fun _ => and_iff_left_of_imp fun ht => congrArg PortRef.node ht

/-- A target is listed as often as it is connected. -/
theorem count_targetsOf (i o : PortRef) : (g.targetsOf o).count i = g.multiplicity o i := by
  rw [targetsOf, h.edgesFrom, List.filter_filter]
  refine count_mergeSort_view g _ fun e => ?_
  simp only [Bool.and_eq_true, decide_eq_true_eq]
  rw [and_comm]
  exact and_congr_left fun _ => and_iff_left_of_imp fun hs => congrArg PortRef.node hs

/-- An incoming connection is listed as often as there is one. -/
theorem count_incoming (i o : PortRef) : (g.incoming i.node).count (i, o) = g.multiplicity o i := by
  rw [incoming, h.edgesInto]
  refine count_mergeSort_view g _ fun e => ?_
  simp only [Prod.mk.injEq, decide_eq_true_eq]
  rw [and_comm (a := e.source = o)]
  exact and_iff_left_of_imp fun ht => congrArg PortRef.node ht.1

/-- An outgoing connection is listed as often as there is one. -/
theorem count_outgoing (i o : PortRef) : (g.outgoing o.node).count (o, i) = g.multiplicity o i := by
  rw [outgoing, h.edgesFrom]
  refine count_mergeSort_view g _ fun e => ?_
  simp only [Prod.mk.injEq, decide_eq_true_eq]
  exact and_iff_left_of_imp fun hs => congrArg PortRef.node hs.1

end Anchored

/-! ## Order -/

theorem pairwise_sourcesOf (g : Graph) (i : PortRef) :
    (g.sourcesOf i).Pairwise fun a b => a.le b = true :=
  List.pairwise_mergeSort PortRef.le_trans PortRef.le_total _

theorem pairwise_targetsOf (g : Graph) (o : PortRef) :
    (g.targetsOf o).Pairwise fun a b => a.le b = true :=
  List.pairwise_mergeSort PortRef.le_trans PortRef.le_total _

theorem pairwise_outgoing (g : Graph) (n : NodeId) :
    (g.outgoing n).Pairwise fun a b => PortRef.pairLe a b = true :=
  List.pairwise_mergeSort PortRef.pairLe_trans PortRef.pairLe_total _

/-- The output that feeds an input is the least one that is connected to it. -/
theorem Anchored.sourceOf?_eq_some_iff (h : g.Anchored) : g.sourceOf? i = some o ↔
    (∃ e ∈ g.live, e.source = o ∧ e.target = i) ∧
      ∀ e ∈ g.live, e.target = i → o.le e.source = true := by
  have hsorted := g.pairwise_sourcesOf i
  constructor
  · intro ho
    rw [sourceOf?_eq_head?] at ho
    refine ⟨h.mem_sourcesOf.1 (List.mem_of_head? ho), fun e he ht => ?_⟩
    have hmem : e.source ∈ g.sourcesOf i := h.mem_sourcesOf.2 ⟨e, he, rfl, ht⟩
    obtain ⟨rest, hrest⟩ := List.head?_eq_some_iff.1 ho
    rw [hrest] at hmem hsorted
    rcases List.mem_cons.1 hmem with hfirst | hlater
    · rw [hfirst]
      exact PortRef.le_refl o
    · exact List.rel_of_pairwise_cons hsorted hlater
  · rintro ⟨hmade, hleast⟩
    have hmem : o ∈ g.sourcesOf i := h.mem_sourcesOf.2 hmade
    cases hlist : g.sourcesOf i with
    | nil =>
      rw [hlist] at hmem
      exact absurd hmem List.not_mem_nil
    | cons first rest =>
      obtain ⟨e, he, rfl, ht⟩ :=
        h.mem_sourcesOf.1 (hlist ▸ List.mem_cons_self : first ∈ g.sourcesOf i)
      have hfirst : e.source.le o = true := by
        rw [hlist] at hmem hsorted
        rcases List.mem_cons.1 hmem with hsame | hlater
        · rw [hsame]
          exact PortRef.le_refl _
        · exact List.rel_of_pairwise_cons hsorted hlater
      rw [sourceOf?_eq_head?, hlist, List.head?_cons, PortRef.le_antisymm hfirst (hleast e he ht)]

/-! ## Ports that are connected -/

theorem Anchored.isEmpty_sourcesOf (h : g.Anchored) :
    (g.sourcesOf r).isEmpty = false ↔ ∃ e ∈ g.live, e.target = r := by
  rw [List.isEmpty_eq_false_iff_exists_mem]
  simp only [h.mem_sourcesOf]
  constructor
  · rintro ⟨-, e, he, -, ht⟩
    exact ⟨e, he, ht⟩
  · rintro ⟨e, he, ht⟩
    exact ⟨e.source, e, he, rfl, ht⟩

theorem Anchored.isEmpty_targetsOf (h : g.Anchored) :
    (g.targetsOf r).isEmpty = false ↔ ∃ e ∈ g.live, e.source = r := by
  rw [List.isEmpty_eq_false_iff_exists_mem]
  simp only [h.mem_targetsOf]
  constructor
  · rintro ⟨-, e, he, hs, -⟩
    exact ⟨e, he, hs⟩
  · rintro ⟨e, he, hs⟩
    exact ⟨e.target, e, he, hs, rfl⟩

/-- A connection starts at an output, so it does not start at an input, and the other way round. -/
theorem Joins.isInput_of_end {e : Edge} {p : Port} (h : g.Joins e) (hr : g.port? r = some p) :
    (e.source = r → p.isInput = false) ∧ (e.target = r → p.isInput = true) := by
  obtain ⟨s, t, hs, ht, hout, hin, -⟩ := h
  constructor
  · rintro rfl
    obtain rfl := Option.some.inj (hs.symm.trans hr)
    simp only [Port.isOutput, Port.isInput, beq_iff_eq] at hout ⊢
    rw [hout]
    rfl
  · rintro rfl
    rwa [← Option.some.inj (ht.symm.trans hr)]

/-- A port is connected exactly if it exists and a connection ends or starts there. -/
theorem Invariant.isConnected_iff (h : g.Invariant) : g.isConnected r = true ↔
    (∃ p, g.port? r = some p) ∧ ∃ e ∈ g.live, e.source = r ∨ e.target = r := by
  unfold isConnected
  cases hr : g.port? r with
  | none => simp
  | some p =>
    have hdirection : ∀ e ∈ g.live, (e.source = r → p.isInput = false) ∧
        (e.target = r → p.isInput = true) := fun e he => (h.joins_of_mem he).isInput_of_end hr
    cases hin : p.isInput with
    | true =>
      have hends : (∃ e ∈ g.live, e.source = r ∨ e.target = r) ↔ ∃ e ∈ g.live, e.target = r := by
        refine exists_congr fun e => and_congr_right fun he => or_iff_right fun hs => ?_
        exact absurd (hin.symm.trans ((hdirection e he).1 hs)) nofun
      rw [hends, ← h.anchored.isEmpty_sourcesOf]
      simp [hin]
    | false =>
      have hstarts : (∃ e ∈ g.live, e.source = r ∨ e.target = r) ↔ ∃ e ∈ g.live, e.source = r := by
        refine exists_congr fun e => and_congr_right fun he => or_iff_left fun ht => ?_
        exact absurd (hin.symm.trans ((hdirection e he).2 ht)) nofun
      rw [hstarts, ← h.anchored.isEmpty_targetsOf]
      simp [hin]

/-! ## All questions -/

/-- The answers about connections are views of the live connections. -/
structure ViewsAgree (g : Graph) : Prop where
  count : ∀ i o, (g.sourcesOf i).count o = g.multiplicity o i ∧
    (g.targetsOf o).count i = g.multiplicity o i ∧
    (g.incoming i.node).count (i, o) = g.multiplicity o i ∧
    (g.outgoing o.node).count (o, i) = g.multiplicity o i
  /-- All lists ascend, those of pairs by the port of the node that was asked about first. -/
  ascending : (∀ i, (g.sourcesOf i).Pairwise fun a b => a.le b = true) ∧
    (∀ o, (g.targetsOf o).Pairwise fun a b => a.le b = true) ∧
    (∀ n, (g.incoming n).Pairwise fun a b => PortRef.pairLe a b = true) ∧
    ∀ n, (g.outgoing n).Pairwise fun a b => PortRef.pairLe a b = true
  first : ∀ i, g.sourceOf? i = (g.sourcesOf i).head?
  /-- So it is the least output that is connected to the input. -/
  least : ∀ i o, g.sourceOf? i = some o ↔ 0 < g.multiplicity o i ∧
    ∀ o', 0 < g.multiplicity o' i → o.le o' = true
  connected : ∀ r, g.isConnected r = true ↔
    (∃ p, g.port? r = some p) ∧ ∃ e ∈ g.live, e.source = r ∨ e.target = r

/-- Two ports are connected exactly if there is at least one connection between them. -/
theorem multiplicity_pos_iff :
    0 < g.multiplicity o i ↔ ∃ e ∈ g.live, e.source = o ∧ e.target = i := by
  simp [multiplicity, List.countP_pos_iff]

/-- In every graph that can be built, the questions about connections are answered from one
relation. -/
theorem Reachable.viewsAgree (hg : g.Reachable) : g.ViewsAgree := by
  have h := hg.invariant.anchored
  refine ⟨fun i o => ⟨h.count_sourcesOf i o, h.count_targetsOf i o, h.count_incoming i o,
    h.count_outgoing i o⟩, ⟨g.pairwise_sourcesOf, g.pairwise_targetsOf, g.pairwise_incoming,
    g.pairwise_outgoing⟩, g.sourceOf?_eq_head?, fun i o => ?_,
    fun r => hg.invariant.isConnected_iff⟩
  rw [h.sourceOf?_eq_some_iff, multiplicity_pos_iff]
  refine and_congr_right fun _ => ⟨fun hleast o' ho' => ?_, fun hleast e he ht => ?_⟩
  · obtain ⟨e, he, rfl, ht⟩ := multiplicity_pos_iff.1 ho'
    exact hleast e he ht
  · exact hleast e.source (multiplicity_pos_iff.2 ⟨e, he, rfl, ht⟩)

/-- Flow that was connected twice, and an entity that two nodes read. -/
def doubled : Graph := build {} [
  .addNode "Update" (.event .update) ContainerTree.root,
  .addNode "Create" .createEntity ContainerTree.root,
  .addNode "Destroy" .destroyEntity ContainerTree.root,
  .addNode "Health" (.getComponent none) ContainerTree.root,
  .connect ⟨0⟩ "exit" ⟨1⟩ "enter", .connect ⟨1⟩ "entity" ⟨3⟩ "entity",
  .connect ⟨0⟩ "exit" ⟨1⟩ "enter", .connect ⟨1⟩ "entity" ⟨2⟩ "entity"]

/-- Two connections between the same two ports, counted twice by every view. -/
theorem viewsAgree_doubled : doubled.ViewsAgree ∧ doubled.live.length = 4 ∧
    (doubled.sourcesOf ⟨⟨1⟩, 0⟩).count ⟨⟨0⟩, 0⟩ = 2 ∧
    (doubled.outgoing ⟨0⟩).count (⟨⟨0⟩, 0⟩, ⟨⟨1⟩, 0⟩) = 2 ∧
    (doubled.incoming ⟨2⟩).count (⟨⟨2⟩, 1⟩, ⟨⟨1⟩, 2⟩) = 1 ∧
    doubled.isConnected ⟨⟨1⟩, 2⟩ = true := by
  have hviews : doubled.ViewsAgree := Reachable.viewsAgree (reachable_build _ _)
  obtain ⟨hlive, htwice, honce, hport⟩ : doubled.live.length = 4 ∧
      doubled.multiplicity ⟨⟨0⟩, 0⟩ ⟨⟨1⟩, 0⟩ = 2 ∧ doubled.multiplicity ⟨⟨1⟩, 2⟩ ⟨⟨2⟩, 1⟩ = 1 ∧
      (doubled.port? ⟨⟨1⟩, 2⟩).isSome = true := by decide +kernel
  refine ⟨hviews, hlive, (hviews.count _ _).1.trans htwice, (hviews.count _ _).2.2.2.trans htwice,
    (hviews.count ⟨⟨2⟩, 1⟩ _).2.2.1.trans honce, (hviews.connected _).2 ⟨?_, ?_⟩⟩
  · exact Option.isSome_iff_exists.1 hport
  · obtain ⟨e, he, hs, -⟩ := multiplicity_pos_iff.1 (honce ▸ Nat.one_pos)
    exact ⟨e, he, .inl hs⟩

end Graph

end EntityFlow
