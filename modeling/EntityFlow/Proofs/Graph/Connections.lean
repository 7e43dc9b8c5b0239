import EntityFlow.Graph.Basic
import EntityFlow.Proofs.Slots

/-!
# Connection queries as views of the live connections

`sourcesOf`, `targetsOf`, `incoming` and `outgoing` sort and cut the same list.  In a graph whose
connections all join existing nodes, membership in each of them is membership in that list, whatever
node is asked about.
-/

namespace EntityFlow

namespace PortRef

variable {a b c : PortRef × PortRef}

theorem le_refl (r : PortRef) : r.le r = true := by simp [le]

theorem pairLe_total (a b : PortRef × PortRef) : (pairLe a b || pairLe b a) = true := by
  by_cases h : a.1 = b.1
  · simpa [pairLe, h] using le_total a.2 b.2
  · simpa [pairLe, h, Ne.symm h] using le_total a.1 b.1

theorem pairLe_trans (a b c : PortRef × PortRef) (hab : pairLe a b = true)
    (hbc : pairLe b c = true) : pairLe a c = true := by
  simp only [pairLe] at *
  split at hab
  · rename_i h
    rw [h]
    split at hbc
    · rename_i h'
      simpa [h'] using le_trans _ _ _ hab hbc
    · rename_i h'
      simpa [h'] using hbc
  · rename_i h
    split at hbc
    · rename_i h'
      rw [← h']
      simpa [h] using hab
    · rename_i h'
      have hac : a.1 ≠ c.1 := fun hc => h (le_antisymm hab (by rw [hc]; exact hbc))
      simpa [hac] using le_trans _ _ _ hab hbc

/-- The least port is found by going through the list once. -/
theorem foldl_least (r : PortRef) (rest : List PortRef) :
    let a := rest.foldl (fun a b => if le a b then a else b) r
    a ∈ r :: rest ∧ ∀ b ∈ r :: rest, a.le b = true := by
  induction rest generalizing r with
  | nil => simpa using le_refl r
  | cons s rest ih =>
    rw [List.foldl_cons]
    obtain ⟨hmem, hle⟩ := ih (if le r s then r else s)
    by_cases hrs : le r s = true
    · rw [if_pos hrs] at hmem hle ⊢
      have hfirst := hle r List.mem_cons_self
      refine ⟨?_, List.forall_mem_cons.2 ⟨hfirst, List.forall_mem_cons.2 ⟨?_, ?_⟩⟩⟩
      · rcases List.mem_cons.1 hmem with h | h
        · exact List.mem_cons.2 (.inl h)
        · exact List.mem_cons_of_mem _ (List.mem_cons_of_mem _ h)
      · exact le_trans _ _ _ hfirst hrs
      · exact fun b hb => hle b (List.mem_cons_of_mem _ hb)
    · rw [if_neg hrs] at hmem hle ⊢
      have hsr : le s r = true := by simpa [hrs] using le_total r s
      have hfirst := hle s List.mem_cons_self
      refine ⟨List.mem_cons_of_mem _ hmem, List.forall_mem_cons.2 ⟨?_, hle⟩⟩
      exact le_trans _ _ _ hfirst hsr

/-- The least of some ports is the first one once they are sorted. -/
theorem least?_eq_head? (rs : List PortRef) : least? rs = (rs.mergeSort le).head? := by
  cases rs with
  | nil => simp [least?]
  | cons r rest =>
    obtain ⟨hmem, hle⟩ := foldl_least r rest
    have hsorted := List.pairwise_mergeSort le_trans le_total (r :: rest)
    cases hlist : (r :: rest).mergeSort le with
    | nil => exact absurd (hlist ▸ List.mem_mergeSort.2 hmem) List.not_mem_nil
    | cons first others =>
      have hfirst : first ∈ r :: rest := List.mem_mergeSort.1 (hlist ▸ List.mem_cons_self)
      have hleast : rest.foldl (fun s t => if s.le t then s else t) r ∈ (r :: rest).mergeSort le :=
        List.mem_mergeSort.2 hmem
      rw [hlist] at hsorted hleast
      refine congrArg some (le_antisymm (hle first hfirst) ?_)
      rcases List.mem_cons.1 hleast with h | h
      · rw [h]
        exact le_refl _
      · exact List.rel_of_pairwise_cons hsorted h

/-- The first ports of pairs in order are in order. -/
theorem le_of_pairLe (h : pairLe a b = true) : a.1.le b.1 = true := by
  simp only [pairLe] at h
  split at h
  · rename_i heq
    rw [heq]
    exact le_refl _
  · exact h

end PortRef

namespace Graph

variable {g : Graph} {n : NodeId} {e : Edge} {i o : PortRef}

/-- What feeds an input is the first of its sources. -/
theorem sourceOf?_eq_head? (g : Graph) (i : PortRef) : g.sourceOf? i = (g.sourcesOf i).head? :=
  PortRef.least?_eq_head? _

/-- What feeds an input is one of its sources. -/
theorem mem_sourcesOf_of_sourceOf? (h : g.sourceOf? i = some o) : o ∈ g.sourcesOf i :=
  List.mem_of_head? ((g.sourceOf?_eq_head? i).symm.trans h)

/-- A live connection has an index. -/
theorem mem_live : e ∈ g.live ↔ ∃ k, g.edges.get? k = some e := Slots.mem_toList

theorem lt_foldl_max {is : List Nat} {b k : Nat} :
    k < is.foldl (fun b i => max b (i + 1)) b ↔ k < b ∨ ∃ i ∈ is, k ≤ i := by
  induction is generalizing b with
  | nil => simp
  | cons i is ih =>
    have hmax : k < max b (i + 1) ↔ k < b ∨ k ≤ i := by omega
    rw [List.foldl_cons, ih, hmax, or_assoc]
    simp only [List.mem_cons, exists_eq_or_imp]

/-- The index of a node is below the bound. -/
theorem lt_bound_of_node? {node : Node} (h : g.node? n = some node) : n.index < g.bound := by
  refine lt_foldl_max.2 (.inr ⟨n.index, List.mem_append_left _ ?_, Nat.le_refl _⟩)
  refine List.mem_filter.2 ⟨List.mem_range.2 (Slots.lt_size_of_get? h), ?_⟩
  exact Option.isSome_iff_exists.2 ⟨node, h⟩

theorem port?_eq_some_iff {p : Port} :
    g.port? o = some p ↔ ∃ node, g.node? o.node = some node ∧ node.port? o.port = some p := by
  rw [port?, Option.bind_eq_some_iff]

/-- Connections join existing nodes and need no threads. -/
structure Anchored (g : Graph) : Prop where
  threads : g.threads = none
  source : ∀ e ∈ g.live, ∃ node, g.node? e.source.node = some node
  target : ∀ e ∈ g.live, ∃ node, g.node? e.target.node = some node

namespace Anchored

/-- The connections into a node are the live ones that end at it. -/
theorem edgesInto (h : g.Anchored) (n : NodeId) :
    g.edgesInto n = g.live.filter fun e => e.target.node = n := by
  rw [Graph.edgesInto, h.threads]
  split
  · rfl
  · rename_i hn
    refine (List.filter_eq_nil_iff.2 fun e he heq => hn ?_).symm
    obtain ⟨node, hnode⟩ := h.target e he
    rw [← of_decide_eq_true heq, hnode]
    rfl

/-- The connections out of a node are the live ones that start at it. -/
theorem edgesFrom (h : g.Anchored) (n : NodeId) :
    g.edgesFrom n = g.live.filter fun e => e.source.node = n := by
  rw [Graph.edgesFrom, h.threads]
  split
  · rfl
  · rename_i hn
    refine (List.filter_eq_nil_iff.2 fun e he heq => hn ?_).symm
    obtain ⟨node, hnode⟩ := h.source e he
    rw [← of_decide_eq_true heq, hnode]
    rfl

/-- The sources of an input are what it is connected to. -/
theorem mem_sourcesOf (h : g.Anchored) :
    o ∈ g.sourcesOf i ↔ ∃ e ∈ g.live, e.source = o ∧ e.target = i := by
  simp only [sourcesOf, List.mem_mergeSort, List.mem_map, List.mem_filter, h.edgesInto,
    decide_eq_true_eq]
  constructor
  · rintro ⟨e, ⟨⟨he, -⟩, ht⟩, hs⟩
    exact ⟨e, he, hs, ht⟩
  · rintro ⟨e, he, hs, ht⟩
    exact ⟨e, ⟨⟨he, by rw [ht]⟩, ht⟩, hs⟩

/-- The targets of an output are what it is connected to. -/
theorem mem_targetsOf (h : g.Anchored) :
    i ∈ g.targetsOf o ↔ ∃ e ∈ g.live, e.source = o ∧ e.target = i := by
  simp only [targetsOf, List.mem_mergeSort, List.mem_map, List.mem_filter, h.edgesFrom,
    decide_eq_true_eq]
  constructor
  · rintro ⟨e, ⟨⟨he, -⟩, hs⟩, ht⟩
    exact ⟨e, he, hs, ht⟩
  · rintro ⟨e, he, hs, ht⟩
    exact ⟨e, ⟨⟨he, by rw [hs]⟩, hs⟩, ht⟩

/-- Nothing feeds an input exactly if no connection ends at it. -/
theorem sourceOf?_eq_none_iff (h : g.Anchored) :
    g.sourceOf? i = none ↔ ∀ e ∈ g.live, e.target ≠ i := by
  rw [sourceOf?_eq_head?, List.head?_eq_none_iff, List.eq_nil_iff_forall_not_mem]
  constructor
  · exact fun hn e he ht => hn e.source (h.mem_sourcesOf.2 ⟨e, he, rfl, ht⟩)
  · intro hn o ho
    obtain ⟨e, he, -, ht⟩ := h.mem_sourcesOf.1 ho
    exact hn e he ht

/-- What comes into a node is what is connected to its ports. -/
theorem mem_incoming (h : g.Anchored) :
    (i, o) ∈ g.incoming n ↔ i.node = n ∧ ∃ e ∈ g.live, e.source = o ∧ e.target = i := by
  simp only [incoming, List.mem_mergeSort, List.mem_map, List.mem_filter, h.edgesInto,
    decide_eq_true_eq, Prod.mk.injEq]
  constructor
  · rintro ⟨e, ⟨he, hn⟩, rfl, rfl⟩
    exact ⟨hn, e, he, rfl, rfl⟩
  · rintro ⟨rfl, e, he, rfl, rfl⟩
    exact ⟨e, ⟨he, rfl⟩, rfl, rfl⟩

/-- What goes out of a node is what its ports are connected to. -/
theorem mem_outgoing (h : g.Anchored) :
    (o, i) ∈ g.outgoing n ↔ o.node = n ∧ ∃ e ∈ g.live, e.source = o ∧ e.target = i := by
  simp only [outgoing, List.mem_mergeSort, List.mem_map, List.mem_filter, h.edgesFrom,
    decide_eq_true_eq, Prod.mk.injEq]
  constructor
  · rintro ⟨e, ⟨he, hn⟩, rfl, rfl⟩
    exact ⟨hn, e, he, rfl, rfl⟩
  · rintro ⟨rfl, e, he, rfl, rfl⟩
    exact ⟨e, ⟨he, rfl⟩, rfl, rfl⟩

end Anchored

theorem pairwise_incoming (g : Graph) (n : NodeId) :
    (g.incoming n).Pairwise fun a b => PortRef.pairLe a b = true :=
  List.pairwise_mergeSort PortRef.pairLe_trans PortRef.pairLe_total _

end Graph

end EntityFlow
