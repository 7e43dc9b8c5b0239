import EntityFlow.Proofs.Graph.Connections
import EntityFlow.Proofs.Graph.Reachable

/-!
# The invariant of building

Building never undoes a declaration: nodes, containers and members stay what they were, apart from
the entry that a function gets.  `Extends` says so, and whatever a graph says about the ports of a
node or the members it refers to passes to every extension.  With that, each operation keeps
`Invariant`, and so every reachable graph is `WellFormed`.
-/

namespace EntityFlow

/-- The member without what building may still change: the entry of a function. -/
def Member.bare : Member → Member
  | .function f => .function { f with entry := none }
  | m => m

namespace Member

variable {x : Member}

theorem bare_eq_property {p : Property} : x.bare = .property p ↔ x = .property p := by
  cases x <;> simp [bare]

theorem bare_eq_variable {v : Variable} : x.bare = .variable v ↔ x = .variable v := by
  cases x <;> simp [bare]

/-- Two members that differ in the entry at most are functions alike. -/
theorem bare_eq_function {f : Function} (h : x.bare = (Member.function f).bare) :
    ∃ f', x = .function f' ∧ { f' with entry := none } = { f with entry := none } := by
  cases x <;> simp_all [bare]

end Member

namespace Graph

variable {g g' : Graph} {n : NodeId} {m : MemberId} {e : Edge} {x : Member}

/-! ## Extension -/

/-- Everything declared in `g` is declared in `g'`. -/
structure Extends (g g' : Graph) : Prop where
  node : ∀ n node, g.node? n = some node → g'.node? n = some node
  container : ∀ c d, g.containers.get? c = some d →
    ∃ d', g'.containers.get? c = some d' ∧ d'.kind = d.kind
  member : ∀ m x, g.member? m = some x → ∃ x', g'.member? m = some x' ∧ x'.bare = x.bare

theorem Extends.refl (g : Graph) : g.Extends g where
  node _ _ h := h
  container _ d h := ⟨d, h, rfl⟩
  member _ x h := ⟨x, h, rfl⟩

/-- Ports stay as they are in an extension. -/
theorem Extends.port {r : PortRef} {p : Port} (h : g.Extends g') (hp : g.port? r = some p) :
    g'.port? r = some p := by
  obtain ⟨node, hn, hr⟩ := port?_eq_some_iff.1 hp
  exact port?_eq_some_iff.2 ⟨node, h.node _ _ hn, hr⟩

theorem Extends.kind {k : NodeKind} (h : g.Extends g') (hk : g.kind? n = some k) :
    g'.kind? n = some k := by
  obtain ⟨node, hn, rfl⟩ := Option.map_eq_some_iff.1 hk
  exact Option.map_eq_some_iff.2 ⟨node, h.node _ _ hn, rfl⟩

/-- Functions stay as they are in an extension, but for their entry. -/
theorem Extends.function {f : Function} (h : g.Extends g') (hf : g.member? m = some (.function f)) :
    ∃ f', g'.member? m = some (.function f') ∧
      { f' with entry := none } = { f with entry := none } := by
  obtain ⟨x, hx, hb⟩ := h.member _ _ hf
  obtain ⟨f', rfl, hf'⟩ := Member.bare_eq_function hb
  exact ⟨f', hx, hf'⟩

theorem Extends.property {p : Property} (h : g.Extends g')
    (hp : g.member? m = some (.property p)) : g'.member? m = some (.property p) := by
  obtain ⟨x, hx, hb⟩ := h.member _ _ hp
  rw [hx, Member.bare_eq_property.1 hb]

theorem Extends.variable {v : Variable} (h : g.Extends g')
    (hv : g.member? m = some (.variable v)) : g'.member? m = some (.variable v) := by
  obtain ⟨x, hx, hb⟩ := h.member _ _ hv
  rw [hx, Member.bare_eq_variable.1 hb]

/-! ## Well-formed graphs -/

/-- A connection joins an output to an input, and it is of the kind that both are. -/
def Joins (g : Graph) (e : Edge) : Prop :=
  ∃ s t, g.port? e.source = some s ∧ g.port? e.target = some t ∧ s.isOutput ∧ t.isInput ∧
    (e.kind = .flow ∧ s.isFlow ∧ t.isFlow ∨ e.kind = .value ∧ s.isValue ∧ t.isValue)

/-- What a node of that kind refers to exists, and is what the reference says. -/
def Refers (g : Graph) : NodeKind → Prop
  | .functionEntry m | .member (.function m) => ∃ f, g.member? m = some (.function f)
  | .member (.property m) => ∃ p, g.member? m = some (.property p)
  | .member (.variable m) => ∃ v, g.member? m = some (.variable v)
  | .executor _ (some job) => ∃ k, g.kind? job = some k ∧ k.isJob
  | _ => True

/-- A connection between two ports is one in every extension. -/
theorem Joins.mono (h : g.Joins e) (hx : g.Extends g') : g'.Joins e := by
  obtain ⟨s, t, hs, ht, hrest⟩ := h
  exact ⟨s, t, hx.port hs, hx.port ht, hrest⟩

/-- What a node refers to is still there in every extension. -/
theorem Refers.mono {k : NodeKind} (h : g.Refers k) (hx : g.Extends g') : g'.Refers k := by
  have function : ∀ m, (∃ f, g.member? m = some (.function f)) →
      ∃ f, g'.member? m = some (.function f) := by
    rintro m ⟨f, hf⟩
    obtain ⟨f', hf', -⟩ := hx.function hf
    exact ⟨f', hf'⟩
  unfold Refers at h ⊢
  split at h
  · exact function _ h
  · exact function _ h
  · obtain ⟨p, hp⟩ := h
    exact ⟨p, hx.property hp⟩
  · obtain ⟨v, hv⟩ := h
    exact ⟨v, hx.variable hv⟩
  · obtain ⟨k, hk, hjob⟩ := h
    exact ⟨k, hx.kind hk, hjob⟩
  · trivial

structure WellFormed (g : Graph) : Prop where
  joins : ∀ k e, g.edges.get? k = some e → g.Joins e
  /-- A value input has at most one connection. -/
  single : ∀ k l e f p, g.edges.get? k = some e → g.edges.get? l = some f →
    e.target = f.target → g.port? e.target = some p → p.isValue → k = l
  /-- No node feeds a value to itself. -/
  apart : ∀ k e, g.edges.get? k = some e → e.kind = .value → e.source.node ≠ e.target.node
  placed : ∀ n node, g.node? n = some node → g.containers.contains node.container
  refers : ∀ n node, g.node? n = some node → g.Refers node.kind
  /-- What backs a property is a variable. -/
  backed : ∀ m p b, g.member? m = some (.property p) → p.backing = some b →
    ∃ v, g.member? b = some (.variable v)
  /-- The container of a function is its own. -/
  bodies : ∀ m f, g.member? m = some (.function f) →
    ∃ c, g.containers.get? f.container = some c ∧ c.kind = .function m
  /-- The entry of a function is the node that starts it. -/
  entries : ∀ m f e, g.member? m = some (.function f) →
    (f.entry = some e ↔ g.kind? e = some (.functionEntry m))

/-- A well-formed graph with tables that are in order. -/
structure Invariant (g : Graph) : Prop extends g.WellFormed where
  threads : g.threads = none
  nodes : g.nodes.Coherent
  edges : g.edges.Coherent

/-- Every live connection joins an output to an input of its kind. -/
theorem WellFormed.joins_of_mem (h : g.WellFormed) (he : e ∈ g.live) : g.Joins e := by
  obtain ⟨k, hk⟩ := mem_live.1 he
  exact h.joins k e hk

theorem Joins.exists_source (h : g.Joins e) : ∃ node, g.node? e.source.node = some node := by
  obtain ⟨s, -, hs, -⟩ := h
  obtain ⟨node, hn, -⟩ := port?_eq_some_iff.1 hs
  exact ⟨node, hn⟩

theorem Joins.exists_target (h : g.Joins e) : ∃ node, g.node? e.target.node = some node := by
  obtain ⟨-, t, -, ht, -⟩ := h
  obtain ⟨node, hn, -⟩ := port?_eq_some_iff.1 ht
  exact ⟨node, hn⟩

/-- The connections of a graph with the invariant join existing nodes. -/
theorem Invariant.anchored (h : g.Invariant) : g.Anchored where
  threads := h.threads
  source _ he := (h.joins_of_mem he).exists_source
  target _ he := (h.joins_of_mem he).exists_target

/-- An empty graph has the invariant. -/
theorem invariant_empty (settings : Settings) : (empty settings).Invariant where
  joins := by simp [empty]
  single := by simp [empty]
  apart := by simp [empty]
  placed := by simp [empty, node?]
  refers := by simp [empty, node?]
  backed := by simp [empty, member?]
  bodies := by simp [empty, member?]
  entries := by simp [empty, member?]
  threads := rfl
  nodes := Slots.coherent_empty
  edges := Slots.coherent_empty

/-! ## Members -/

theorem index_lt_of_member? (h : g.member? m = some x) : m.index < g.members.length := by
  obtain ⟨hlt, -⟩ := List.getElem?_eq_some_iff.1 h
  exact hlt

/-- A declared member has the next index. -/
theorem member?_declare {t : ContainerTree} :
    (g.declare t x).member? m =
      if m.index = g.members.length then some x else g.member? m := by
  simp only [declare, member?, List.getElem?_append]
  split
  · rw [if_neg (by omega)]
  · split
    · rename_i h
      simp [h]
    · rw [List.getElem?_eq_none (by simp; omega), List.getElem?_eq_none (by omega)]

/-- Declaring a member extends the graph. -/
theorem extends_declare {t : ContainerTree} (ht : ∀ c d, g.containers.get? c = some d →
    ∃ d', t.get? c = some d' ∧ d'.kind = d.kind) : g.Extends (g.declare t x) where
  node _ _ h := h
  container := ht
  member m y hy := by
    have hlt := index_lt_of_member? hy
    exact ⟨y, by rw [member?_declare, if_neg (by omega), hy], rfl⟩

/-- A new member that is no function, or a function with a container of its own and no entry. -/
theorem Invariant.declare {t : ContainerTree} (h : g.Invariant) (hx : g.Extends (g.declare t x))
    (hp : ∀ p b, x = .property p → p.backing = some b → ∃ v, g.member? b = some (.variable v))
    (hf : ∀ f, x = .function f → f.entry = none ∧
      ∃ c, t.get? f.container = some c ∧ c.kind = .function ⟨g.members.length⟩) :
    (g.declare t x).Invariant where
  joins k e he := (h.joins k e he).mono hx
  single := h.single
  apart := h.apart
  placed n node hn := by
    obtain ⟨d, hd⟩ := ContainerTree.contains_iff.1 (h.placed n node hn)
    obtain ⟨d', hd', -⟩ := hx.container _ d hd
    exact ContainerTree.contains_iff.2 ⟨d', hd'⟩
  refers n node hn := (h.refers n node hn).mono hx
  backed m p b hm hb := by
    have hv : ∃ v, g.member? b = some (.variable v) := by
      rw [member?_declare] at hm
      split at hm
      · exact hp p b (Option.some.inj hm) hb
      · exact h.backed m p b hm hb
    obtain ⟨v, hv⟩ := hv
    exact ⟨v, hx.variable hv⟩
  bodies m f hm := by
    rw [member?_declare] at hm
    split at hm
    · rename_i hlen
      rw [← hlen] at hf
      exact (hf f (Option.some.inj hm)).2
    · obtain ⟨c, hc, hk⟩ := h.bodies m f hm
      obtain ⟨c', hc', hk'⟩ := hx.container _ c hc
      exact ⟨c', hc', hk'.trans hk⟩
  entries m f e hm := by
    rw [member?_declare] at hm
    split at hm
    · rename_i hlen
      rw [(hf f (Option.some.inj hm)).1]
      refine ⟨fun he => absurd he (by simp), fun he => ?_⟩
      -- a node that starts the new function would have referred to a missing member
      obtain ⟨node, hn, hk⟩ := Option.map_eq_some_iff.1 he
      have hr := h.refers e node hn
      rw [hk] at hr
      obtain ⟨f', hf'⟩ := hr
      have hlt := index_lt_of_member? hf'
      omega
    · exact h.entries m f e hm
  threads := h.threads
  nodes := h.nodes
  edges := h.edges

end Graph

/-! ## Nodes -/

/-- The member with node `n` as its entry, if it is a function. -/
def Member.enter (n : NodeId) : Member → Member
  | .function f => .function { f with entry := some n }
  | m => m

theorem Member.bare_enter (n : NodeId) (x : Member) : (x.enter n).bare = x.bare := by
  cases x <;> rfl

namespace Graph

variable {g g' : Graph} {n : NodeId} {m : MemberId} {e : Edge} {x : Member} {node : Node}

/-- Only the function of an entry changes when the entry is placed. -/
theorem getElem?_setEntry {members : List Member} {kind : NodeKind} :
    (setEntry members n kind)[m.index]? = (members[m.index]?).map fun x =>
      if kind = .functionEntry m then x.enter n else x := by
  unfold setEntry
  split
  · rename_i id
    rw [List.getElem?_modify]
    cases members[m.index]? with
    | none => rfl
    | some x =>
      by_cases hid : id = m
      · subst hid
        cases x <;> simp [Member.enter]
      · have hne : id.index ≠ m.index := fun h => hid (by cases id; cases m; exact congrArg _ h)
        simp [hid, hne]
  · rename_i hne
    have : ∀ x : Member, (if kind = .functionEntry m then x.enter n else x) = x := fun x =>
      if_neg fun h => hne m h
    simp [this]

/-- Placing a node changes no member, except for the entry of a function. -/
theorem member?_withNode : (g.withNode node).member? m = (g.member? m).map fun x =>
    if node.kind = .functionEntry m then x.enter g.nextNode else x :=
  getElem?_setEntry

theorem node?_nextNode (h : g.Invariant) : g.node? g.nextNode = none := Slots.get?_next h.nodes

/-- A new node has the next index, and the others keep theirs. -/
theorem node?_withNode (h : g.Invariant) :
    (g.withNode node).node? n = if n = g.nextNode then some node else g.node? n := by
  have hn : n.index = g.nodes.next ↔ n = g.nextNode := by
    cases n
    simp [nextNode]
  simp only [node?, withNode, Slots.get?_insert h.nodes, hn]

/-- Placing a node extends the graph. -/
theorem extends_withNode (h : g.Invariant) : g.Extends (g.withNode node) where
  node _ _ hn := Slots.get?_insert_of_get? h.nodes hn
  container _ d hd := ⟨d, hd, rfl⟩
  member m x hx := by
    refine ⟨_, by rw [member?_withNode, hx]; rfl, ?_⟩
    split
    · exact Member.bare_enter _ _
    · rfl

/-- A member of the graph with one more node is the old one, or has the node as its entry. -/
theorem member?_of_withNode (h : (g.withNode node).member? m = some x) :
    ∃ y, g.member? m = some y ∧
      x = if node.kind = .functionEntry m then y.enter g.nextNode else y := by
  rw [member?_withNode] at h
  obtain ⟨y, hy, rfl⟩ := Option.map_eq_some_iff.1 h
  exact ⟨y, hy, rfl⟩

theorem function_of_withNode {f : Function}
    (h : (g.withNode node).member? m = some (.function f)) :
    ∃ f₀, g.member? m = some (.function f₀) ∧
      f = if node.kind = .functionEntry m then { f₀ with entry := some g.nextNode } else f₀ := by
  obtain ⟨y, hy, heq⟩ := member?_of_withNode h
  cases y with
  | function f₀ =>
    refine ⟨f₀, hy, ?_⟩
    split at heq <;> simp_all [Member.enter]
  | property p => split at heq <;> simp [Member.enter] at heq
  | _ v => split at heq <;> simp [Member.enter] at heq

theorem property_of_withNode {p : Property}
    (h : (g.withNode node).member? m = some (.property p)) : g.member? m = some (.property p) := by
  obtain ⟨y, hy, heq⟩ := member?_of_withNode h
  cases y <;> split at heq <;> simp_all [Member.enter]

/-- A new node in a container, with its references in place; a function that it starts has no entry
yet. -/
theorem Invariant.withNode (h : g.Invariant) (hc : g.containers.contains node.container)
    (hr : g.Refers node.kind) (he : ∀ m f, node.kind = .functionEntry m →
      g.member? m = some (.function f) → f.entry = none) : (g.withNode node).Invariant where
  joins k e hk := (h.joins k e hk).mono (extends_withNode h)
  single k l e f p hk hl ht hp := by
    -- the port was there before, so its connections are governed by the old graph
    obtain ⟨-, t, -, hport, -⟩ := h.joins k e hk
    obtain rfl : t = p := Option.some.inj ((extends_withNode h).port hport ▸ hp)
    exact h.single k l e f t hk hl ht hport
  apart := h.apart
  placed n node' hn := by
    rw [node?_withNode h] at hn
    split at hn
    · rw [← Option.some.inj hn]
      exact hc
    · exact h.placed n node' hn
  refers n node' hn := by
    refine Refers.mono ?_ (extends_withNode h)
    rw [node?_withNode h] at hn
    split at hn
    · rw [← Option.some.inj hn]
      exact hr
    · exact h.refers n node' hn
  backed m p b hm hb := by
    obtain ⟨v, hv⟩ := h.backed m p b (property_of_withNode hm) hb
    exact ⟨v, (extends_withNode h).variable hv⟩
  bodies m f hm := by
    obtain ⟨f₀, hf₀, rfl⟩ := function_of_withNode hm
    obtain ⟨c, hc, hk⟩ := h.bodies m f₀ hf₀
    exact ⟨c, by split <;> exact hc, hk⟩
  entries m f e hm := by
    obtain ⟨f₀, hf₀, rfl⟩ := function_of_withNode hm
    have hold := h.entries m f₀ e hf₀
    have hkind : (g.withNode node).kind? e =
        if e = g.nextNode then some node.kind else g.kind? e := by
      rw [kind?, node?_withNode h]
      split <;> rfl
    have hfresh : g.kind? g.nextNode = none := by
      rw [kind?, node?_nextNode h]
      rfl
    rw [hkind]
    by_cases hn : e = g.nextNode
    · subst hn
      rw [hfresh] at hold
      by_cases hk : node.kind = .functionEntry m
      · simp [hk]
      · simp only [hk, if_false, if_true, Option.some.injEq, iff_false]
        exact fun hentry => absurd (hold.1 hentry) (by simp)
    · rw [if_neg hn, ← hold]
      by_cases hk : node.kind = .functionEntry m
      · simp [hk, he m f₀ hk hf₀, Ne.symm hn]
      · rw [if_neg hk]
  threads := h.threads
  nodes := h.nodes.insert
  edges := h.edges

/-! ## Connections -/

/-- A new connection between fitting ports; an input that it gives a value had none. -/
theorem Invariant.withEdge (h : g.Invariant) (hj : g.Joins e)
    (hv : e.kind = .value → e.source.node ≠ e.target.node ∧ ∀ f ∈ g.live, f.target ≠ e.target) :
    (g.withEdge e).Invariant where
  joins k f hk := by
    change (g.edges.insert e).2.get? k = some f at hk
    rw [Slots.get?_insert h.edges] at hk
    split at hk
    · rw [← Option.some.inj hk]
      exact hj
    · exact h.joins k f hk
  single k l f f' p hk hl ht hp hpv := by
    -- a second connection of a value input is ruled out by the check that there is none
    have hnew : ∀ f, f.target = e.target → g.port? e.target = some p → f ∉ g.live := by
      intro f hf hport hmem
      obtain ⟨s, t, -, htp, -, -, hflow | hvalue⟩ := hj
      · obtain rfl : t = p := Option.some.inj (htp ▸ hport)
        exact absurd hpv (by simp [Port.isValue, hflow.2.2])
      · exact (hv hvalue.1).2 f hmem hf
    change (g.edges.insert e).2.get? k = some f at hk
    change (g.edges.insert e).2.get? l = some f' at hl
    change g.port? f.target = some p at hp
    rw [Slots.get?_insert h.edges] at hk hl
    split at hk <;> split at hl
    · rename_i hkn hln
      rw [hkn, hln]
    · rw [← Option.some.inj hk] at ht hp
      exact absurd (mem_live.2 ⟨l, hl⟩) (hnew f' ht.symm hp)
    · rw [← Option.some.inj hl] at ht
      rw [ht] at hp
      exact absurd (mem_live.2 ⟨k, hk⟩) (hnew f ht hp)
    · exact h.single k l f f' p hk hl ht hp hpv
  apart k f hk hf := by
    change (g.edges.insert e).2.get? k = some f at hk
    rw [Slots.get?_insert h.edges] at hk
    split at hk
    · rw [← Option.some.inj hk] at hf ⊢
      exact (hv hf).1
    · exact h.apart k f hk hf
  placed := h.placed
  refers := h.refers
  backed := h.backed
  bodies := h.bodies
  entries := h.entries
  threads := h.threads
  nodes := h.nodes
  edges := h.edges.insert

theorem get?_of_withoutEdge {id : EdgeId} {k : Nat}
    (h : (g.withoutEdge id).edges.get? k = some e) : g.edges.get? k = some e := by
  change (g.edges.erase id.index).get? k = some e at h
  rw [Slots.get?_erase] at h
  split at h
  · exact absurd h (by simp)
  · exact h

/-- Removing a connection keeps the invariant. -/
theorem Invariant.withoutEdge (h : g.Invariant) (id : EdgeId) : (g.withoutEdge id).Invariant where
  joins k e hk := h.joins k e (get?_of_withoutEdge hk)
  single k l e f p hk hl := h.single k l e f p (get?_of_withoutEdge hk) (get?_of_withoutEdge hl)
  apart k e hk := h.apart k e (get?_of_withoutEdge hk)
  placed := h.placed
  refers := h.refers
  backed := h.backed
  bodies := h.bodies
  entries := h.entries
  threads := h.threads
  nodes := h.nodes
  edges := h.edges.erase

/-! ## Every operation -/

theorem lookup_eq_ok {α : Type} {view : Member → Option α} {a : α}
    (h : Layout.lookup g.members view m = .ok a) : ∃ x, g.member? m = some x ∧ view x = some a := by
  unfold Layout.lookup at h
  split at h
  · rename_i a' heq
    obtain rfl : a' = a := by simpa using h
    exact Option.bind_eq_some_iff.1 heq
  · exact absurd h (by simp)

/-- A layout is computed from the members a node refers to, and a job from the node it refers to. -/
theorem refers_of_layout {kind : NodeKind} {job : Option NodeKind} {ports : List Port}
    (hjob : g.jobKind kind = .ok job) (hports : kind.layout g.members job = .ok ports) :
    g.Refers kind := by
  unfold Refers
  split
  · simp only [NodeKind.layout, bind_eq_ok] at hports
    obtain ⟨f, hf, -⟩ := hports
    obtain ⟨x, hx, hv⟩ := lookup_eq_ok hf
    exact ⟨f, by rw [hx, Member.asFunction_eq_some.1 hv]⟩
  · simp only [NodeKind.layout, Layout.ofTarget, bind_eq_ok] at hports
    obtain ⟨f, hf, -⟩ := hports
    obtain ⟨x, hx, hv⟩ := lookup_eq_ok hf
    exact ⟨f, by rw [hx, Member.asFunction_eq_some.1 hv]⟩
  · simp only [NodeKind.layout, Layout.ofTarget, bind_eq_ok] at hports
    obtain ⟨p, hp, -⟩ := hports
    obtain ⟨x, hx, hv⟩ := lookup_eq_ok hp
    exact ⟨p, by rw [hx, Member.asProperty_eq_some.1 hv]⟩
  · simp only [NodeKind.layout, Layout.ofTarget, bind_eq_ok] at hports
    obtain ⟨v, hv, -⟩ := hports
    obtain ⟨x, hx, hv⟩ := lookup_eq_ok hv
    exact ⟨v, by rw [hx, Member.asVariable_eq_some.1 hv]⟩
  · rename_i j
    simp only [jobKind, bind_eq_ok] at hjob
    obtain ⟨node, hnode, hif⟩ := hjob
    split at hif
    · rename_i hk
      refine ⟨node.kind, ?_, hk⟩
      rw [Graph.node] at hnode
      split at hnode
      · rename_i node' hn
        rw [kind?, hn, Except.ok.inj hnode]
        rfl
      · exact absurd hnode (by simp)
    · exact absurd hif throw_ne_ok
  · trivial

/-- A function that already has an entry does not get a second one. -/
theorem entry_eq_none_of_checkEntry {f : Function} (h : g.checkEntry (.functionEntry m) = .ok ())
    (hf : g.member? m = some (.function f)) : f.entry = none := by
  simp only [checkEntry, function?, hf, Option.bind_some, Member.asFunction] at h
  split at h
  · exact absurd h (by simp)
  · rename_i hentry
    simpa using hentry

/-- Adding a function keeps the invariant. -/
theorem Invariant.addFunction {name : String} {params : List Parameter} {returns : Option TypeRef}
    {isStatic : Bool} (h : g.Invariant)
    (hok : g.addFunction name params returns isStatic = .ok (m, g')) : g'.Invariant := by
  obtain ⟨rfl, c, t, hadd, rfl⟩ := addFunction_eq_ok hok
  obtain ⟨-, -, hc, hold⟩ := ContainerTree.add_eq_ok hadd
  refine h.declare (extends_declare hold) (fun p b hx => absurd hx (by simp)) fun f hf => ?_
  obtain rfl := Member.function.inj hf
  exact ⟨rfl, _, hc, rfl⟩

theorem Invariant.addVariable (h : g.Invariant) (v : Variable) : (g.addVariable v).2.Invariant :=
  h.declare (t := g.containers) (extends_declare fun _ d hd => ⟨d, hd, rfl⟩)
    (fun _ _ hx => absurd hx (by simp)) fun _ hx => absurd hx (by simp)

/-- Adding a property keeps the invariant. -/
theorem Invariant.addProperty {p : Property} (h : g.Invariant)
    (hok : g.addProperty p = .ok (m, g')) : g'.Invariant := by
  obtain ⟨hb, rfl⟩ := addProperty_eq_ok hok
  refine h.declare (extends_declare fun _ d hd => ⟨d, hd, rfl⟩) (fun q b hq => ?_)
    fun _ hx => absurd hx (by simp)
  obtain rfl := Member.property.inj hq
  exact hb b

/-- Adding a node keeps the invariant. -/
theorem Invariant.addNode {name : String} {kind : NodeKind} {container : ContainerId}
    (h : g.Invariant) (hok : g.addNode name kind container = .ok (n, g')) : g'.Invariant := by
  obtain ⟨hc, job, ports, hjob, hports, hentry, -, rfl⟩ := addNode_eq_ok h.threads hok
  refine h.withNode hc (refers_of_layout hjob hports) fun m f hk hf => ?_
  change kind = .functionEntry m at hk
  rw [hk] at hentry
  exact entry_eq_none_of_checkEntry hentry hf

/-- Making a connection keeps the invariant. -/
theorem Invariant.connectPorts {source target : PortRef} {id : EdgeId} (h : g.Invariant)
    (hok : g.connectPorts source target = .ok (id, g')) : g'.Invariant := by
  obtain ⟨s, t, k, hs, ht, hk, hv, -, rfl⟩ := connectPorts_eq_ok h.threads hok
  refine h.withEdge ⟨s, t, hs, ht, edgeKind_eq_ok hk⟩ fun hvalue => ?_
  obtain ⟨hself, hsource⟩ := hv hvalue
  exact ⟨hself, h.anchored.sourceOf?_eq_none_iff.1 hsource⟩

/-- Every call keeps the invariant. -/
theorem Invariant.step (h : g.Invariant) (s : BuildStep) : (g.step s).Invariant := by
  cases s with
  | addFunction name params returns isStatic =>
    exact outcome_of_ok h fun _ _ hok => h.addFunction hok
  | addVariable v => exact h.addVariable v
  | addProperty p => exact outcome_of_ok h fun _ _ hok => h.addProperty hok
  | addNode name kind container => exact outcome_of_ok h fun _ _ hok => h.addNode hok
  | connect source output target input =>
    refine outcome_of_ok h fun _ _ hok => ?_
    obtain ⟨s, t, -, -, hports⟩ := connect_eq_ok hok
    exact h.connectPorts hports
  | connectPorts source target => exact outcome_of_ok h fun _ _ hok => h.connectPorts hok
  | disconnect id =>
    refine outcome_of_ok h fun _ _ hok => ?_
    obtain ⟨-, rfl⟩ := disconnect_eq_ok h.threads hok
    exact h.withoutEdge id

/-- Every graph that was built has the invariant. -/
theorem Reachable.invariant (hg : g.Reachable) : g.Invariant :=
  hg.induction invariant_empty fun _ s h => h.step s

/-! ## Reachable graphs -/

/-- Two functions have two containers. -/
theorem WellFormed.eq_of_container_eq (h : g.WellFormed) {m' : MemberId} {f f' : Function}
    (hf : g.member? m = some (.function f)) (hf' : g.member? m' = some (.function f'))
    (hc : f.container = f'.container) : m = m' := by
  obtain ⟨c, hget, hk⟩ := h.bodies m f hf
  obtain ⟨c', hget', hk'⟩ := h.bodies m' f' hf'
  rw [hc, hget'] at hget
  rw [← Option.some.inj hget, hk'] at hk
  exact (ContainerKind.function.inj hk).symm

/-- A function has one entry at most. -/
theorem WellFormed.eq_of_functionEntry (h : g.WellFormed) {e e' : NodeId}
    (he : g.kind? e = some (.functionEntry m)) (he' : g.kind? e' = some (.functionEntry m)) :
    e = e' := by
  obtain ⟨node, hn, hk⟩ := Option.map_eq_some_iff.1 he
  have hr := h.refers e node hn
  rw [hk] at hr
  obtain ⟨f, hf⟩ := hr
  have hentry := (h.entries m f e hf).2 he
  have hentry' := (h.entries m f e' hf).2 he'
  exact Option.some.inj (hentry.symm.trans hentry')

/-- Whatever calls were made and whether or not they succeeded, the graph is well formed; no two
functions share a container, and no function has two nodes that start it. -/
theorem wellFormed_build (settings : Settings) (steps : List BuildStep) :
    (build settings steps).WellFormed ∧
    (∀ m m' f f', (build settings steps).member? m = some (.function f) →
      (build settings steps).member? m' = some (.function f') → m ≠ m' →
      f.container ≠ f'.container) ∧
    ∀ m e e', (build settings steps).kind? e = some (.functionEntry m) →
      (build settings steps).kind? e' = some (.functionEntry m) → e = e' := by
  have h := (reachable_build settings steps).invariant.toWellFormed
  refine ⟨h, fun m m' f f' hf hf' hne hc => ?_, fun m e e' => h.eq_of_functionEntry⟩
  exact hne (h.eq_of_container_eq hf hf' hc)

end Graph

end EntityFlow
