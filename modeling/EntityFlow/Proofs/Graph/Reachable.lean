import EntityFlow.Graph.Build
import EntityFlow.Proofs.Slots

/-!
# Graphs that can be built

A graph is *reachable* when a finite sequence of building operations leads to it from an empty
graph, whether or not each operation succeeds.  Below, one lemma per operation says everything that
follows from its success: what it checked, and the graph it answers with.  They are about graphs
without threads, which all reachable graphs are.
-/

namespace EntityFlow

/-- A sequence of two computations succeeds when both do. -/
theorem bind_eq_ok {ε α β : Type} {x : Except ε α} {f : α → Except ε β} {b : β} :
    x >>= f = .ok b ↔ ∃ a, x = .ok a ∧ f a = .ok b := by
  cases x <;> simp [bind, Except.bind]

theorem pure_eq_ok {ε α : Type} {a b : α} : (pure a : Except ε α) = .ok b ↔ a = b := by
  simp [pure, Except.pure]

theorem throw_ne_ok {ε α : Type} {e : ε} {a : α} : (throw e : Except ε α) ≠ .ok a := nofun

/-- A computation whose result passes a check has one. -/
theorem exists_ok_of_any {ε α : Type} {x : Except ε α} {c : α → Bool}
    (h : x.toOption.any c = true) : ∃ a, x = .ok a ∧ c a = true := by
  cases x with
  | error e => exact absurd h (by simp [Except.toOption])
  | ok a => exact ⟨a, rfl, by simpa [Except.toOption] using h⟩

/-! ## Sequences of operations -/

/-- A call of a building operation. -/
inductive BuildStep where
  | addFunction (name : String) (params : List Parameter) (returns : Option TypeRef)
      (isStatic : Bool)
  | addVariable (v : Variable)
  | addProperty (p : Property)
  | addNode (name : String) (kind : NodeKind) (container : ContainerId)
  | connect (source : NodeId) (output : String) (target : NodeId) (input : String)
  | connectPorts (source target : PortRef)
  | disconnect (e : EdgeId)
deriving DecidableEq, Repr

namespace Graph

/-- The graph after an operation on `g`: the one it answers with, or `g` itself if it fails. -/
def outcome {α : Type} (g : Graph) : Except GraphError (α × Graph) → Graph
  | .ok (_, g') => g'
  | .error _ => g

def step (g : Graph) : BuildStep → Graph
  | .addFunction name params returns isStatic =>
      g.outcome (g.addFunction name params returns isStatic)
  | .addVariable v => (g.addVariable v).2
  | .addProperty p => g.outcome (g.addProperty p)
  | .addNode name kind container => g.outcome (g.addNode name kind container)
  | .connect source output target input => g.outcome (g.connect source output target input)
  | .connectPorts source target => g.outcome (g.connectPorts source target)
  | .disconnect e => g.outcome (g.disconnect e)

def build (settings : Settings) (steps : List BuildStep) : Graph :=
  steps.foldl step (empty settings)

/-- Graphs that some sequence of calls builds. -/
def Reachable (g : Graph) : Prop := ∃ settings steps, build settings steps = g

/-- What is built call by call is reachable. -/
theorem reachable_build (settings : Settings) (steps : List BuildStep) :
    (build settings steps).Reachable := ⟨settings, steps, rfl⟩

/-- What holds of the empty graphs and is kept by every call holds of every reachable graph. -/
theorem Reachable.induction {P : Graph → Prop} (empty : ∀ settings, P (.empty settings))
    (step : ∀ g s, P g → P (g.step s)) {g : Graph} (hg : g.Reachable) : P g := by
  obtain ⟨settings, steps, rfl⟩ := hg
  have run : ∀ g, P g → P (steps.foldl Graph.step g) := by
    induction steps with
    | nil => exact fun g h => h
    | cons s rest ih => exact fun g h => ih _ (step g s h)
  exact run _ (empty settings)

/-- An operation keeps what it keeps whenever it succeeds. -/
theorem outcome_of_ok {α : Type} {P : Graph → Prop} {g : Graph} {r : Except GraphError (α × Graph)}
    (h : P g) (hok : ∀ a g', r = .ok (a, g') → P g') : P (g.outcome r) := by
  cases r with
  | error e => exact h
  | ok r => exact hok r.1 r.2 rfl

end Graph

/-! ## What success says -/

namespace Member

variable {x : Member}

theorem asFunction_eq_some {f : Function} : x.asFunction = some f ↔ x = .function f := by
  cases x <;> simp [asFunction]

theorem asProperty_eq_some {p : Property} : x.asProperty = some p ↔ x = .property p := by
  cases x <;> simp [asProperty]

theorem asVariable_eq_some {v : Variable} : x.asVariable = some v ↔ x = .variable v := by
  cases x <;> simp [asVariable]

end Member

namespace ContainerTree

variable {t t' : ContainerTree} {c x : ContainerId} {kind : ContainerKind} {parent : ContainerId}

theorem contains_iff : t.contains c ↔ ∃ d, t.get? c = some d := by
  rw [contains, Option.isSome_iff_exists]

theorem contains_iff_lt : t.contains c ↔ c.index < t.size := by
  simp [contains, get?, size]

/-- A new container is the last of its tree, and the others stay what they are. -/
theorem add_eq_ok (h : t.add kind parent = .ok (c, t')) :
    c = ⟨t.size⟩ ∧ t'.size = t.size + 1 ∧ t'.get? c = some ⟨c, kind, some parent, []⟩ ∧
      ∀ x d, t.get? x = some d → ∃ d', t'.get? x = some d' ∧ d'.kind = d.kind := by
  simp only [add] at h
  split at h
  · obtain ⟨rfl, rfl⟩ : (⟨t.size⟩ : ContainerId) = c ∧ _ = t' := by simpa using h
    refine ⟨rfl, by simp [size], by simp [get?, size], fun x d hx => ?_⟩
    have hlt : x.index < t.size := contains_iff_lt.1 (contains_iff.2 ⟨d, hx⟩)
    have hx' : t.containers[x.index]? = some d := hx
    rw [get?, List.getElem?_append_left (by simpa [size] using hlt), List.getElem?_modify, hx']
    refine ⟨_, rfl, ?_⟩
    split <;> rfl
  · exact absurd h (by simp)

end ContainerTree

namespace Graph

/-- One more member, and perhaps more containers. -/
def declare (g : Graph) (t : ContainerTree) (x : Member) : Graph :=
  { g with containers := t, members := g.members ++ [x] }

def nextNode (g : Graph) : NodeId := ⟨g.nodes.next⟩

/-- One more node, which becomes the entry of the function it starts. -/
def withNode (g : Graph) (node : Node) : Graph :=
  { g with
    nodes := (g.nodes.insert node).2
    members := setEntry g.members g.nextNode node.kind }

def withEdge (g : Graph) (e : Edge) : Graph := { g with edges := (g.edges.insert e).2 }

def withoutEdge (g : Graph) (id : EdgeId) : Graph := { g with edges := g.edges.erase id.index }

variable {g g' : Graph} {n : NodeId} {m : MemberId}

/-- What a successful call that adds a function leads to. -/
theorem addFunction_eq_ok {name : String} {params : List Parameter} {returns : Option TypeRef}
    {isStatic : Bool} (h : g.addFunction name params returns isStatic = .ok (m, g')) :
    m = ⟨g.members.length⟩ ∧ ∃ c t, g.containers.add (.function m) ContainerTree.root = .ok (c, t) ∧
      g' = g.declare t (.function ⟨name, params, returns, isStatic, c, none⟩) := by
  simp only [addFunction, bind_eq_ok, pure_eq_ok] at h
  obtain ⟨⟨c, t⟩, hadd, heq⟩ := h
  obtain ⟨rfl, rfl⟩ := Prod.mk.inj heq
  exact ⟨rfl, c, t, hadd, rfl⟩

/-- What a successful call that adds a property has checked. -/
theorem addProperty_eq_ok {p : Property} (h : g.addProperty p = .ok (m, g')) :
    (∀ b, p.backing = some b → ∃ v, g.member? b = some (.variable v)) ∧
      g' = g.declare g.containers (.property p) := by
  simp only [addProperty] at h
  cases hb : p.backing with
  | none =>
    simp only [hb, pure_eq_ok] at h
    obtain ⟨-, rfl⟩ := Prod.mk.inj h
    exact ⟨by simp, rfl⟩
  | some b =>
    simp only [hb] at h
    cases hv : (g.member? b).bind Member.asVariable with
    | none =>
      simp only [hv, Option.isNone_none, if_true, bind_eq_ok, throw_ne_ok, false_and,
        exists_false] at h
    | some v =>
      simp only [hv, Option.isNone_some, Bool.false_eq_true, if_false, pure_eq_ok] at h
      obtain ⟨-, rfl⟩ := Prod.mk.inj h
      refine ⟨fun b' hb' => ?_, rfl⟩
      obtain rfl : b = b' := by simpa using hb'
      obtain ⟨x, hx, hv'⟩ := Option.bind_eq_some_iff.1 hv
      exact ⟨v, by rw [hx, Member.asVariable_eq_some.1 hv']⟩

/-- What a successful call that adds a node has checked, and leads to. -/
theorem addNode_eq_ok {name : String} {kind : NodeKind} {container : ContainerId}
    (hu : g.threads = none) (h : g.addNode name kind container = .ok (n, g')) :
    g.containers.contains container ∧ ∃ job ports, g.jobKind kind = .ok job ∧
      kind.layout g.members job = .ok ports ∧ g.checkEntry kind = .ok () ∧
      n = g.nextNode ∧ g' = g.withNode ⟨name, kind, container, ports⟩ := by
  cases hc : g.containers.contains container with
  | false => simp [addNode, hc, bind_eq_ok, throw_ne_ok] at h
  | true =>
    simp only [addNode, hc, Bool.not_true, Bool.false_eq_true, if_false, bind_eq_ok, pure_eq_ok,
      place, hu] at h
    obtain ⟨job, hjob, ports, hports, ⟨⟩, hentry, heq⟩ := h
    obtain ⟨rfl, rfl⟩ := Prod.mk.inj heq
    exact ⟨rfl, job, ports, hjob, hports,
      hentry, by simp [nextNode], by simp [withNode, nextNode, hu]⟩

/-- A connection joins an output to an input, both for flow or both for values. -/
theorem edgeKind_eq_ok {s t : Port} {k : EdgeKind} (h : edgeKind s t = .ok k) :
    s.isOutput ∧ t.isInput ∧
      (k = .flow ∧ s.isFlow ∧ t.isFlow ∨ k = .value ∧ s.isValue ∧ t.isValue) := by
  simp only [edgeKind] at h
  split at h
  · exact absurd h (by simp)
  rename_i hdir
  have hio : s.isOutput ∧ t.isInput := by simpa using hdir
  refine ⟨hio.1, hio.2, ?_⟩
  split at h
  · rename_i hflow
    obtain rfl : EdgeKind.flow = k := by simpa using h
    exact .inl ⟨rfl, by simpa using hflow⟩
  · split at h
    · exact absurd h (by simp)
    · rename_i hvalue
      obtain rfl : EdgeKind.value = k := by simpa using h
      exact .inr ⟨rfl, by simpa [Port.isValue] using hvalue⟩

theorem requirePort_eq_ok {r : PortRef} {p : Port} :
    g.requirePort r = .ok p ↔ g.port? r = some p := by
  rw [requirePort]
  cases g.port? r <;> simp

/-- What a successful call that connects two ports has checked, and leads to. -/
theorem connectPorts_eq_ok {source target : PortRef} {id : EdgeId} (hu : g.threads = none)
    (h : g.connectPorts source target = .ok (id, g')) :
    ∃ s t k, g.port? source = some s ∧ g.port? target = some t ∧ edgeKind s t = .ok k ∧
      (k = .value → source.node ≠ target.node ∧ g.sourceOf? target = none) ∧
      id = ⟨g.edges.next⟩ ∧ g' = g.withEdge ⟨source, target, k⟩ := by
  simp only [connectPorts, bind_eq_ok, requirePort_eq_ok, hu, Option.map_none] at h
  obtain ⟨s, hs, t, ht, k, hk, hrest⟩ := h
  refine ⟨s, t, k, hs, ht, hk, ?_⟩
  cases k with
  | flow =>
    simp only [reduceCtorEq, if_false, pure_eq_ok] at hrest
    obtain ⟨rfl, rfl⟩ := Prod.mk.inj hrest
    exact ⟨by simp, by simp, by simp [withEdge, hu]⟩
  | value =>
    by_cases hself : source.node = target.node
    · simp [hself, bind_eq_ok, throw_ne_ok] at hrest
    cases hsrc : g.sourceOf? target with
    | some r =>
      simp only [if_true, hself, if_false, hsrc, Option.isSome_some, bind_eq_ok, throw_ne_ok,
        false_and, exists_false] at hrest
    | none =>
      simp only [if_true, hself, if_false, hsrc, Option.isSome_none, Bool.false_eq_true,
        pure_eq_ok] at hrest
      obtain ⟨rfl, rfl⟩ := Prod.mk.inj hrest
      exact ⟨fun _ => ⟨hself, rfl⟩, by simp, by simp [withEdge, hu]⟩

/-- Ports are looked up by name before they are connected. -/
theorem connect_eq_ok {source target : NodeId} {output input : String} {id : EdgeId}
    (h : g.connect source output target input = .ok (id, g')) :
    ∃ s t, g.portRef source output = .ok s ∧ g.portRef target input = .ok t ∧
      g.connectPorts s t = .ok (id, g') := by
  simp only [connect, bind_eq_ok] at h
  obtain ⟨s, hs, t, ht, h⟩ := h
  exact ⟨s, t, hs, ht, h⟩

/-- A successful call removes the connection that the identity denotes. -/
theorem disconnect_eq_ok {id : EdgeId} {e : Edge} (hu : g.threads = none)
    (h : g.disconnect id = .ok (e, g')) :
    g.edges.get? id.index = some e ∧ g' = g.withoutEdge id := by
  cases he : g.edges.get? id.index with
  | none => simp [disconnect, he] at h
  | some e' =>
    simp only [disconnect, he, hu, Option.map_none, Except.ok.injEq, Prod.mk.injEq] at h
    obtain ⟨rfl, rfl⟩ := h
    exact ⟨rfl, by simp [withoutEdge, hu]⟩

end Graph

end EntityFlow
