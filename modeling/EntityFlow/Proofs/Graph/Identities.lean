import EntityFlow.Proofs.Codec.Graph
import EntityFlow.Proofs.Graph.Capabilities
import EntityFlow.Proofs.Generation.Reorder

/-!
# Connections keep their identities

The identity of a connection is an index that is used again once the connection is gone.  It still
denotes one connection from the call that answered with it to the call that removes it: a new
connection gets a vacant index, and no other call moves an entry.  The index vacated last is the
first to be used again, so a connection that is taken back at once leaves nothing behind but perhaps
one more vacant index, and the next connection gets that one.
-/

namespace EntityFlow

/-! ## Tables -/

namespace Slots

variable {α : Type} {s : Slots α} {a : α}

theorem contains_next_insert (h : s.Coherent) : (s.insert a).2.contains s.next = true :=
  contains_iff.2 ⟨a, by rw [get?_insert h, if_pos rfl]⟩

/-- An entry that is taken back at once leaves the table as it was, or one vacant slot longer. -/
theorem erase_insert (h : s.Coherent) : (s.insert a).2.erase s.next = s ∨
    (s.insert a).2.erase s.next = ⟨s.cells.push none, [s.cells.size]⟩ := by
  rw [erase, if_pos (contains_next_insert h)]
  cases hfree : s.free with
  | nil =>
    right
    have hcells : (s.cells.push (some a)).setIfInBounds s.cells.size none = s.cells.push none := by
      refine Array.ext_getElem? fun i => ?_
      rw [Array.getElem?_setIfInBounds, Array.getElem?_push, Array.getElem?_push, Array.size_push]
      grind
    simp only [insert, next, hfree, List.head?_nil, Option.getD_none, hcells]
  | cons k rest =>
    left
    have hk : s.cells[k]? = some none := (h.mem_free k).1 (by simp [hfree])
    have hcells : (s.cells.setIfInBounds k (some a)).setIfInBounds k none = s.cells := by
      refine Array.ext_getElem? fun i => ?_
      rw [Array.setIfInBounds_setIfInBounds, Array.getElem?_setIfInBounds]
      grind
    simp only [insert, next, hfree, List.head?_cons, Option.getD_some, hcells]
    rw [← hfree]

/-- What was inserted and erased again leaves every entry as it was. -/
theorem get?_erase_insert (h : s.Coherent) (i : Nat) :
    ((s.insert a).2.erase s.next).get? i = s.get? i := by
  rw [get?_erase]
  split
  · rename_i hi
    rw [hi, get?_next h]
  · rename_i hi
    rw [get?_insert h, if_neg hi]

/-- The index of what was erased last is used next. -/
theorem next_erase_insert (h : s.Coherent) : ((s.insert a).2.erase s.next).next = s.next := by
  rw [erase, if_pos (contains_next_insert h)]
  rfl

/-- What was inserted and erased again leaves the text as it was. -/
theorem trimmed_erase_insert (h : s.Coherent) :
    ((s.insert a).2.erase s.next).trimmed = s.trimmed := by
  rcases erase_insert (a := a) h with heq | heq
  · rw [heq]
  · rw [heq, trimmed, Array.toList_push, List.reverse_append]
    rfl

theorem toList_erase_insert (h : s.Coherent) :
    ((s.insert a).2.erase s.next).toList = s.toList := by
  rw [← filterMap_trimmed, trimmed_erase_insert h, filterMap_trimmed]

end Slots

theorem EdgeId.index_inj {a b : EdgeId} : a.index = b.index ↔ a = b := by
  cases a
  cases b
  simp

def BuildStep.isConnect : BuildStep → Bool
  | .connect .. | .connectPorts .. => true
  | _ => false

namespace Graph

variable {g g' : Graph} {id : EdgeId} {e : Edge} {s : BuildStep} {source target : PortRef}

def edge? (g : Graph) (id : EdgeId) : Option Edge := g.edges.get? id.index

/-! ## Calls that connect -/

/-- The answer of a call that connects, by reference or by the names of the ports. -/
def connected? (g : Graph) : BuildStep → Option (EdgeId × Graph)
  | .connect source output target input => (g.connect source output target input).toOption
  | .connectPorts source target => (g.connectPorts source target).toOption
  | _ => none

/-- The ports that a call asks to connect. -/
def Asks (g : Graph) : BuildStep → PortRef → PortRef → Prop
  | .connect m output n input, source, target =>
      g.portRef m output = .ok source ∧ g.portRef n input = .ok target
  | .connectPorts o i, source, target => o = source ∧ i = target
  | _, _, _ => False

theorem toOption_eq_some_iff {ε α : Type} {x : Except ε α} {a : α} :
    x.toOption = some a ↔ x = .ok a := by
  cases x <;> simp [Except.toOption]

/-- What follows from an answer, whichever way was asked. -/
theorem connected?_eq_some (hu : g.threads = none) (h : g.connected? s = some (id, g')) :
    ∃ e p q, g.Asks s e.source e.target ∧ g.port? e.source = some p ∧ g.port? e.target = some q ∧
      edgeKind p q = .ok e.kind ∧ id = ⟨g.edges.next⟩ ∧ g' = g.withEdge e := by
  cases s with
  | connect m output n input =>
    obtain ⟨source, target, hsource, htarget, hports⟩ := connect_eq_ok (toOption_eq_some_iff.1 h)
    obtain ⟨p, q, k, hp, hq, hk, -, hid, hg'⟩ := connectPorts_eq_ok hu hports
    exact ⟨⟨source, target, k⟩, p, q, ⟨hsource, htarget⟩, hp, hq, hk, hid, hg'⟩
  | connectPorts source target =>
    obtain ⟨p, q, k, hp, hq, hk, -, hid, hg'⟩ := connectPorts_eq_ok hu (toOption_eq_some_iff.1 h)
    exact ⟨⟨source, target, k⟩, p, q, ⟨rfl, rfl⟩, hp, hq, hk, hid, hg'⟩
  | _ => cases h

/-- A connection that is made is the step. -/
theorem step_of_connected? (h : g.connected? s = some (id, g')) : g.step s = g' := by
  cases s with
  | connect m output n input => rw [step, toOption_eq_some_iff.1 h, outcome]
  | connectPorts source target => rw [step, toOption_eq_some_iff.1 h, outcome]
  | _ => cases h

/-- A connection that is refused changes nothing. -/
theorem step_of_connected?_eq_none (hs : s.isConnect = true) (h : g.connected? s = none) :
    g.step s = g := by
  cases s with
  | connect m output n input =>
    cases hr : g.connect m output n input with
    | error e => rw [step, hr, outcome]
    | ok r =>
      rw [connected?, hr] at h
      cases h
  | connectPorts source target =>
    cases hr : g.connectPorts source target with
    | error e => rw [step, hr, outcome]
    | ok r =>
      rw [connected?, hr] at h
      cases h
  | _ => cases hs

/-- All that a call can do to the table of connections. -/
theorem edges_step (hu : g.threads = none) (s : BuildStep) : (g.step s).edges = g.edges ∨
    (∃ e, (g.step s).edges = (g.edges.insert e).2) ∨
    ∃ id e, s = .disconnect id ∧ g.edge? id = some e ∧
    (g.step s).edges = g.edges.erase id.index := by
  cases hc : g.connected? s with
  | some r =>
    obtain ⟨e, -, -, -, -, -, -, -, hg'⟩ := connected?_eq_some hu hc
    refine .inr (.inl ⟨e, ?_⟩)
    rw [step_of_connected? hc, hg', withEdge]
  | none =>
    cases s with
    | connect m output n input => exact .inl (congrArg edges (step_of_connected?_eq_none rfl hc))
    | connectPorts source target => exact .inl (congrArg edges (step_of_connected?_eq_none rfl hc))
    | addFunction name params returns isStatic =>
      refine .inl (outcome_of_ok (P := fun g' => g'.edges = g.edges) rfl fun m g' h => ?_)
      obtain ⟨-, c, t, -, rfl⟩ := addFunction_eq_ok h
      rfl
    | addVariable v => exact .inl rfl
    | addProperty p =>
      refine .inl (outcome_of_ok (P := fun g' => g'.edges = g.edges) rfl fun m g' h => ?_)
      obtain ⟨-, rfl⟩ := addProperty_eq_ok h
      rfl
    | addNode name kind container =>
      refine .inl (outcome_of_ok (P := fun g' => g'.edges = g.edges) rfl fun m g' h => ?_)
      obtain ⟨-, job, ports, -, -, -, -, rfl⟩ := addNode_eq_ok hu h
      rfl
    | disconnect id =>
      cases h : g.disconnect id with
      | error e =>
        left
        rw [step, h, outcome]
      | ok r =>
        obtain ⟨he, hg'⟩ := disconnect_eq_ok hu h
        refine .inr (.inr ⟨id, r.1, rfl, he, ?_⟩)
        rw [step, h, outcome, hg', withoutEdge]

/-! ## Identities along a run -/

/-- A new connection has the next index, and the others keep theirs. -/
theorem edge?_withEdge (h : g.edges.Coherent) : (g.withEdge e).edge? id =
    if id = ⟨g.edges.next⟩ then some e else g.edge? id := by
  rw [edge?, withEdge, Slots.get?_insert h]
  exact if_congr (EdgeId.index_inj (b := ⟨g.edges.next⟩)) rfl rfl

/-- Without a connection, the others keep their indices. -/
theorem edge?_withoutEdge (g : Graph) (id id' : EdgeId) : (g.withoutEdge id).edge? id' =
    if id' = id then none else g.edge? id' := by
  rw [edge?, withoutEdge, Slots.get?_erase]
  exact if_congr EdgeId.index_inj rfl rfl

/-- A connection that exists can be removed. -/
theorem disconnect_of_edge? (hu : g.threads = none) (h : g.edge? id = some e) :
    g.disconnect id = .ok (e, g.withoutEdge id) := by
  have he : g.edges.get? id.index = some e := h
  simp only [disconnect, he, hu, Option.map_none]
  rw [withoutEdge, hu]

/-- Only the call that removes a connection ends what its identity denotes. -/
theorem Invariant.edge?_step (h : g.Invariant) (he : g.edge? id = some e)
    (hs : s ≠ .disconnect id) : (g.step s).edge? id = some e := by
  rw [edge?]
  rcases edges_step h.threads s with heq | ⟨e', heq⟩ | ⟨id', e', rfl, -, heq⟩
  · rw [heq]
    exact he
  · rw [heq]
    exact Slots.get?_insert_of_get? h.edges he
  · have hne : id ≠ id' := fun hid => hs (hid ▸ rfl)
    rw [heq, Slots.get?_erase, if_neg (mt EdgeId.index_inj.1 hne)]
    exact he

/-- A connection stays for as long as it is not removed. -/
theorem Reachable.edge?_foldl (hg : g.Reachable) (he : g.edge? id = some e) (steps : List BuildStep)
    (hkept : .disconnect id ∉ steps) : (steps.foldl Graph.step g).edge? id = some e := by
  induction steps generalizing g with
  | nil => exact he
  | cons s rest ih =>
    rw [List.mem_cons, not_or] at hkept
    exact ih (hg.step s) (hg.invariant.edge?_step he (Ne.symm hkept.1)) hkept.2

/-- No call of a sequence adds or removes a connection. -/
def Idle (g : Graph) : List BuildStep → Prop
  | [] => True
  | s :: rest => (g.step s).edge? = g.edge? ∧ (g.step s).Idle rest

/-- A call that changes what identities denote can be told from one that does not by looking at
one. -/
theorem Invariant.edges_step_of_edge? (h : g.Invariant) (hs : (g.step s).edge? = g.edge?) :
    (g.step s).edges = g.edges := by
  rcases edges_step h.threads s with heq | ⟨e', heq⟩ | ⟨id, e', rfl, he, heq⟩
  · exact heq
  · have hnext := congrFun hs ⟨g.edges.next⟩
    rw [edge?, edge?, heq, Slots.get?_insert h.edges, if_pos rfl, Slots.get?_next h.edges] at hnext
    exact absurd hnext nofun
  · have hgone := congrFun hs id
    rw [he, edge?, heq, Slots.get?_erase, if_pos rfl] at hgone
    exact absurd hgone nofun

/-- Steps that make and remove no connection leave the table as it is. -/
theorem Reachable.edges_foldl (hg : g.Reachable) (steps : List BuildStep) (hidle : g.Idle steps) :
    (steps.foldl Graph.step g).edges = g.edges := by
  induction steps generalizing g with
  | nil => rfl
  | cons s rest ih =>
    exact (ih (hg.step s) hidle.2).trans (hg.invariant.edges_step_of_edge? hidle.1)

theorem Reachable.foldl_step (hg : g.Reachable) (steps : List BuildStep) :
    (steps.foldl Graph.step g).Reachable := by
  induction steps generalizing g with
  | nil => exact hg
  | cons s rest ih => exact ih (hg.step s)

/-- An identity that a call answers with denotes what was asked for, in a graph that was built as
well. -/
theorem Reachable.edge?_of_connected? (hg : g.Reachable) (h : g.connected? s = some (id, g')) :
    g'.Reachable ∧ ∃ e p q, g.Asks s e.source e.target ∧ g.port? e.source = some p ∧
      g.port? e.target = some q ∧ edgeKind p q = .ok e.kind ∧ id = ⟨g.edges.next⟩ ∧
      g' = g.withEdge e ∧ g'.edge? id = some e := by
  obtain ⟨e, p, q, hasks, hp, hq, hkind, hid, hg'⟩ := connected?_eq_some hg.invariant.threads h
  refine ⟨step_of_connected? h ▸ hg.step s, e, p, q, hasks, hp, hq, hkind, hid, hg', ?_⟩
  rw [hg', edge?_withEdge hg.invariant.edges, if_pos hid]

/-! ## Taking a connection back -/

/-- The graph without a connection that was just made differs from the one before in its vacant
indices only. -/
theorem Invariant.agrees_withoutEdge (h : g.Invariant) (e : Edge) :
    g.Agrees ((g.withEdge e).withoutEdge ⟨g.edges.next⟩) := by
  have hlive : ((g.withEdge e).withoutEdge ⟨g.edges.next⟩).live = g.live :=
    Slots.toList_erase_insert h.edges
  refine Reordered.agrees ⟨rfl, rfl, rfl, fun n => rfl, ?_⟩ (listed_of_threads h.threads)
    (listed_of_threads h.threads)
  rw [hlive]

/-- What is seen of a graph: the answers to all questions, what each identity denotes, and its
text. -/
structure SameView (g g' : Graph) : Prop extends g.Agrees g' where
  edge? : g'.edge? = g.edge?
  live : g'.live = g.live
  toJson : g'.toJson = g.toJson

/-- A connection that is removed at once is not seen. -/
theorem Invariant.sameView_withoutEdge (h : g.Invariant) (e : Edge) :
    g.SameView ((g.withEdge e).withoutEdge ⟨g.edges.next⟩) where
  toAgrees := h.agrees_withoutEdge e
  edge? := funext fun id => Slots.get?_erase_insert h.edges id.index
  live := Slots.toList_erase_insert h.edges
  toJson := by
    have htrimmed : ((g.withEdge e).withoutEdge ⟨g.edges.next⟩).edges.trimmed = g.edges.trimmed :=
      Slots.trimmed_erase_insert h.edges
    rw [Graph.toJson, tablesToJson, htrimmed]
    rfl

/-! ## Identities -/

/-- What the calls on a graph promise about the identities of its connections. -/
structure KeepsIdentities (g : Graph) : Prop where
  /-- A connection gets an identity that denotes nothing yet, and keeps it until it is removed. -/
  connect : ∀ s id g', g.connected? s = some (id, g') → g.edge? id = none ∧
    (∀ id', id' ≠ id → g'.edge? id' = g.edge? id') ∧
    ∃ (e : Edge) (p q : Port), g.Asks s e.source e.target ∧ g.port? e.source = some p ∧
      g.port? e.target = some q ∧ edgeKind p q = .ok e.kind ∧
      ∀ steps : List BuildStep, BuildStep.disconnect id ∉ steps →
      (steps.foldl step g').edge? id = some e
  /-- A connection can be removed as long as it is there, and no other one is. -/
  disconnect : ∀ id e, ((∃ g', g.disconnect id = .ok (e, g')) ↔ g.edge? id = some e) ∧
    ∀ g', g.disconnect id = .ok (e, g') →
      g'.edge? id = none ∧ ∀ id', id' ≠ id → g'.edge? id' = g.edge? id'
  refused : ∀ s, s.isConnect = true → g.connected? s = none → g.step s = g
  /-- A connection that is taken back at once has left everything as it was, and its identity is the
  one that the next connection gets. -/
  undone : ∀ s id g', g.connected? s = some (id, g') → ∃ e g'', g'.disconnect id = .ok (e, g'') ∧
    g.SameView g'' ∧ ∀ steps : List BuildStep, g''.Idle steps →
      ∀ s' id' h, (steps.foldl step g'').connected? s' = some (id', h) → id' = id

/-- Whatever was built before, and whatever is built next, an identity denotes one connection for as
long as the connection is there. -/
theorem Reachable.keepsIdentities (hg : g.Reachable) : g.KeepsIdentities where
  connect s id g' h := by
    obtain ⟨hreach, e, p, q, hasks, hp, hq, hkind, rfl, hg', he⟩ := hg.edge?_of_connected? h
    refine ⟨Slots.get?_next hg.invariant.edges, fun id' hid' => ?_, e, p, q, hasks, hp, hq, hkind,
      fun steps hkept => hreach.edge?_foldl he steps hkept⟩
    rw [hg', edge?_withEdge hg.invariant.edges, if_neg hid']
  disconnect id e := by
    have hu := hg.invariant.threads
    refine ⟨⟨fun ⟨g', h⟩ => (disconnect_eq_ok hu h).1, fun h => ⟨_, disconnect_of_edge? hu h⟩⟩,
      fun g' h => ?_⟩
    obtain ⟨-, rfl⟩ := disconnect_eq_ok hu h
    refine ⟨?_, fun id' hid' => ?_⟩
    · rw [edge?_withoutEdge, if_pos rfl]
    · rw [edge?_withoutEdge, if_neg hid']
  refused s hs h := step_of_connected?_eq_none hs h
  undone s id g' h := by
    obtain ⟨hreach, e, -, -, -, -, -, -, rfl, hg', he⟩ := hg.edge?_of_connected? h
    have hundo := disconnect_of_edge? hreach.invariant.threads he
    have hundone : (g'.withoutEdge ⟨g.edges.next⟩).Reachable := by
      have hstep := hreach.step (.disconnect ⟨g.edges.next⟩)
      rwa [Graph.step, hundo, outcome] at hstep
    refine ⟨e, _, hundo, hg' ▸ hg.invariant.sameView_withoutEdge e,
      fun steps hidle s' id' k hk => ?_⟩
    have hlater := hundone.foldl_step steps
    obtain ⟨-, -, -, -, -, -, -, rfl, -⟩ := connected?_eq_some hlater.invariant.threads hk
    rw [hundone.edges_foldl steps hidle, hg']
    exact congrArg EdgeId.mk (Slots.next_erase_insert hg.invariant.edges)

/-- Three connections were made and the first two removed again, the second one last. -/
def vacated : Graph := build {} [
  .addNode "Update" (.event .update) ContainerTree.root,
  .addNode "Create" .createEntity ContainerTree.root,
  .addNode "Destroy" .destroyEntity ContainerTree.root,
  .connect ⟨0⟩ "exit" ⟨1⟩ "enter", .connect ⟨1⟩ "exit" ⟨2⟩ "enter",
  .connectPorts ⟨⟨1⟩, 2⟩ ⟨⟨2⟩, 1⟩, .disconnect ⟨0⟩, .disconnect ⟨1⟩]

/-- The identity removed last is used again, and denotes the new connection while others go and
come. -/
theorem keepsIdentities_vacated : vacated.KeepsIdentities ∧ vacated.edges.free = [1, 0] ∧
    ∃ g' e, vacated.connected? (.connect ⟨0⟩ "exit" ⟨1⟩ "enter") = some (⟨1⟩, g') ∧
      vacated.Asks (.connect ⟨0⟩ "exit" ⟨1⟩ "enter") e.source e.target ∧
      ([.disconnect ⟨2⟩, .connect ⟨1⟩ "exit" ⟨2⟩ "enter", .connectPorts ⟨⟨0⟩, 0⟩ ⟨⟨2⟩, 0⟩].foldl
        step g').edge? ⟨1⟩ = some e := by
  have hkeeps : vacated.KeepsIdentities := Reachable.keepsIdentities (reachable_build _ _)
  obtain ⟨hfree, hmade⟩ : vacated.edges.free = [1, 0] ∧
      (vacated.connected? (.connect ⟨0⟩ "exit" ⟨1⟩ "enter")).any (fun r => r.1 = ⟨1⟩) = true := by
    decide +kernel
  obtain ⟨⟨id, g'⟩, hg', hid⟩ := (Option.any_eq_true _ _).1 hmade
  obtain rfl : id = ⟨1⟩ := of_decide_eq_true hid
  obtain ⟨-, -, e, -, -, hasks, -, -, -, hlater⟩ := hkeeps.connect _ _ _ hg'
  exact ⟨hkeeps, hfree, g', e, hg', hasks, hlater _ (by simp)⟩

end Graph

end EntityFlow
