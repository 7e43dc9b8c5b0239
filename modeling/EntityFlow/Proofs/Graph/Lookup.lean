import EntityFlow.Proofs.Graph.Layouts

/-!
# Ports by name

A name stands for the first port of a node that has it, and a reference keeps the position of that
port as a 16-bit word.  Up to 65536 ports the word is the position.  A port behind them is found,
but its reference is that of a port further to the front, which has another name.
-/

namespace EntityFlow

namespace Node

variable {node : Node} {name : String} {i : Nat} {p : Port}

/-- `p`, at position `i`, is the first port of that name. -/
structure FirstAt (node : Node) (name : String) (i : Nat) (p : Port) : Prop where
  port : node.ports[i]? = some p
  named : p.name = name
  earlier : ∀ j < i, ∀ q, node.ports[j]? = some q → q.name ≠ name

/-- Searching by name finds the first port of that name. -/
theorem findIdx?_eq_some : node.ports.findIdx? (fun p => p.name == name) = some i ↔
    ∃ p, node.FirstAt name i p := by
  rw [List.findIdx?_eq_some_iff_getElem]
  constructor
  · rintro ⟨hlt, hname, hearlier⟩
    refine ⟨node.ports[i], List.getElem?_eq_getElem hlt, beq_iff_eq.1 hname,
      fun j hj q hq hqname => ?_⟩
    obtain ⟨hjlt, rfl⟩ := List.getElem?_eq_some_iff.1 hq
    exact hearlier j hj (beq_iff_eq.2 hqname)
  · rintro ⟨p, hp, hname, hearlier⟩
    obtain ⟨hlt, rfl⟩ := List.getElem?_eq_some_iff.1 hp
    refine ⟨hlt, beq_iff_eq.2 hname, fun j hj hjname => ?_⟩
    exact hearlier j hj _ (List.getElem?_eq_getElem (hj.trans hlt)) (beq_iff_eq.1 hjname)

/-- There is one first port of a name. -/
theorem FirstAt.eq {i' : Nat} {p' : Port} (h : node.FirstAt name i p)
    (h' : node.FirstAt name i' p') : i = i' ∧ p = p' := by
  obtain rfl : i = i' := by
    rcases Nat.lt_trichotomy i i' with hlt | heq | hgt
    · exact absurd h.named (h'.earlier i hlt p h.port)
    · exact heq
    · exact absurd h'.named (h.earlier i' hgt p' h'.port)
  exact ⟨rfl, Option.some.inj (h.port.symm.trans h'.port)⟩

theorem exists_firstAt (hp : p ∈ node.ports) (hname : p.name = name) :
    ∃ i q, node.FirstAt name i q := by
  have hfound : (node.ports.findIdx? fun q => q.name == name).isSome := by
    rw [List.findIdx?_isSome, List.any_eq_true]
    exact ⟨p, hp, beq_iff_eq.2 hname⟩
  obtain ⟨i, hi⟩ := Option.isSome_iff_exists.1 hfound
  exact ⟨i, findIdx?_eq_some.1 hi⟩

/-- The word of a position gives the port there, or else a port before it. -/
theorem FirstAt.exists_port? (h : node.FirstAt name i p) :
    ∃ q, node.port? (UInt16.ofNat i) = some q ∧ (i < 65536 → q = p) ∧
    (65536 ≤ i → q.name ≠ name) := by
  have hword : (UInt16.ofNat i).toNat = i % 65536 := UInt16.toNat_ofNat'
  obtain ⟨hlt, -⟩ := List.getElem?_eq_some_iff.1 h.port
  rcases Nat.lt_or_ge i 65536 with hsmall | hlarge
  · refine ⟨p, ?_, fun _ => rfl, fun hge => by omega⟩
    rw [Node.port?, hword, Nat.mod_eq_of_lt hsmall, h.port]
  · have hfront : i % 65536 < i := by omega
    have hq : node.ports[i % 65536]? = some node.ports[i % 65536] := List.getElem?_eq_getElem _
    refine ⟨_, by rw [Node.port?, hword, hq], fun hsmall => by omega, fun _ => ?_⟩
    exact h.earlier _ hfront _ hq

end Node

namespace Graph

variable {g g' : Graph} {n : NodeId} {name : String} {r : PortRef} {node : Node}

/-- A port of that name stands among the first 65536 of the node. -/
def InReach (g : Graph) (n : NodeId) (name : String) : Prop :=
  ∃ node i p, g.node? n = some node ∧ node.FirstAt name i p ∧ i < 65536

/-- When a look-up by name succeeds, and with what. -/
theorem portRef_eq_ok_iff : g.portRef n name = .ok r ↔
    ∃ node i p, g.node? n = some node ∧ node.FirstAt name i p ∧ r = ⟨n, UInt16.ofNat i⟩ := by
  rw [portRef_eq_ok]
  constructor
  · rintro ⟨node, i, hn, hi, hr⟩
    obtain ⟨p, hp⟩ := Node.findIdx?_eq_some.1 hi
    exact ⟨node, i, p, hn, hp, hr⟩
  · rintro ⟨node, i, p, hn, hp, hr⟩
    exact ⟨node, i, hn, Node.findIdx?_eq_some.2 ⟨p, hp⟩, hr⟩

/-- A look-up on a node that does not exist says so. -/
theorem portRef_of_none (hn : g.node? n = none) : g.portRef n name = .error (.nodeNotFound n) := by
  rw [portRef, Graph.node, hn]
  rfl

/-- A look-up of a name that no port has says so. -/
theorem portRef_of_unnamed (hn : g.node? n = some node) (hname : ∀ p ∈ node.ports, p.name ≠ name) :
    g.portRef n name = .error (.portNotFound n name) := by
  have hnone : node.portIndex? name = none := by
    rw [Node.portIndex?, Option.map_eq_none_iff, List.findIdx?_eq_none_iff]
    exact fun p hp => beq_eq_false_iff_ne.2 (hname p hp)
  simp only [portRef, node_eq_ok.2 hn, hnone, bind, Except.bind]
  rfl

/-! ## What a name stands for -/

/-- A look-up by name finds the first port of that name, and two names that are found are connected.
The reference gives that port exactly if it is in reach. -/
structure ResolvesPorts (g : Graph) : Prop where
  missing : ∀ n name, g.portRef n name = .error (.nodeNotFound n) ↔ g.node? n = none
  unnamed : ∀ n name, g.portRef n name = .error (.portNotFound n name) ↔
    ∃ node, g.node? n = some node ∧ ∀ p ∈ node.ports, p.name ≠ name
  named : ∀ n name, (∃ r, g.portRef n name = .ok r) ↔
    ∃ node, g.node? n = some node ∧ ∃ p ∈ node.ports, p.name = name
  /-- Out of reach the reference is that of a port with another name. -/
  found : ∀ n name r, g.portRef n name = .ok r → ∃ node q, g.node? n = some node ∧ r.node = n ∧
    g.port? r = some q ∧ (q.name = name ↔ g.InReach n name) ∧
    (g.InReach n name → node.FirstAt name r.port.toNat q)
  /-- All ports of a node that has at most 65536 are in reach. -/
  fits : ∀ n node p, g.node? n = some node → node.ports.length ≤ 65536 → p ∈ node.ports →
    g.InReach n p.name
  joined : ∀ source output target input id g', g.connect source output target input = .ok (id, g') →
    ∃ e s t, g'.edges.get? id.index = some e ∧ e.source.node = source ∧ e.target.node = target ∧
      g'.port? e.source = some s ∧ g'.port? e.target = some t ∧
      (s.name = output ↔ g.InReach source output) ∧ (t.name = input ↔ g.InReach target input)

/-- The port that is found has the name exactly if its position is a 16-bit word. -/
theorem exists_port_of_portRef (hr : g.portRef n name = .ok r) : ∃ node q, g.node? n = some node ∧
    r.node = n ∧ g.port? r = some q ∧ (q.name = name ↔ g.InReach n name) ∧
    (g.InReach n name → node.FirstAt name r.port.toNat q) := by
  obtain ⟨node, i, p, hn, hfirst, rfl⟩ := portRef_eq_ok_iff.1 hr
  obtain ⟨q, hq, hsmall, hlarge⟩ := hfirst.exists_port?
  have hreach : g.InReach n name ↔ i < 65536 := by
    constructor
    · rintro ⟨node', i', p', hn', hfirst', hlt⟩
      obtain rfl := Option.some.inj (hn.symm.trans hn')
      rwa [(hfirst.eq hfirst').1]
    · exact fun hlt => ⟨node, i, p, hn, hfirst, hlt⟩
  refine ⟨node, q, hn, rfl, (port?_of_node hn).trans hq, ?_, ?_⟩
  · rw [hreach]
    constructor
    · intro hname
      by_contra hge
      exact hlarge (Nat.le_of_not_lt hge) hname
    · intro hlt
      rw [hsmall hlt, hfirst.named]
  · intro hin
    have hlt := hreach.1 hin
    obtain rfl := hsmall hlt
    rwa [UInt16.toNat_ofNat_of_lt' hlt]

/-- Up to 65536 ports, every name is in reach. -/
theorem inReach_of_length_le {p : Port} (hn : g.node? n = some node)
    (hsize : node.ports.length ≤ 65536) (hp : p ∈ node.ports) : g.InReach n p.name := by
  obtain ⟨i, q, hfirst⟩ := Node.exists_firstAt hp rfl
  obtain ⟨hlt, -⟩ := List.getElem?_eq_some_iff.1 hfirst.port
  exact ⟨node, i, q, hn, hfirst, by omega⟩

/-- In every graph that can be built, names resolve to ports as far as positions are words. -/
theorem Reachable.resolvesPorts (hg : g.Reachable) : g.ResolvesPorts := by
  have hinv := hg.invariant
  have hnamed : ∀ n name node, g.node? n = some node → (∃ p ∈ node.ports, p.name = name) →
      ∃ r, g.portRef n name = .ok r := by
    rintro n name node hn ⟨p, hp, rfl⟩
    exact exists_portRef hn (List.mem_map_of_mem hp)
  constructor
  case missing =>
    refine fun n name => ⟨fun h => ?_, portRef_of_none⟩
    cases hn : g.node? n with
    | none => rfl
    | some node =>
      by_cases hname : ∃ p ∈ node.ports, p.name = name
      · obtain ⟨r, hr⟩ := hnamed n name node hn hname
        rw [hr] at h
        cases h
      · rw [portRef_of_unnamed hn (by simpa using hname)] at h
        cases h
  case unnamed =>
    refine fun n name => ⟨fun h => ?_, fun ⟨node, hn, hname⟩ => portRef_of_unnamed hn hname⟩
    cases hn : g.node? n with
    | none =>
      rw [portRef_of_none hn] at h
      cases h
    | some node =>
      refine ⟨node, rfl, fun p hp hname => ?_⟩
      obtain ⟨r, hr⟩ := hnamed n name node hn ⟨p, hp, hname⟩
      rw [hr] at h
      cases h
  case named =>
    refine fun n name => ⟨fun ⟨r, hr⟩ => ?_, fun ⟨node, hn, hname⟩ => hnamed n name node hn hname⟩
    obtain ⟨node, i, p, hn, hfirst, -⟩ := portRef_eq_ok_iff.1 hr
    exact ⟨node, hn, p, List.mem_of_getElem? hfirst.port, hfirst.named⟩
  case found => exact fun n name r hr => exists_port_of_portRef hr
  case fits => exact fun n node p hn hsize hp => inReach_of_length_le hn hsize hp
  case joined =>
    intro source output target input id g' hok
    obtain ⟨s, t, hs, ht, hports⟩ := connect_eq_ok hok
    obtain ⟨-, -, k, -, -, -, -, rfl, rfl⟩ := connectPorts_eq_ok hinv.threads hports
    obtain ⟨-, q, -, rfl, hq, hqname, -⟩ := exists_port_of_portRef hs
    obtain ⟨-, q', -, rfl, hq', hqname', -⟩ := exists_port_of_portRef ht
    refine ⟨⟨s, t, k⟩, q, q', ?_, rfl, rfl, hq, hq', hqname, hqname'⟩
    change (g.edges.insert ⟨s, t, k⟩).2.get? g.edges.next = _
    rw [Slots.get?_insert hinv.edges, if_pos rfl]

/-! ## A loop with many items -/

namespace Wide

/-- The last of the `k + 1` items stands behind `k + 3` other ports. -/
def graph (k : Nat) : Graph := build {} [
  .addNode "Each" (.foreach {
    items := List.replicate k ⟨"a", none, .value⟩ ++ [⟨"last", none, .value⟩]
    run := .run }) ContainerTree.root,
  .addNode "Set" .setValue ContainerTree.root]

def ports (k : Nat) : List Port :=
  [.flowIn "enter", .flowOut "body", .flowOut "exit"] ++
    (List.replicate k (.valueOut "a" none .readOnly) ++ [.valueOut "last" none .readOnly])

theorem exists_loop (k : Nat) : ∃ node, (graph k).node? ⟨0⟩ = some node ∧ node.ports = ports k := by
  refine ⟨_, rfl, ?_⟩
  simp [ports, Layout.ofForeach, Layout.ofItem, ItemAccess.portAccess]

theorem firstAt_last {node : Node} {k : Nat} (h : node.ports = ports k) :
    node.FirstAt "last" (k + 3) (.valueOut "last" none .readOnly) := by
  refine ⟨by simp [h, ports], rfl, fun j hj q hq => ?_⟩
  -- what stands before it is a fixed port or one of the items called `a`
  have hmem : q ∈ [.flowIn "enter", .flowOut "body", .flowOut "exit"] ++
      List.replicate k (Port.valueOut "a" none .readOnly) := by
    rw [h, ports, ← List.append_assoc, List.getElem?_append_left (by simp; omega)] at hq
    exact List.mem_of_getElem? hq
  rcases List.mem_append.1 hmem with hfixed | hitem
  · have hnames : ∀ q ∈ [Port.flowIn "enter", .flowOut "body", .flowOut "exit"],
        q.name ≠ "last" := by
      decide
    exact hnames q hfixed
  · obtain ⟨-, rfl⟩ := List.mem_replicate.1 hitem
    decide

/-- The last item is in reach exactly if its position is a 16-bit word. -/
theorem inReach_last (k : Nat) : (graph k).InReach ⟨0⟩ "last" ↔ k + 3 < 65536 := by
  obtain ⟨node, hn, hports⟩ := exists_loop k
  constructor
  · rintro ⟨node', i, p, hn', hfirst, hlt⟩
    obtain rfl := Option.some.inj (hn.symm.trans hn')
    rwa [((firstAt_last hports).eq hfirst).1]
  · exact fun hlt => ⟨node, k + 3, _, hn, firstAt_last hports, hlt⟩

/-- With 65533 items the last one is in reach, and with one more it is not. -/
theorem resolvesPorts_wide : (graph 65532).ResolvesPorts ∧ (graph 65532).InReach ⟨0⟩ "last" ∧
    (graph 65533).ResolvesPorts ∧ ¬(graph 65533).InReach ⟨0⟩ "last" :=
  ⟨Reachable.resolvesPorts (reachable_build _ _), (inReach_last _).2 (by decide),
    Reachable.resolvesPorts (reachable_build _ _),
    fun h => absurd ((inReach_last _).1 h) (by decide)⟩

theorem port?_first (k : Nat) : (graph k).port? ⟨⟨0⟩, 0⟩ = some (.flowIn "enter") := by
  obtain ⟨node, hn, hports⟩ := exists_loop k
  rw [port?_of_node hn, Node.port?, hports]
  rfl

/-- Out of reach, the last item cannot be connected: the port that is found is an input. -/
theorem connect_last {k : Nat} (hr : (graph k).portRef ⟨0⟩ "last" = .ok ⟨⟨0⟩, 0⟩) :
    (graph k).connect ⟨0⟩ "last" ⟨1⟩ "value" = .error (.wrongDirection "enter" "value") := by
  have ht : (graph k).portRef ⟨1⟩ "value" = .ok ⟨⟨1⟩, 2⟩ := rfl
  have hp : (graph k).port? ⟨⟨1⟩, 2⟩ = some (.valueIn "value" none) := rfl
  simp only [connect, hr, ht, connectPorts, requirePort, port?_first, hp, bind, Except.bind]
  rfl

/-- The name of the last of 65534 items finds the port at which the loop is entered, and nothing can
be connected to that item by its name. -/
theorem portRef_last_enter :
    ∃ node r, (graph 65533).Reachable ∧ (graph 65533).node? ⟨0⟩ = some node ∧
    (∃ p ∈ node.ports, p.name = "last" ∧ p.isOutput ∧ p.isValue) ∧
    (graph 65533).portRef ⟨0⟩ "last" = .ok r ∧ (graph 65533).port? r = some (.flowIn "enter") ∧
    (graph 65533).connect ⟨0⟩ "last" ⟨1⟩ "value" = .error (.wrongDirection "enter" "value") := by
  obtain ⟨node, hn, hports⟩ := exists_loop 65533
  have hfirst := firstAt_last hports
  have hword : UInt16.ofNat (65533 + 3) = 0 := by decide
  have hr : (graph 65533).portRef ⟨0⟩ "last" = .ok ⟨⟨0⟩, 0⟩ :=
    portRef_eq_ok_iff.2 ⟨node, _, _, hn, hfirst, by rw [hword]⟩
  exact ⟨node, _, reachable_build _ _, hn, ⟨_, List.mem_of_getElem? hfirst.port, rfl, rfl, rfl⟩, hr,
    port?_first _, connect_last hr⟩

end Wide

end Graph

end EntityFlow
