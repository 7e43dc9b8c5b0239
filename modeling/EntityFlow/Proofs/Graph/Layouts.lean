import EntityFlow.Proofs.Boundary.Split

/-!
# The ports of a node are those of its kind

Building computes the ports of a node from its kind and the members it refers to.  Neither changes
afterwards as far as ports are concerned, so in every reachable graph each node still has the layout
of its kind.  A port that code asks for by name is therefore there, and the ports along which code
is followed are flow ports.
-/

namespace EntityFlow

namespace Graph

variable {g g' : Graph} {n : NodeId} {m : MemberId} {node : Node} {name : String} {r : PortRef}

/-! ## Layouts in extensions -/

theorem lookup_of_member? {α : Type} {view : Member → Option α} {x : Member} {a : α}
    (hx : g.member? m = some x) (hv : view x = some a) :
    Layout.lookup g.members view m = .ok a := by
  have hbind : (g.members[m.index]? >>= view) = some a := Option.bind_eq_some_iff.2 ⟨x, hx, hv⟩
  rw [Layout.lookup, hbind]

/-- The parameters and the result of a function stay the same in an extension. -/
theorem Extends.lookup_function (h : g.Extends g') {f : Function}
    (hf : Layout.lookup g.members Member.asFunction m = .ok f) :
    ∃ f', Layout.lookup g'.members Member.asFunction m = .ok f' ∧ f'.params = f.params ∧
      f'.returns = f.returns := by
  obtain ⟨x, hx, hv⟩ := lookup_eq_ok hf
  rw [Member.asFunction_eq_some.1 hv] at hx
  obtain ⟨f', hf', hbare⟩ := h.function hx
  simp only [Function.mk.injEq] at hbare
  exact ⟨f', lookup_of_member? hf' rfl, hbare.2.1, hbare.2.2.1⟩

/-- A layout stays what it is when more is declared. -/
theorem Extends.layout (h : g.Extends g') {kind : NodeKind} {job : Option NodeKind}
    {ports : List Port} (hl : kind.layout g.members job = .ok ports) :
    kind.layout g'.members job = .ok ports := by
  cases kind with
  | functionEntry id =>
    simp only [NodeKind.layout, bind_eq_ok, pure_eq_ok] at hl ⊢
    obtain ⟨f, hf, rfl⟩ := hl
    obtain ⟨f', hf', hparams, -⟩ := h.lookup_function hf
    exact ⟨f', hf', by rw [hparams]⟩
  | member target =>
    cases target with
    | function id =>
      simp only [NodeKind.layout, Layout.ofTarget, bind_eq_ok, pure_eq_ok] at hl ⊢
      obtain ⟨f, hf, rfl⟩ := hl
      obtain ⟨f', hf', hparams, hreturns⟩ := h.lookup_function hf
      exact ⟨f', hf', by rw [hparams, hreturns]⟩
    | property id =>
      simp only [NodeKind.layout, Layout.ofTarget, bind_eq_ok, pure_eq_ok] at hl ⊢
      obtain ⟨p, hp, rfl⟩ := hl
      obtain ⟨x, hx, hv⟩ := lookup_eq_ok hp
      rw [Member.asProperty_eq_some.1 hv] at hx
      exact ⟨p, lookup_of_member? (h.property hx) rfl, rfl⟩
    | «variable» id =>
      simp only [NodeKind.layout, Layout.ofTarget, bind_eq_ok, pure_eq_ok] at hl ⊢
      obtain ⟨v, hv, rfl⟩ := hl
      obtain ⟨x, hx, hv⟩ := lookup_eq_ok hv
      rw [Member.asVariable_eq_some.1 hv] at hx
      exact ⟨v, lookup_of_member? (h.variable hx) rfl, rfl⟩
    | external e => exact hl
  | _ => exact hl

theorem node_eq_ok : g.node n = .ok node ↔ g.node? n = some node := by
  rw [Graph.node]
  cases g.node? n <;> simp

/-- The job of an executor is a node, and nodes stay. -/
theorem kind?_of_node (hn : g.node? n = some node) : g.kind? n = some node.kind := by
  rw [kind?, hn, Option.map_some]

/-- The job of an executor stays the same in an extension. -/
theorem Extends.jobKind (h : g.Extends g') {kind : NodeKind} {job : Option NodeKind}
    (hjob : g.jobKind kind = .ok job) : g'.jobKind kind = .ok job := by
  cases kind with
  | executor runWith job =>
    cases job with
    | none => exact hjob
    | some job =>
      obtain ⟨node, hnode, hkind⟩ := bind_eq_ok.1 hjob
      exact bind_eq_ok.2 ⟨node, node_eq_ok.2 (h.node _ _ (node_eq_ok.1 hnode)), hkind⟩
  | _ => exact hjob

/-! ## Layouts of reachable graphs -/

def LaidOut (g : Graph) (node : Node) : Prop :=
  ∃ job, g.jobKind node.kind = .ok job ∧ node.kind.layout g.members job = .ok node.ports

/-- A node that is laid out stays so in an extension. -/
theorem LaidOut.mono (h : g.LaidOut node) (hx : g.Extends g') : g'.LaidOut node := by
  obtain ⟨job, hjob, hl⟩ := h
  exact ⟨job, hx.jobKind hjob, hx.layout hl⟩

/-- Everything declared in `g` is declared in `g'`, and a node that is new has been laid out. -/
structure Grows (g g' : Graph) : Prop extends g.Extends g' where
  laidOut : ∀ n node, g'.node? n = some node → g.node? n = some node ∨ g.LaidOut node

theorem Grows.refl (g : Graph) : g.Grows g := ⟨.refl g, fun _ _ => .inl⟩

theorem grows_declare {t : ContainerTree} {x : Member} (ht : ∀ c d, g.containers.get? c = some d →
    ∃ d', t.get? c = some d' ∧ d'.kind = d.kind) : g.Grows (g.declare t x) :=
  ⟨extends_declare ht, fun _ _ => .inl⟩

/-- Connections have no part in what is declared. -/
theorem Grows.connectPorts (h : g.Invariant) {source target : PortRef} {id : EdgeId}
    (hok : g.connectPorts source target = .ok (id, g')) : g.Grows g' := by
  obtain ⟨-, -, -, -, -, -, -, -, rfl⟩ := connectPorts_eq_ok h.threads hok
  exact ⟨⟨fun _ _ hn => hn, fun _ d hd => ⟨d, hd, rfl⟩, fun _ x hx => ⟨x, hx, rfl⟩⟩,
    fun _ _ => .inl⟩

/-- Every call leaves the graph grown. -/
theorem Invariant.grows_step (h : g.Invariant) (s : BuildStep) : g.Grows (g.step s) := by
  have hsame : ∀ c d, g.containers.get? c = some d →
      ∃ d', g.containers.get? c = some d' ∧ d'.kind = d.kind := fun _ d hd => ⟨d, hd, rfl⟩
  cases s with
  | addFunction name params returns isStatic =>
    refine outcome_of_ok (.refl g) fun id g' hok => ?_
    obtain ⟨-, c, t, hadd, rfl⟩ := addFunction_eq_ok hok
    exact grows_declare (ContainerTree.add_eq_ok hadd).2.2.2
  | addVariable v => exact grows_declare hsame
  | addProperty p =>
    refine outcome_of_ok (.refl g) fun id g' hok => ?_
    obtain ⟨-, rfl⟩ := addProperty_eq_ok hok
    exact grows_declare hsame
  | addNode name kind container =>
    refine outcome_of_ok (.refl g) fun id g' hok => ?_
    obtain ⟨-, job, ports, hjob, hports, -, -, rfl⟩ := addNode_eq_ok h.threads hok
    refine ⟨extends_withNode h, fun n node hn => ?_⟩
    rw [node?_withNode h] at hn
    split at hn
    · obtain rfl := Option.some.inj hn
      exact .inr ⟨job, hjob, hports⟩
    · exact .inl hn
  | connect source output target input =>
    refine outcome_of_ok (.refl g) fun id g' hok => ?_
    obtain ⟨s, t, -, -, hports⟩ := connect_eq_ok hok
    exact .connectPorts h hports
  | connectPorts source target =>
    exact outcome_of_ok (.refl g) fun id g' hok => .connectPorts h hok
  | disconnect id =>
    refine outcome_of_ok (.refl g) fun e g' hok => ?_
    obtain ⟨-, rfl⟩ := disconnect_eq_ok h.threads hok
    exact ⟨⟨fun _ _ hn => hn, hsame, fun _ x hx => ⟨x, hx, rfl⟩⟩, fun _ _ => .inl⟩

/-- In a graph that was built every node has the ports of its kind. -/
theorem Reachable.laidOut (hg : g.Reachable) (hn : g.node? n = some node) : g.LaidOut node := by
  have hall : g.Invariant ∧ ∀ n node, g.node? n = some node → g.LaidOut node := by
    refine hg.induction (P := fun g => g.Invariant ∧ ∀ n node, g.node? n = some node →
      g.LaidOut node)
      (fun settings => ⟨invariant_empty settings, by simp [empty, node?]⟩) fun g s hs => ?_
    refine ⟨hs.1.step s, fun n node hn => ?_⟩
    have hgrows := hs.1.grows_step s
    rcases hgrows.laidOut n node hn with hold | hnew
    · exact (hs.2 n node hold).mono hgrows.toExtends
    · exact hnew.mono hgrows.toExtends
  exact hall.2 n node hn

/-! ## Ports by name -/

theorem mem_nodeIds : n ∈ g.nodeIds ↔ ∃ node, g.node? n = some node := by
  simp only [nodeIds, Slots.ids, List.mem_map, List.mem_filter, List.mem_range, Slots.contains,
    Option.isSome_iff_exists]
  constructor
  · rintro ⟨i, ⟨-, hnode⟩, rfl⟩
    exact hnode
  · rintro ⟨node, hnode⟩
    exact ⟨n.index, ⟨Slots.lt_size_of_get? hnode, node, hnode⟩, rfl⟩

/-- A port is found by name at its first position, as a 16-bit word. -/
theorem portRef_eq_ok : g.portRef n name = .ok r ↔ ∃ node i, g.node? n = some node ∧
    node.ports.findIdx? (fun p => p.name == name) = some i ∧ r = ⟨n, UInt16.ofNat i⟩ := by
  simp only [portRef, bind_eq_ok, node_eq_ok, Node.portIndex?]
  refine exists_congr fun node => ?_
  cases node.ports.findIdx? (fun p => p.name == name) with
  | none => simp [throw_ne_ok]
  | some i =>
    simp only [Option.map_some, pure_eq_ok, Option.some.injEq, exists_and_left, exists_eq_left']
    exact and_congr_right fun _ => eq_comm

theorem port?_of_node (hn : g.node? r.node = some node) : g.port? r = node.port? r.port := by
  rw [port?, hn, Option.bind_some]

/-- A port that the node has is found by its name. -/
theorem exists_portRef (hn : g.node? n = some node) (hname : name ∈ node.ports.map Port.name) :
    ∃ r, g.portRef n name = .ok r := by
  obtain ⟨p, hp, rfl⟩ := List.mem_map.1 hname
  have hfound : (node.ports.findIdx? fun q => q.name == p.name).isSome := by
    rw [List.findIdx?_isSome, List.any_eq_true]
    exact ⟨p, hp, beq_self_eq_true _⟩
  obtain ⟨i, hi⟩ := Option.isSome_iff_exists.1 hfound
  exact ⟨_, portRef_eq_ok.2 ⟨node, i, hn, hi, rfl⟩⟩

theorem node_of_portRef (hr : g.portRef n name = .ok r) : r.node = n := by
  obtain ⟨-, -, -, -, rfl⟩ := portRef_eq_ok.1 hr
  rfl

/-- A port is found at its position, if no port before it has its name. -/
theorem findIdx?_of_first {ports : List Port} {i : Nat} {p : Port} (hp : ports[i]? = some p)
    (hfirst : p.name ∉ (ports.take i).map Port.name) :
    ports.findIdx? (fun q => q.name == p.name) = some i := by
  obtain ⟨hlt, rfl⟩ := List.getElem?_eq_some_iff.1 hp
  refine List.findIdx?_eq_some_iff_getElem.2 ⟨hlt, beq_self_eq_true _, fun j hj hname => hfirst ?_⟩
  rw [← beq_iff_eq.1 hname]
  exact List.mem_map_of_mem (List.mem_take_iff_getElem.2 ⟨j, by omega, rfl⟩)

/-- Under distinct names a port is found at its own position. -/
theorem findIdx?_of_nodup {ports : List Port} {i : Nat} {p : Port}
    (hdistinct : (ports.map Port.name).Nodup) (hp : ports[i]? = some p) :
    ports.findIdx? (fun q => q.name == p.name) = some i := by
  refine findIdx?_of_first hp fun hmem => ?_
  obtain ⟨hlt, rfl⟩ := List.getElem?_eq_some_iff.1 hp
  obtain ⟨q, hq, hname⟩ := List.mem_map.1 hmem
  obtain ⟨j, hj, rfl⟩ := List.mem_take_iff_getElem.1 hq
  have hlater : j < i := by omega
  exact List.pairwise_iff_getElem.1 (List.pairwise_map.1 hdistinct) j _
    (hlater.trans hlt) hlt hlater
    hname

/-- A port whose name is not among the names before it is found at its position, if that is a
word. -/
theorem port?_portRef {names : List String} {p : Port} (hn : g.node? n = some node)
    (hnames : (node.ports.take names.length).map Port.name = names)
    (hp : node.ports[names.length]? = some p) (hfirst : p.name ∉ names)
    (hword : names.length < 2 ^ 16) (hr : g.portRef n p.name = .ok r) : g.port? r = some p := by
  obtain ⟨node', k, hn', hk, rfl⟩ := portRef_eq_ok.1 hr
  obtain rfl : node = node' := Option.some.inj (hn.symm.trans hn')
  have hfound : node.ports.findIdx? (fun q => q.name == p.name) = some names.length :=
    findIdx?_of_first hp (by rwa [hnames])
  obtain rfl : names.length = k := Option.some.inj (hfound.symm.trans hk)
  have hindex : (UInt16.ofNat names.length).toNat = names.length := UInt16.toNat_ofNat_of_lt' hword
  rw [port?_of_node hn, Node.port?, hindex, hp]

end Graph

/-- The ports that code for a node asks for by name, as far as every node of the kind has them. -/
@[simp]
def NodeKind.asked : NodeKind → List String
  | .event e => [PortName.exit, PortName.state] ++
      if e = .update then [PortName.deltaTime, PortName.elapsedTime, PortName.entityManager] else []
  | .functionEntry _ => [PortName.exit]
  | .operator _ _ => [PortName.left, PortName.right]
  | .setValue => [PortName.target, PortName.value, PortName.exit]
  | .localVar _ _ => [PortName.exit, PortName.out]
  | .branch => [PortName.condition, PortName.onTrue, PortName.onFalse, PortName.exit]
  | .foreach spec => [PortName.body, PortName.exit] ++
      (List.range spec.filters.withSharedComponent.length).map PortName.sharedFilter ++
      (if spec.entityAccess then [PortName.entity] else []) ++ spec.items.map QueryItem.name
  | .jobEntity _ | .jobChunk _ => [PortName.execute]
  | .executor _ _ => [PortName.exit, PortName.jobHandle]
  | .createEntity => [PortName.exit, PortName.entity]
  | .destroyEntity => [PortName.entity, PortName.exit]
  | .getComponent _ => [PortName.entity]
  | .setComponent _ => [PortName.entity, PortName.component, PortName.exit]
  | .setComponentEnabled _ => [PortName.entity, PortName.value, PortName.exit]
  | .ret | .literal _ | .member _ => []

/-- The flow outputs that code for a node is followed along. -/
@[simp]
def NodeKind.followed : NodeKind → List String
  | .event _ | .functionEntry _ | .member _ | .setValue | .localVar _ _ | .executor _ _
  | .createEntity | .destroyEntity | .setComponent _ | .setComponentEnabled _ => [PortName.exit]
  | .branch => [PortName.onTrue, PortName.onFalse, PortName.exit]
  | .foreach _ => [PortName.body, PortName.exit]
  | .jobEntity _ | .jobChunk _ => [PortName.execute]
  | .ret | .literal _ | .operator _ _ | .getComponent _ => []

/-! ## Layouts of members -/

namespace Layout

variable {members : List Member} {target : MemberTarget} {ports : List Port}

/-- A member has one output, its last port.  If that is no flow port, then no port is. -/
def Single (ports : List Port) : Prop :=
  ∃ inputs out, ports = inputs ++ [out] ∧ (∀ p ∈ inputs, p.isInput) ∧
    (out = .flowOut PortName.exit ∨
      out.isOutput ∧ out.isValue ∧ out.name = PortName.out ∧ ∀ p ∈ inputs, p.isValue)

/-- A call has one output, its exit or its result. -/
theorem single_ofCall (params : List (String × TypeRef)) (returns : Option TypeRef) :
    Single (ofCall params returns) := by
  have hparams : ∀ p ∈ params.map fun x => Port.valueIn x.1 (some x.2), p.isInput ∧ p.isValue := by
    intro p hp
    obtain ⟨x, -, rfl⟩ := List.mem_map.1 hp
    exact ⟨rfl, rfl⟩
  cases returns with
  | none =>
    refine ⟨_ :: _, _, rfl, ?_, .inl rfl⟩
    exact List.forall_mem_cons.2 ⟨rfl, fun p hp => (hparams p hp).1⟩
  | some type =>
    exact ⟨_, _, rfl, fun p hp => (hparams p hp).1,
      .inr ⟨rfl, rfl, rfl, fun p hp => (hparams p hp).2⟩⟩

theorem Single.append {front : List Port} (h : Single ports)
    (hfront : ∀ p ∈ front, p.isInput ∧ p.isValue) : Single (front ++ ports) := by
  obtain ⟨inputs, out, rfl, hinputs, hout⟩ := h
  refine ⟨front ++ inputs, out, (List.append_assoc _ _ _).symm, ?_, hout.imp_right ?_⟩
  · exact List.forall_mem_append.2 ⟨fun p hp => (hfront p hp).1, hinputs⟩
  · rintro ⟨hoo, hov, hname, hvalues⟩
    exact ⟨hoo, hov, hname, List.forall_mem_append.2 ⟨fun p hp => (hfront p hp).2, hvalues⟩⟩

theorem single_valueOut (type : Option TypeRef) (access : PortAccess) :
    Single [.valueOut PortName.out type access] := ⟨[], _, rfl, nofun, .inr ⟨rfl, rfl, rfl, nofun⟩⟩

/-- A node that stands for a member has one output. -/
theorem single_ofTarget (hl : ofTarget members target = .ok ports) : Single ports := by
  cases target with
  | function id =>
    simp only [ofTarget, bind_eq_ok, pure_eq_ok] at hl
    obtain ⟨f, -, rfl⟩ := hl
    exact single_ofCall _ _
  | property id =>
    simp only [ofTarget, bind_eq_ok, pure_eq_ok] at hl
    obtain ⟨x, -, rfl⟩ := hl
    exact single_valueOut _ _
  | «variable» id =>
    simp only [ofTarget, bind_eq_ok, pure_eq_ok] at hl
    obtain ⟨x, -, rfl⟩ := hl
    exact single_valueOut _ _
  | external e =>
    obtain rfl := Except.ok.inj hl
    have hreceiver : ∀ p ∈ e.receiver.toList.map fun type => Port.valueIn PortName.self (some type),
        p.isInput ∧ p.isValue := by
      intro p hp
      obtain ⟨type, -, rfl⟩ := List.mem_map.1 hp
      exact ⟨rfl, rfl⟩
    unfold ofExternal
    split
    · exact (single_valueOut _ _).append hreceiver
    · exact (single_valueOut _ _).append hreceiver
    · exact (single_ofCall _ _).append hreceiver

/-- The output of a member in the flow is its exit. -/
theorem Single.exists_exit (h : Single ports) (hflow : ∃ p ∈ ports, p.isFlow) :
    ∃ inputs, ports = inputs ++ [.flowOut PortName.exit] ∧ ∀ p ∈ inputs, p.isInput := by
  obtain ⟨inputs, out, rfl, hinputs, rfl | ⟨-, hvalue, -, hvalues⟩⟩ := h
  · exact ⟨inputs, rfl, hinputs⟩
  · obtain ⟨p, hp, hpflow⟩ := hflow
    have hpvalue : p.isValue := (List.mem_append.1 hp).elim (hvalues p) fun hlast =>
      List.mem_singleton.1 hlast ▸ hvalue
    simp [Port.isValue, hpflow] at hpvalue

/-- An output of a member is its last port. -/
theorem Single.eq_of_isOutput {inputs : List Port} {p out : Port} {i : Nat}
    (hinputs : ∀ p ∈ inputs, p.isInput) (hp : (inputs ++ [out])[i]? = some p) (hout : p.isOutput) :
    i = inputs.length ∧ p = out := by
  rcases Nat.lt_or_ge i inputs.length with hlt | hge
  · rw [List.getElem?_append_left hlt] at hp
    have hin := hinputs p (List.mem_of_getElem? hp)
    simp only [Port.isInput, Port.isOutput, beq_iff_eq] at hin hout
    rw [hin] at hout
    cases hout
  · obtain ⟨hlt, hget⟩ := List.getElem?_eq_some_iff.1 hp
    rw [List.length_append, List.length_singleton] at hlt
    obtain rfl : i = inputs.length := by omega
    exact ⟨rfl, by simpa using hget.symm⟩

end Layout

/-- A node that is not pure has a flow port. -/
theorem Node.exists_flow_of_not_isPure {node : Node} (h : ¬node.isPure) :
    ∃ p ∈ node.ports, p.isFlow := by
  simpa [Node.isPure] using h

/-! ## Ports that code asks for -/

namespace Graph

variable {g : Graph} {n : NodeId} {node : Node} {name : String} {r : PortRef} {e : Edge}

/-- A node with a flow port is no pure producer. -/
theorem not_isPure_of_isFlowPort (hflow : g.IsFlowPort r) (hn : g.node? r.node = some node) :
    ¬node.isPure := by
  obtain ⟨p, hp, hpflow⟩ := hflow
  rw [port?_of_node hn] at hp
  intro hpure
  have hnone : node.ports.any Port.isFlow = false := by simpa [Node.isPure] using hpure
  exact List.any_eq_false.1 hnone p (List.mem_of_getElem? hp) hpflow

/-- A node has a port for every name that code asks for. -/
theorem LaidOut.mem_names (h : g.LaidOut node) (hname : name ∈ node.kind.asked) :
    name ∈ node.ports.map Port.name := by
  obtain ⟨title, kind, container, ports⟩ := node
  obtain ⟨job, -, hl⟩ := h
  cases kind with
  | ret | literal _ | member _ => exact absurd hname List.not_mem_nil
  | functionEntry f =>
    simp only [NodeKind.layout, bind_eq_ok, pure_eq_ok] at hl
    obtain ⟨f', -, rfl⟩ := hl
    rw [List.mem_singleton.1 hname]
    exact List.mem_cons_self
  | event ev =>
    obtain rfl := Except.ok.inj hl
    cases ev <;> exact hname
  | «foreach» spec =>
    obtain rfl := Except.ok.inj hl
    simp only [NodeKind.asked, List.mem_append, List.mem_map, List.mem_range] at hname
    simp only [Layout.ofForeach, List.map_append, List.mem_append]
    rcases hname with ((hfixed | ⟨i, hi, rfl⟩) | hentity) | ⟨item, hitem, rfl⟩
    · exact .inl (.inl (.inl (List.mem_cons_of_mem _ hfixed)))
    · exact .inl (.inl (.inr (List.mem_map.2 ⟨_, List.mem_mapIdx.2 ⟨i, hi, rfl⟩, rfl⟩)))
    · refine .inl (.inr ?_)
      rw [apply_ite (List.map Port.name)]
      exact hentity
    · exact .inr (List.mem_map.2 ⟨Layout.ofItem item, List.mem_map_of_mem hitem, rfl⟩)
  | jobEntity spec =>
    obtain rfl := Except.ok.inj hl
    rw [List.mem_singleton.1 hname]
    simp [Layout.ofJobEntity, Port.flowOut]
  | jobChunk spec =>
    obtain rfl := Except.ok.inj hl
    rw [List.mem_singleton.1 hname]
    exact List.mem_cons_self
  | executor runWith job =>
    obtain rfl := Except.ok.inj hl
    simp only [NodeKind.asked, List.mem_cons, List.not_mem_nil, or_false] at hname
    rcases hname with rfl | rfl <;> simp [Layout.ofExecutor, Port.flowOut, Port.valueOut]
  | operator _ _ | setValue | localVar _ _ | branch | createEntity | destroyEntity | getComponent _
  | setComponent _ | setComponentEnabled _ =>
    obtain rfl := Except.ok.inj hl
    simp only [NodeKind.asked, List.mem_cons, List.not_mem_nil, or_false] at hname
    simp only [List.map_cons, List.map_nil, List.mem_cons, Port.flowIn, Port.flowOut, Port.valueIn,
      Port.valueOut, Layout.entityOut]
    grind

/-- A port that code asks for by name is found. -/
theorem LaidOut.exists_portRef (h : g.LaidOut node) (hn : g.node? n = some node)
    (hname : name ∈ node.kind.asked) : ∃ r, g.portRef n name = .ok r :=
  Graph.exists_portRef hn (h.mem_names hname)

/-- A member in the flow has an exit. -/
theorem LaidOut.exists_portRef_exit {target : MemberTarget} (h : g.LaidOut node)
    (hn : g.node? n = some node) (hkind : node.kind = .member target) (hflow : ¬node.isPure) :
    ∃ r, g.portRef n PortName.exit = .ok r := by
  obtain ⟨job, -, hl⟩ := h
  rw [hkind] at hl
  obtain ⟨inputs, hports, -⟩ :=
    (Layout.single_ofTarget hl).exists_exit (Node.exists_flow_of_not_isPure hflow)
  exact Graph.exists_portRef hn (by simp [hports, Port.flowOut])

/-- What is wired from the exit of a member is wired from a flow port, even where a parameter has
the name of the exit or the positions of ports are no words. -/
theorem LaidOut.port?_exit {target : MemberTarget} (h : g.LaidOut node)
    (hn : g.node? n = some node) (hkind : node.kind = .member target)
    (hr : g.portRef n PortName.exit = .ok r) (hj : g.Joins e) (hs : e.source = r) :
    g.port? r = some (.flowOut PortName.exit) := by
  obtain ⟨job, -, hl⟩ := h
  rw [hkind] at hl
  obtain ⟨inputs, out, hports, hinputs, hlast⟩ := Layout.single_ofTarget hl
  obtain ⟨p, -, hsource, -, hout, -, -⟩ := hj
  rw [hs] at hsource
  obtain ⟨node', i, hn', hi, rfl⟩ := portRef_eq_ok.1 hr
  obtain rfl : node' = node := Option.some.inj (hn'.symm.trans hn)
  have hp := hsource
  rw [port?_of_node hn, Node.port?, hports] at hp
  obtain ⟨hposition, rfl⟩ := Layout.Single.eq_of_isOutput hinputs hp hout
  rw [hports, List.findIdx?_eq_some_iff_getElem] at hi
  obtain ⟨hlt, hexit, -⟩ := hi
  -- the word is at most the position found, which is at most the last one
  have hword : (UInt16.ofNat i).toNat ≤ i := by
    rw [UInt16.toNat_ofNat']
    exact Nat.mod_le _ _
  have hfound : i = inputs.length := by
    rw [List.length_append, List.length_singleton] at hlt
    exact Nat.le_antisymm (Nat.le_of_lt_succ hlt) (hposition ▸ hword)
  subst hfound
  rcases hlast with rfl | ⟨-, -, hname, -⟩
  · exact hsource
  · rw [List.getElem_concat_length rfl, hname] at hexit
    exact absurd hexit (by decide)

/-- A name along which code is followed finds the flow output of this name, if anything is wired to
the port that it finds. -/
theorem LaidOut.port?_followed (h : g.LaidOut node) (hn : g.node? n = some node)
    (hname : name ∈ node.kind.followed) (hr : g.portRef n name = .ok r) (hj : g.Joins e)
    (hs : e.source = r) : g.port? r = some (.flowOut name) := by
  obtain ⟨title, kind, container, ports⟩ := node
  obtain ⟨job, hjob, hl⟩ := h
  -- a flow output that comes first among the ports of its name
  have hfirst : ∀ (names : List String) (name' : String), name = name' →
      (ports.take names.length).map Port.name = names →
      ports[names.length]? = some (.flowOut name') → name' ∉ names ∧ names.length < 2 ^ 16 →
      g.port? r = some (.flowOut name) := by
    rintro names _ rfl hnames hp ⟨hnot, hword⟩
    exact port?_portRef (p := .flowOut name) hn hnames hp hnot hword hr
  cases kind with
  | event ev =>
    obtain rfl := Except.ok.inj hl
    exact hfirst [] _ (List.mem_singleton.1 hname) rfl rfl (by decide)
  | functionEntry f =>
    simp only [NodeKind.layout, bind_eq_ok, pure_eq_ok] at hl
    obtain ⟨f', -, rfl⟩ := hl
    exact hfirst [] _ (List.mem_singleton.1 hname) rfl rfl (by decide)
  | setValue =>
    obtain rfl := Except.ok.inj hl
    exact hfirst ["enter", "target", "value"] _ (List.mem_singleton.1 hname) rfl rfl (by decide)
  | localVar title type =>
    obtain rfl := Except.ok.inj hl
    exact hfirst ["enter", "value"] _ (List.mem_singleton.1 hname) rfl rfl (by decide)
  | createEntity =>
    obtain rfl := Except.ok.inj hl
    exact hfirst ["enter"] _ (List.mem_singleton.1 hname) rfl rfl (by decide)
  | destroyEntity =>
    obtain rfl := Except.ok.inj hl
    exact hfirst ["enter", "entity"] _ (List.mem_singleton.1 hname) rfl rfl (by decide)
  | setComponent c =>
    obtain rfl := Except.ok.inj hl
    exact hfirst ["enter", "entity", "component"] _ (List.mem_singleton.1 hname) rfl rfl (by decide)
  | setComponentEnabled c =>
    obtain rfl := Except.ok.inj hl
    exact hfirst ["enter", "entity", "value"] _ (List.mem_singleton.1 hname) rfl rfl (by decide)
  | branch =>
    obtain rfl := Except.ok.inj hl
    simp only [NodeKind.followed, List.mem_cons, List.not_mem_nil, or_false] at hname
    rcases hname with htrue | hfalse | hexit
    · exact hfirst ["enter", "condition"] _ htrue rfl rfl (by decide)
    · exact hfirst ["enter", "condition", "true"] _ hfalse rfl rfl (by decide)
    · exact hfirst ["enter", "condition", "true", "false"] _ hexit rfl rfl (by decide)
  | «foreach» spec =>
    obtain rfl := Except.ok.inj hl
    simp only [NodeKind.followed, List.mem_cons, List.not_mem_nil, or_false] at hname
    rcases hname with hbody | hexit
    · exact hfirst ["enter"] _ hbody rfl rfl (by decide)
    · exact hfirst ["enter", "body"] _ hexit rfl rfl (by decide)
  | executor runWith job =>
    obtain rfl := Except.ok.inj hl
    have hexit := List.mem_singleton.1 hname
    cases runWith with
    | run | schedule => exact hfirst ["enter", "query", "dependsOn"] _ hexit rfl rfl (by decide)
    | scheduleParallel =>
      exact hfirst ["enter", "query", "dependsOn", "chunkBaseEntityIndices"] _ hexit rfl
        rfl (by decide)
  | jobEntity spec =>
    obtain rfl := Except.ok.inj hl
    exact hfirst [] _ (List.mem_singleton.1 hname) rfl rfl (by decide)
  | jobChunk spec =>
    obtain rfl := Except.ok.inj hl
    exact hfirst [] _ (List.mem_singleton.1 hname) rfl rfl (by decide)
  | member target =>
    obtain rfl := List.mem_singleton.1 hname
    exact LaidOut.port?_exit ⟨job, hjob, hl⟩ hn rfl hr hj hs
  | ret | literal _ | operator _ _ | getComponent _ => exact absurd hname List.not_mem_nil

/-- A port from which code is followed is a flow port, if anything is wired to it. -/
theorem LaidOut.isFlowPort (h : g.LaidOut node) (hn : g.node? n = some node)
    (hname : name ∈ node.kind.followed) (hr : g.portRef n name = .ok r) (hj : g.Joins e)
    (hs : e.source = r) : g.IsFlowPort r :=
  ⟨_, h.port?_followed hn hname hr hj hs, rfl⟩

end Graph

end EntityFlow
