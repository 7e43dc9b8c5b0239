import EntityFlow.Proofs.Generation.Walk
import EntityFlow.Proofs.Planning.Names

/-!
# Values are found

Reading an input asks for the expression of the output that feeds it, and so on along a chain of
pure producers.  If these do not feed one another in a cycle, then the chain repeats no node and the
fuel lasts.  A value may also be asked of a flow output, by a call whose argument was wired to the
flow; then the chain starts anew at the arguments of that call, which are values.
-/

namespace EntityFlow

namespace Graph

variable {g : Graph} {n : NodeId} {node : Node} {name : String} {r : PortRef} {e : Edge}

/-- A value connection leads from one pure producer to another. -/
def PureFeeds (g : Graph) (m n : NodeId) : Prop :=
  ∃ e ∈ g.live, e.kind = .value ∧ e.source.node = m ∧ e.target.node = n ∧
    g.IsPureProducer m ∧ g.IsPureProducer n

/-- A reachable graph whose values can be told apart by name and computed one after another. -/
structure Orderly (g : Graph) : Prop where
  reachable : g.Reachable
  distinct : ∀ n node, g.node? n = some node → (node.ports.map Port.name).Nodup
  acyclic : ∀ n, ¬Relation.TransGen g.PureFeeds n n

/-- A list of nodes without repetition is no longer than the table of nodes. -/
theorem length_le_bound {ns : List NodeId} (hnodup : ns.Nodup)
    (hns : ∀ n ∈ ns, ∃ node, g.node? n = some node) : ns.length ≤ g.bound := by
  have hsub : ns ⊆ g.slotIds := fun n hn => mem_slotIds (hns n hn).choose_spec
  simpa [slotIds] using (List.subperm_of_subset hnodup hsub).length_le

/-- The inputs that a member reads. -/
def arguments (g : Graph) : MemberTarget → List String
  | .function m => ((g.function? m).map fun f => f.params.map Parameter.name).getD []
  | .external e => e.receiver.toList.map (fun _ => PortName.self) ++
      match e.use with
      | .method params _ => params.map Prod.fst
      | .field _ _ | .property _ _ => []
  | .variable _ | .property _ => []

/-- The inputs that a node reads to compute its output. -/
def operands (g : Graph) : NodeKind → List String
  | .operator _ _ => [PortName.left, PortName.right]
  | .member target => g.arguments target
  | .getComponent _ => [PortName.entity]
  | _ => []

/-- Every parameter of a call has a value port of its name. -/
theorem mem_ofCall_of_mem {params : List (String × TypeRef)} (returns : Option TypeRef)
    (hname : name ∈ params.map Prod.fst) :
    ∃ p ∈ Layout.ofCall params returns, p.name = name ∧ p.isValue := by
  obtain ⟨x, hx, rfl⟩ := List.mem_map.1 hname
  refine ⟨.valueIn x.1 (some x.2), ?_, rfl, rfl⟩
  have hmem : Port.valueIn x.1 (some x.2) ∈ params.map fun x => Port.valueIn x.1 (some x.2) :=
    List.mem_map_of_mem hx
  unfold Layout.ofCall
  cases returns with
  | none => exact List.mem_append_left _ (List.mem_cons_of_mem _ hmem)
  | some type => exact List.mem_append_left _ hmem

/-- A member has a value port for each of its arguments. -/
theorem exists_argument {target : MemberTarget} {ports : List Port}
    (hl : Layout.ofTarget g.members target = .ok ports) (hname : name ∈ g.arguments target) :
    ∃ p ∈ ports, p.name = name ∧ p.isValue := by
  cases target with
  | function m =>
    simp only [Layout.ofTarget, bind_eq_ok, pure_eq_ok] at hl
    obtain ⟨f, hf, rfl⟩ := hl
    obtain ⟨x, hx, hview⟩ := lookup_eq_ok hf
    have hfunction : g.function? m = some f := Option.bind_eq_some_iff.2 ⟨x, hx, hview⟩
    refine mem_ofCall_of_mem _ ?_
    simpa [arguments, hfunction] using hname
  | external e =>
    obtain rfl := Except.ok.inj hl
    rcases List.mem_append.1 hname with hself | hparam
    · obtain ⟨type, htype, rfl⟩ := List.mem_map.1 hself
      have hmem : Port.valueIn PortName.self (some type) ∈
          e.receiver.toList.map fun type => Port.valueIn PortName.self (some type) :=
        List.mem_map_of_mem htype
      refine ⟨.valueIn PortName.self (some type), ?_, rfl, rfl⟩
      unfold Layout.ofExternal
      split
      · exact List.mem_append_left _ hmem
      · exact List.mem_append_left _ hmem
      · exact List.mem_append_left _ hmem
    · unfold Layout.ofExternal
      split at hparam
      · rename_i params returns huse
        obtain ⟨p, hp, hrest⟩ := mem_ofCall_of_mem returns hparam
        rw [huse]
        exact ⟨p, List.mem_append_right _ hp, hrest⟩
      · exact absurd hparam List.not_mem_nil
      · exact absurd hparam List.not_mem_nil
  | property m | «variable» m => exact absurd hname List.not_mem_nil

/-- A node has a port for every operand of its kind. -/
theorem LaidOut.exists_operand (h : g.LaidOut node) (hname : name ∈ g.operands node.kind) :
    name ∈ node.ports.map Port.name := by
  cases hkind : node.kind with
  | operator op type => exact h.mem_names (by simpa [hkind, operands] using hname)
  | getComponent c => exact h.mem_names (by simpa [hkind, operands] using hname)
  | member target =>
    rw [hkind] at hname
    obtain ⟨job, -, hl⟩ := h
    rw [hkind] at hl
    obtain ⟨p, hp, rfl, -⟩ := exists_argument hl hname
    exact List.mem_map_of_mem hp
  | _ => simp [hkind, operands] at hname

/-- Connections into a pure producer are value connections. -/
theorem Reachable.kind_of_pure (hg : g.Reachable) (he : e ∈ g.live)
    (hpure : g.IsPureProducer e.target.node) : e.kind = .value ∧ g.IsValuePort e.source := by
  obtain ⟨s, t, hs, ht, -, -, ⟨-, -, htflow⟩ | ⟨hkind, hsvalue, -⟩⟩ := hg.invariant.joins_of_mem he
  · obtain ⟨node, hnode, hpure⟩ := hpure
    exact absurd hpure (not_isPure_of_isFlowPort ⟨t, ht, htflow⟩ hnode)
  · exact ⟨hkind, s, hs, hsvalue⟩

/-- What feeds a value input is a value. -/
theorem Reachable.isValuePort_source (hg : g.Reachable) (he : e ∈ g.live)
    (hvalue : g.IsValuePort e.target) : g.IsValuePort e.source := by
  obtain ⟨s, t, hs, ht, -, -, ⟨-, -, htflow⟩ | ⟨-, hsvalue, -⟩⟩ := hg.invariant.joins_of_mem he
  · obtain ⟨p, hp, hpvalue⟩ := hvalue
    rw [Option.some.inj (hp.symm.trans ht), Port.isValue, htflow] at hpvalue
    cases hpvalue
  · exact ⟨s, hs, hsvalue⟩

/-- Operators and component reads are pure, so that only a call in the flow has operands there. -/
theorem LaidOut.operands_cases (h : g.LaidOut node) (hflow : ¬node.isPure) :
    g.operands node.kind = [] ∨ ∃ target inputs, node.kind = .member target ∧
      Layout.ofTarget g.members target = .ok node.ports ∧
      node.ports = inputs ++ [.flowOut PortName.exit] ∧ ∀ p ∈ inputs, p.isInput := by
  obtain ⟨title, kind, container, ports⟩ := node
  obtain ⟨job, -, hl⟩ := h
  cases kind with
  | operator op type | getComponent c =>
    obtain rfl := Except.ok.inj hl
    exact absurd rfl hflow
  | member target =>
    obtain ⟨inputs, hports, hinputs⟩ :=
      (Layout.single_ofTarget hl).exists_exit (Node.exists_flow_of_not_isPure hflow)
    exact .inr ⟨target, inputs, rfl, hl, hports, hinputs⟩
  | _ => exact .inl rfl

/-- What a call in the flow has wired to its output is wired to its last port. -/
theorem Reachable.source_eq_last (hg : g.Reachable) (he : e ∈ g.live)
    (hn : g.node? e.source.node = some node) {inputs : List Port} {out : Port}
    (hports : node.ports = inputs ++ [out]) (hinputs : ∀ p ∈ inputs, p.isInput) :
    e.source.port.toNat = inputs.length ∧ g.port? e.source = some out := by
  obtain ⟨s, -, hs, -, hout, -⟩ := hg.invariant.joins_of_mem he
  have hport := hs
  rw [port?_of_node hn, Node.port?, hports] at hport
  obtain ⟨hposition, rfl⟩ := Layout.Single.eq_of_isOutput hinputs hport hout
  exact ⟨hposition, hs⟩

/-- A node in the flow computes no value from operands. -/
theorem Reachable.operands_of_flow (hg : g.Reachable) (he : e ∈ g.live)
    (hvalue : g.IsValuePort e.source) (hn : g.node? e.source.node = some node)
    (hflow : ¬node.isPure) : g.operands node.kind = [] := by
  rcases (hg.laidOut hn).operands_cases hflow with hnil | ⟨target, inputs, -, -, hports, hinputs⟩
  · exact hnil
  · obtain ⟨p, hp, hpvalue⟩ := hvalue
    rw [(hg.source_eq_last he hn hports hinputs).2] at hp
    rw [← Option.some.inj hp] at hpvalue
    cases hpvalue

/-- The operands of a node that is wired into the flow by an output are values.  Its last port has a
position that is a word, so that all positions are, and its names are distinct. -/
theorem Orderly.isValuePort_operand (h : g.Orderly) (he : e ∈ g.live)
    (hflow : g.IsFlowPort e.source)
    (hn : g.node? e.source.node = some node) (hname : name ∈ g.operands node.kind)
    (hr : g.portRef e.source.node name = .ok r) : g.IsValuePort r := by
  rcases (h.reachable.laidOut hn).operands_cases (not_isPure_of_isFlowPort hflow hn) with
    hnil | ⟨target, inputs, hkind, hl, hports, hinputs⟩
  · rw [hnil] at hname
    exact absurd hname List.not_mem_nil
  · rw [hkind] at hname
    obtain ⟨p, hp, rfl, hvalue⟩ := exists_argument hl hname
    obtain ⟨hposition, -⟩ := h.reachable.source_eq_last he hn hports hinputs
    obtain ⟨node', i, hnode', hi, rfl⟩ := portRef_eq_ok.1 hr
    obtain rfl : node = node' := Option.some.inj (hn.symm.trans hnode')
    obtain ⟨hlt, hfound, -⟩ := List.findIdx?_eq_some_iff_getElem.1 hi
    have hsame : node.ports[i] = p := List.inj_on_of_nodup_map (h.distinct _ node hn)
      (List.getElem_mem hlt) hp (beq_iff_eq.1 hfound)
    have hword : (UInt16.ofNat i).toNat = i := by
      refine UInt16.toNat_ofNat_of_lt' (Nat.lt_of_le_of_lt ?_ e.source.port.toNat_lt)
      rw [hposition]
      simpa [hports, Nat.lt_succ_iff] using hlt
    refine ⟨p, ?_, hvalue⟩
    have hport : g.port? ⟨e.source.node, UInt16.ofNat i⟩ = node.ports[(UInt16.ofNat i).toNat]? :=
      port?_of_node hn
    rw [hport, hword, List.getElem?_eq_getElem hlt, hsame]

end Graph

namespace Site

open Generation Planning

variable {s : Site} {resolve : Resolve} {n : NodeId} {node : Node} {name : String}
  {access : Access} {input output : PortRef} {e : Edge} {E : CompileError → Prop}

/-- An input fails only if its source does. -/
theorem meets_inputWith (h : s.graph.Anchored) (hsource : ∀ e ∈ s.graph.live, e.target = input →
      Meets (resolve access e.source) (fun _ => True) E) :
    Meets (s.inputWith resolve access input) (fun _ => True) E := by
  unfold inputWith
  split
  · exact meets_pure trivial
  · split
    · exact meets_pure trivial
    · split
      · rename_i source hs
        obtain ⟨e, he, rfl, ht⟩ := h.mem_sourcesOf.1 (Graph.mem_sourcesOf_of_sourceOf? hs)
        exact hsource e he ht
      · exact meets_bind (meets_report (T := fun _ => True) _ _ trivial)
          fun _ _ => meets_pure trivial

/-- A request for a handle fails only with an error that is excused. -/
theorem meets_handle (hE : Excuses s.graph E) (n : NodeId) (h : Handle) :
    Meets (s.handle n h) (fun _ => True) E := by
  refine meets_bind (meets_attempt (Q := fun _ => True) (fun _ _ => trivial) fun e he => ?_)
    fun x _ => meets_bind (meets_note (T := fun _ => True) x trivial) fun _ _ => meets_pure trivial
  obtain ⟨rfl, -, hsystem⟩ := request_eq_error he
  exact hE hsystem _

/-! ## One node -/

section Compute

variable (hg : s.graph.Reachable) (hp : Complete s.graph s.plan)
  (hhandle : ∀ n h, Meets (s.handle n h) (fun _ => True) E) (hn : s.graph.node? n = some node)
  (hinput : ∀ access, ∀ name ∈ s.graph.operands node.kind, ∀ r, s.graph.portRef n name = .ok r →
    Meets (s.inputWith resolve access r) (fun _ => True) E)

include hg hn hinput

theorem meets_readWith (hname : name ∈ s.graph.operands node.kind) :
    Meets (s.readWith resolve n name) (fun _ => True) E :=
  meets_bind (meets_portRef (Graph.exists_portRef hn ((hg.laidOut hn).exists_operand hname)))
    fun r hr => hinput .read name hname r hr

theorem meets_argumentsWith {params : List String}
    (hparams : ∀ name ∈ params, name ∈ s.graph.operands node.kind) :
    Meets (s.argumentsWith resolve n params) (fun _ => True) E :=
  (meets_mapM (R := fun _ => True) fun name hname =>
    meets_readWith hg hn hinput (hparams name hname)).imp fun _ _ => trivial

include hp

/-- A call of a member fails only with an error that is excused. -/
theorem meets_memberWith {target : MemberTarget} (hkind : node.kind = .member target)
    (access : Access) : Meets (s.memberWith resolve n target access) (fun _ => True) E := by
  have hrefers := hg.invariant.refers n node hn
  rw [hkind] at hrefers
  have hname : ∀ m x, s.graph.member? m = some x → Meets (s.memberName m) (fun _ => True) E := by
    intro m x hx
    obtain ⟨name, hname⟩ := hp.members m x hx
    rw [memberName, hname]
    exact meets_pure trivial
  have hoperands : s.graph.operands node.kind = s.graph.arguments target := by rw [hkind]; rfl
  cases target with
  | «variable» m | property m =>
    obtain ⟨x, hx⟩ := hrefers
    exact meets_bind (hname m _ hx) fun _ _ => meets_pure trivial
  | function m =>
    obtain ⟨f, hf⟩ := hrefers
    refine meets_bind (hname m _ hf) fun name _ => ?_
    refine meets_bind (meets_argumentsWith hg hn hinput fun name hname => ?_) fun args _ =>
      meets_pure trivial
    rw [hoperands]
    exact hname
  | external ext =>
    have hreceiver : Meets (s.receiverWith resolve n ext access) (fun _ => True) E := by
      unfold receiverWith
      split
      · rename_i type htype
        have hself : PortName.self ∈ s.graph.operands node.kind := by
          simp [hoperands, Graph.arguments, htype]
        refine meets_bind (meets_portRef (Graph.exists_portRef hn
          ((hg.laidOut hn).exists_operand hself))) fun r hr => ?_
        exact meets_bind (hinput access _ hself r hr) fun _ _ => meets_pure trivial
      · exact meets_pure trivial
    refine meets_bind hreceiver fun receiver _ => ?_
    split
    · exact meets_pure trivial
    · exact meets_pure trivial
    · rename_i params returns huse
      refine meets_bind (meets_argumentsWith hg hn hinput fun name hname => ?_) fun args _ =>
        meets_pure trivial
      rw [hoperands, Graph.arguments, huse]
      exact List.mem_append_right _ hname

include hhandle

/-- The code of an output fails only with an error that is excused. -/
theorem meets_computeWith (hout : output.node = n) (access : Access) :
    Meets (s.computeWith resolve access output) (fun _ => True) E := by
  subst hout
  obtain ⟨title, kind, container, ports⟩ := node
  refine meets_bind (meets_node hn) ?_
  rintro _ rfl
  cases kind with
  | literal value => exact meets_pure trivial
  | operator op type =>
    refine meets_bind (meets_readWith hg hn hinput (by simp [Graph.operands])) fun left _ => ?_
    exact meets_bind (meets_readWith hg hn hinput (by simp [Graph.operands])) fun right _ =>
      meets_pure trivial
  | member target => exact meets_memberWith hg hp hn hinput rfl access
  | getComponent c =>
    refine meets_bind (meets_readWith hg hn hinput (by simp [Graph.operands])) fun entity _ => ?_
    split
    · exact meets_pure trivial
    · exact meets_bind (hhandle _ _) fun _ _ => meets_pure trivial
  | _ =>
    exact meets_bind (meets_report (T := fun _ => True) _ _ trivial) fun _ _ => meets_pure trivial

end Compute

/-! ## All that statements ask for -/

section Sources

variable (hg : s.graph.Reachable) (hp : Complete s.graph s.plan) (hE : Excuses s.graph E)

include hg hp hE

/-- Nothing is missing where all that is connected can be read. -/
theorem provides_of_value (hvalue : ∀ e ∈ s.graph.live, ∀ access,
    Meets (s.value access e.source) (fun _ => True) E) : s.Provides E := by
  have hinput : ∀ access i, Meets (s.inputWith s.value access i) (fun _ => True) E :=
    fun access i => meets_inputWith hg.invariant.anchored fun e he _ => hvalue e he access
  refine ⟨hinput, meets_handle hE, fun n node target hn hkind => ?_,
    fun n node title type out hn hkind hout hnone => ?_, fun j hj executor => ?_⟩
  · exact meets_memberWith hg hp hn (fun access name _ r _ => hinput access r) hkind .read
  · obtain ⟨name, hname⟩ := hp.locals n node title type out hn hkind hout
    exact absurd (hname.symm.trans hnone) nofun
  · obtain ⟨node, hnode⟩ := hp.jobs j hj
    refine meets_bind (meets_node hnode) fun _ _ => ?_
    refine meets_bind (meets_mapM (R := fun _ => True) fun f hf => ?_) fun fields _ =>
      meets_pure trivial
    refine meets_bind (Q := fun _ => True) ?_ fun _ _ => meets_pure trivial
    unfold fieldValue
    split
    · rename_i source hsource
      obtain ⟨e, he, rfl⟩ := hp.sources j hj f hf source hsource
      exact meets_map (hvalue e he .read) fun _ => id
    · exact meets_pure trivial
    · split
      · exact meets_readOptional hinput _ _
      · exact meets_pure trivial

/-- By induction on the fuel: a value can be read unless it runs in a circle. -/
theorem meets_valueWithin_of_cycle (hcycle : ∀ n, E (.valueCycle n)) (fuel : Nat)
    (he : e ∈ s.graph.live) (access : Access) :
    Meets (s.valueWithin fuel access e.source) (fun _ => True) E := by
  induction fuel generalizing e access with
  | zero => exact meets_throw (hcycle _)
  | succ fuel ih =>
    obtain ⟨node, hnode⟩ := hg.invariant.anchored.source e he
    unfold valueWithin
    split
    · exact meets_pure trivial
    · refine meets_computeWith hg hp (meets_handle hE) hnode
        (fun access name _ r _ => ?_) rfl access
      exact meets_inputWith hg.invariant.anchored fun e' he' _ => ih he' access

/-- A circle of values is all that can go wrong, wherever the unit has its update method. -/
theorem provides_of_cycle (hcycle : ∀ n, E (.valueCycle n)) : s.Provides E :=
  provides_of_value hg hp hE fun _ he access =>
    meets_valueWithin_of_cycle hg hp hE hcycle _ he access

end Sources

/-! ## Chains of values -/

section Acyclic

variable (hacyclic : ∀ n, ¬Relation.TransGen s.graph.PureFeeds n n)

include hacyclic

/-- A node that feeds all pure producers on a path is not on it. -/
theorem nodup_cons_of_feeds {path : List NodeId} (hnodup : path.Nodup)
    (hpure : ∀ m ∈ path, s.graph.IsPureProducer m)
    (hfeeds : s.graph.IsPureProducer n → ∀ m ∈ path, Relation.TransGen s.graph.PureFeeds n m) :
    (n :: path).Nodup :=
  List.nodup_cons.2 ⟨fun hn => hacyclic n (hfeeds (hpure n hn) n hn), hnodup⟩

variable (hg : s.graph.Reachable) (hp : Complete s.graph s.plan)
  (hhandle : ∀ n h, Meets (s.handle n h) (fun _ => True) E)

include hg hp hhandle

/-- By induction on the fuel.  `path` holds the pure producers passed so far; the output feeds them,
so it is none of them, and there are fewer of them than nodes. -/
theorem meets_valueWithin {fuel : Nat} {path : List NodeId} (he : e ∈ s.graph.live)
    (hvalue : s.graph.IsValuePort e.source) (hnodup : path.Nodup)
    (hpure : ∀ m ∈ path, s.graph.IsPureProducer m)
    (hfeeds : s.graph.IsPureProducer e.source.node →
      ∀ m ∈ path, Relation.TransGen s.graph.PureFeeds e.source.node m)
    (hfuel : s.graph.bound ≤ fuel + path.length) :
    Meets (s.valueWithin fuel access e.source) (fun _ => True) E := by
  induction fuel generalizing e path access with
  | zero =>
    have hlen := Graph.length_le_bound (nodup_cons_of_feeds hacyclic hnodup hpure hfeeds)
      (List.forall_mem_cons.2
        ⟨hg.invariant.anchored.source e he, fun m hm => (hpure m hm).imp fun _ h => h.1⟩)
    rw [List.length_cons] at hlen
    omega
  | succ fuel ih =>
    obtain ⟨node, hnode⟩ := hg.invariant.anchored.source e he
    unfold valueWithin
    split
    · exact meets_pure trivial
    · refine meets_computeWith hg hp hhandle hnode (fun access name hname r hr => ?_) rfl access
      refine meets_inputWith hg.invariant.anchored fun e' he' ht => ?_
      have htarget : e'.target.node = e.source.node := by rw [ht, Graph.node_of_portRef hr]
      by_cases hflow : node.isPure
      · have hproducer : s.graph.IsPureProducer e.source.node := ⟨node, hnode, hflow⟩
        obtain ⟨hkind, hvalue'⟩ := hg.kind_of_pure he' (htarget ▸ hproducer)
        refine ih he' hvalue' (nodup_cons_of_feeds hacyclic hnodup hpure hfeeds)
          (List.forall_mem_cons.2 ⟨hproducer, hpure⟩) (fun hsource => ?_) ?_
        · have hstep : s.graph.PureFeeds e'.source.node e.source.node :=
            ⟨e', he', hkind, rfl, htarget, hsource, hproducer⟩
          exact List.forall_mem_cons.2
            ⟨.single hstep, fun m hm => .head hstep (hfeeds hproducer m hm)⟩
        · rw [List.length_cons]
          omega
      · rw [hg.operands_of_flow he hvalue hnode hflow] at hname
        exact absurd hname List.not_mem_nil

/-- With fuel for all nodes, the value of a connected output does not fail for lack of fuel. -/
theorem meets_valueWithin_of_size_le {fuel : Nat} (he : e ∈ s.graph.live)
    (hvalue : s.graph.IsValuePort e.source) (hfuel : s.graph.bound ≤ fuel) :
    Meets (s.valueWithin fuel access e.source) (fun _ => True) E :=
  meets_valueWithin hacyclic hg hp hhandle he hvalue List.nodup_nil (List.forall_mem_nil _)
    (fun _ => List.forall_mem_nil _) hfuel

end Acyclic

section Chains

variable (hs : s.graph.Orderly) (hp : Complete s.graph s.plan) (hE : Excuses s.graph E)

include hs hp hE

/-- A value that is asked of the flow is computed from values. -/
theorem meets_valueWithin_flow {fuel : Nat} (he : e ∈ s.graph.live)
    (hflow : s.graph.IsFlowPort e.source) (hfuel : s.graph.bound ≤ fuel) :
    Meets (s.valueWithin (fuel + 1) access e.source) (fun _ => True) E := by
  have hg := hs.reachable
  obtain ⟨node, hnode⟩ := hg.invariant.anchored.source e he
  unfold valueWithin
  split
  · exact meets_pure trivial
  · refine meets_computeWith hg hp (meets_handle hE) hnode
      (fun access name hname r hr => ?_) rfl access
    refine meets_inputWith hg.invariant.anchored fun e' he' ht => ?_
    have hr := hs.isValuePort_operand he hflow hnode hname hr
    exact meets_valueWithin_of_size_le hs.acyclic hg hp (meets_handle hE) he'
      (hg.isValuePort_source he' (ht ▸ hr)) hfuel

/-- What feeds an input can be computed. -/
theorem meets_value (he : e ∈ s.graph.live) (access : Access) :
    Meets (s.value access e.source) (fun _ => True) E := by
  obtain ⟨p, -, hport, -, -, -, ⟨-, hflow, -⟩ | ⟨-, hvalue, -⟩⟩ :=
    hs.reachable.invariant.joins_of_mem he
  · exact meets_valueWithin_flow hs hp hE he ⟨p, hport, hflow⟩ (Nat.le_refl _)
  · exact meets_valueWithin_of_size_le hs.acyclic hs.reachable hp (meets_handle hE) he
      ⟨p, hport, hvalue⟩ (Nat.le_succ _)

/-- Nothing that statements ask for is missing. -/
theorem provides : s.Provides E :=
  provides_of_value hs.reachable hp hE fun _ he access => meets_value hs hp hE he access

end Chains

end Site

end EntityFlow
