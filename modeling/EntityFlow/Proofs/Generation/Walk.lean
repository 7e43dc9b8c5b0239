import EntityFlow.Proofs.Generation.Runs
import EntityFlow.Proofs.Graph.Layouts

/-!
# The walk along flow

Generation follows the flow outputs of a node and puts the statements of what it reaches inside
those of the node.  Two things are shown about this walk at once: a set of nodes that is closed
under flow is not left, and no error is met but those that the reading of values may end in.
-/

namespace EntityFlow

/-! ## The nodes behind statements -/

namespace Stmt

mutual

def nodes : Stmt → List NodeId
  | .branch _ onTrue onFalse => nodesOf onTrue ++ nodesOf onFalse
  | .loop _ _ body => nodesOf body
  | .ofNode n body => n :: nodesOf body
  | .declare _ _ _ | .assign _ _ | .eval _ | .ret _ | .construct _ _ _ _ => []

def nodesOf : List Stmt → List NodeId
  | [] => []
  | s :: rest => nodes s ++ nodesOf rest

end

/-- The nodes of two bodies are those of the first and those of the second. -/
theorem nodesOf_append (ss ts : List Stmt) : nodesOf (ss ++ ts) = nodesOf ss ++ nodesOf ts := by
  induction ss with
  | nil => rfl
  | cons s rest ih => simp [nodesOf, ih]

def Within (R : NodeId → Prop) (ss : List Stmt) : Prop := ∀ n ∈ nodesOf ss, R n

variable {R : NodeId → Prop} {s : Stmt} {ss ts : List Stmt}

theorem within_nil : Within R [] := nofun

theorem within_append : Within R (ss ++ ts) ↔ Within R ss ∧ Within R ts := by
  simp only [Within, nodesOf_append, List.mem_append, or_imp, forall_and]

theorem within_cons : Within R (s :: ss) ↔ (∀ n ∈ s.nodes, R n) ∧ Within R ss := by
  simp only [Within, nodesOf, List.mem_append, or_imp, forall_and]

theorem within_flatten {parts : List (List Stmt)} (h : ∀ part ∈ parts, Within R part) :
    Within R parts.flatten := by
  induction parts with
  | nil => exact within_nil
  | cons part rest ih =>
    rw [List.flatten_cons, within_append]
    exact ⟨h part List.mem_cons_self, ih fun x hx => h x (List.mem_cons_of_mem part hx)⟩

/-- A statement that holds no others is one of no nodes. -/
theorem within_single (h : s.nodes = []) : Within R [s] := by
  simp [within_cons, h, within_nil]

end Stmt

namespace Graph

variable {g : Graph} {e : Edge}

/-- The function of an identity is the member that it denotes, if that is one. -/
theorem function?_eq_some {f : MemberId} {fn : Function} :
    g.function? f = some fn ↔ g.member? f = some (.function fn) := by
  simp [function?, Option.bind_eq_some_iff, Member.asFunction_eq_some]

/-- The entry of a function is a node that starts it. -/
theorem Reachable.exists_entry (hg : g.Reachable) {f : MemberId} {fn : Function} {n : NodeId}
    (hfn : g.function? f = some fn) (hn : fn.entry = some n) :
    ∃ node, g.node? n = some node ∧ node.kind = .functionEntry f :=
  Option.map_eq_some_iff.1 ((hg.invariant.entries f fn n (function?_eq_some.1 hfn)).1 hn)

/-- Flow leads to a node that sits in the flow. -/
theorem Reachable.exists_target (hg : g.Reachable) (he : e ∈ g.live)
    (hflow : g.IsFlowPort e.source) : ∃ node, g.node? e.target.node = some node ∧ ¬node.isPure := by
  obtain ⟨s, t, hs, ht, -, -, hkind⟩ := hg.invariant.joins_of_mem he
  obtain ⟨p, hp, hpflow⟩ := hflow
  obtain rfl : s = p := Option.some.inj (hs.symm.trans hp)
  have htflow : t.isFlow := by
    rcases hkind with ⟨-, -, htflow⟩ | ⟨-, hvalue, -⟩
    · exact htflow
    · simp [Port.isValue, hpflow] at hvalue
  obtain ⟨node, hnode⟩ := hg.invariant.anchored.target e he
  exact ⟨node, hnode, not_isPure_of_isFlowPort ⟨t, ht, htflow⟩ hnode⟩

end Graph

namespace Site

open Generation Stmt

variable {s : Site} {next : Follow} {n : NodeId} {node : Node} {name : String} {output : PortRef}
  {R : NodeId → Prop} {E : CompileError → Prop} {ss : List Stmt}

/-! ## What statements are made from -/

/-- What nodes ask for when their statements are generated is there, or else the error is in `E`. -/
structure Provides (s : Site) (E : CompileError → Prop) : Prop where
  input : ∀ access i, Meets (s.inputWith s.value access i) (fun _ => True) E
  handle : ∀ n h, Meets (s.handle n h) (fun _ => True) E
  call : ∀ n node target, s.graph.node? n = some node → node.kind = .member target →
    Meets (s.memberWith s.value n target .read) (fun _ => True) E
  named : ∀ n node name type out, s.graph.node? n = some node → node.kind = .localVar name type →
    s.graph.portRef n PortName.out = .ok out → s.plan.symbols.get? (.port out) = none →
    E (.unnamedLocal n)
  fields : ∀ j ∈ s.plan.jobs, ∀ executor,
    Meets (s.constructionFields j executor) (fun _ => True) E

/-- Whatever is asked for, some error may be met. -/
theorem provides_any (s : Site) : s.Provides fun _ => True where
  input _ _ := meets_trivial _
  handle _ _ := meets_trivial _
  call _ _ _ _ _ := meets_trivial _
  named _ _ _ _ _ _ _ _ _ := trivial
  fields _ _ _ := meets_trivial _

/-- A port that exists is found. -/
theorem meets_portRef (hport : ∃ r, s.graph.portRef n name = .ok r) :
    Meets (ofGraph (s.graph.portRef n name)) (fun r => s.graph.portRef n name = .ok r) E := by
  obtain ⟨r, hr⟩ := hport
  refine meets_ofGraph (fun _ => id) fun err herr => ?_
  rw [hr] at herr
  exact absurd herr nofun

theorem meets_node (hn : s.graph.node? n = some node) :
    Meets (ofGraph (s.graph.node n)) (fun x => x = node) E := by
  rw [Graph.node_eq_ok.2 hn]
  exact meets_pure rfl

/-- An optional input fails only if the input does. -/
theorem meets_readOptional
    (hinput : ∀ access i, Meets (s.inputWith s.value access i) (fun _ => True) E) (n : NodeId)
    (name : String) : Meets (s.readOptional n name) (fun _ => True) E := by
  unfold readOptional
  split
  · exact meets_pure trivial
  · split
    · exact meets_pure trivial
    · exact meets_map (hinput _ _) fun _ => id

/-- Code behind an output consists of code from the nodes that it is connected to. -/
theorem meets_targets (hg : s.graph.Reachable) {step : NodeId → Generation (List Stmt)}
    (hstep : ∀ e ∈ s.graph.live, e.source = output → Meets (step e.target.node) (Within R) E) :
    Meets (do
      let parts ← (s.graph.targetsOf output).mapM fun t => step t.node
      return parts.flatten) (Within R) E := by
  refine meets_bind (meets_mapM fun t ht => ?_) fun parts hparts =>
    meets_pure (within_flatten hparts)
  obtain ⟨e, he, hs, rfl⟩ := hg.invariant.anchored.mem_targetsOf.1 ht
  exact hstep e he hs

namespace Provides

variable (h : s.Provides E)

include h

theorem meets_read (hport : ∃ r, s.graph.portRef n name = .ok r) :
    Meets (s.read n name) (fun _ => True) E :=
  meets_bind (meets_portRef hport) fun _ _ => h.input _ _

theorem meets_target (hport : ∃ r, s.graph.portRef n name = .ok r) :
    Meets (s.target n name) (fun _ => True) E :=
  meets_bind (meets_portRef hport) fun _ _ => h.input _ _

/-- A call of the command buffer fails only as a request for it does. -/
theorem meets_bufferCall (n : NodeId) (method : String) (generics : List String)
    (args : List Expr) : Meets (s.bufferCall n method generics args) (fun _ => True) E := by
  unfold bufferCall
  split
  · exact meets_pure trivial
  · exact meets_bind (h.handle _ _) fun _ _ => meets_pure trivial

theorem meets_localStatement {type : TypeRef} (hn : s.graph.node? n = some node)
    (hkind : node.kind = .localVar name type)
    (hport : ∃ r, s.graph.portRef n PortName.out = .ok r) :
    Meets (s.localStatement n type) (fun s => s.nodes = []) E := by
  refine meets_bind (meets_portRef hport) fun out hout => ?_
  split
  · rename_i hnone
    exact meets_throw (h.named n node name type out hn hkind hout hnone)
  · refine meets_bind (meets_readOptional h.input _ _) fun value _ => meets_pure ?_
    split <;> rfl

/-- A loop that is deferred has no code of other nodes in it. -/
theorem meets_scheduleLoop (n : NodeId) (spec : ForeachSpec) :
    Meets (s.scheduleLoop n spec) (Within R) E := by
  unfold scheduleLoop
  split
  · exact meets_pure within_nil
  · rename_i j hj
    refine meets_bind (h.fields j (List.mem_of_find?_eq_some hj) _) fun fields _ => meets_pure ?_
    exact within_cons.2 ⟨nofun, within_single rfl⟩

/-- An executor has no code of other nodes in it. -/
theorem meets_execute {j : Job} (hj : j ∈ s.plan.jobs) (runWith : Discipline)
    (hport : ∃ r, s.graph.portRef n PortName.jobHandle = .ok r) :
    Meets (s.execute n runWith j) (Within R) E := by
  refine meets_bind (meets_readOptional h.input _ _) fun query _ => ?_
  refine meets_when_bind (fun _ => meets_report _ _ trivial) ?_
  refine meets_bind (h.fields j hj _) fun fields _ => ?_
  refine meets_ite_bind (fun _ => meets_readOptional h.input _ _) (fun _ => meets_pure trivial)
    fun dependsOn _ => ?_
  refine meets_ite_bind (fun _ => meets_readOptional h.input _ _) (fun _ => meets_pure trivial)
    fun baseIndices _ => ?_
  refine meets_bind (meets_portRef hport) fun handle _ => meets_pure ?_
  refine within_cons.2 ⟨nofun, within_single ?_⟩
  split
  · split <;> rfl
  · rfl

/-- A loop that is not deferred has the code of its body, and no other. -/
theorem meets_inlineLoop {spec : ForeachSpec}
    (hports : ∀ name ∈ (NodeKind.foreach spec).asked, ∃ r, s.graph.portRef n name = .ok r)
    (hbody : Meets (s.followWith next n PortName.body) (Within R) E) :
    Meets (s.inlineLoop next n spec) (Within R) E := by
  have hname : ∀ name ∈ (NodeKind.foreach spec).asked,
      Meets (s.loopName? n name) (fun _ => True) E := fun name hname =>
    meets_bind (meets_portRef (hports name hname)) fun _ _ => meets_pure trivial
  refine meets_bind (meets_mapM (R := fun _ => True) fun i hi => h.meets_read (hports _ ?_))
    fun shared _ => ?_
  · simp only [NodeKind.asked, List.mem_append, List.mem_map]
    exact .inl (.inl (.inr ⟨i, hi, rfl⟩))
  refine meets_bind (meets_mapM (R := fun _ => True) fun item hitem => hname _ ?_) fun items _ => ?_
  · simp only [NodeKind.asked, List.mem_append, List.mem_map]
    exact .inr ⟨item, hitem, rfl⟩
  refine meets_ite_bind (Q := fun _ => True) (fun haccess => hname _ ?_)
    (fun _ => meets_pure trivial) fun entity _ => ?_
  · simp [NodeKind.asked, haccess]
  · refine meets_bind hbody fun body hwithin => meets_pure ?_
    exact within_cons.2 ⟨hwithin, within_nil⟩

/-- Statements of a node, from those of what follows it. -/
theorem meets_statementsWith (hg : s.graph.Reachable) (hn : s.graph.node? n = some node)
    (hflow : ¬node.isPure)
    (hnext : ∀ name ∈ node.kind.followed, ∀ output, s.graph.portRef n name = .ok output →
      Meets (next output) (Within R) E) :
    Meets (s.statementsWith next n) (Within R) E := by
  have hlaid := hg.laidOut hn
  have hports : ∀ name ∈ node.kind.asked, ∃ r, s.graph.portRef n name = .ok r :=
    fun name hname => hlaid.exists_portRef hn hname
  have hread : ∀ name ∈ node.kind.asked, Meets (s.read n name) (fun _ => True) E :=
    fun name hname => h.meets_read (hports name hname)
  have hfollow : ∀ name ∈ node.kind.followed, (∃ r, s.graph.portRef n name = .ok r) →
      Meets (s.followWith next n name) (Within R) E :=
    fun name hname hport => meets_bind (meets_portRef hport) (hnext name hname)
  have hexit : PortName.exit ∈ node.kind.followed → (∃ r, s.graph.portRef n PortName.exit = .ok r) →
      ∀ ss, Within R ss → Meets (s.thenExit next n ss) (Within R) E :=
    fun hname hport ss hss => meets_map (hfollow _ hname hport) fun rest hrest =>
      within_append.2 ⟨hss, hrest⟩
  have hsingle : PortName.exit ∈ node.kind.followed → PortName.exit ∈ node.kind.asked →
      ∀ m : Generation Stmt, Meets m (fun x => x.nodes = []) E →
        Meets (m >>= fun x => s.thenExit next n [x]) (Within R) E :=
    fun hname hasked m hm => meets_bind hm fun x hx =>
      hexit hname (hports _ hasked) _ (within_single hx)
  obtain ⟨title, kind, container, ports⟩ := node
  refine meets_bind (meets_node hn) ?_
  rintro _ rfl
  cases kind with
  | ret =>
    refine meets_bind (meets_readOptional h.input _ _) fun value _ => ?_
    exact meets_pure (within_single rfl)
  | setValue =>
    refine meets_bind (h.meets_target (hports _ (by simp))) fun target _ => ?_
    refine meets_bind (hread _ (by simp)) fun value _ => ?_
    exact hexit (by simp) (hports _ (by simp)) _ (within_single rfl)
  | branch =>
    refine meets_bind (hread _ (by simp)) fun condition _ => ?_
    refine meets_bind (hfollow _ (by simp) (hports _ (by simp))) fun onTrue htrue => ?_
    refine meets_bind (hfollow _ (by simp) (hports _ (by simp))) fun onFalse hfalse => ?_
    refine hexit (by simp) (hports _ (by simp)) _ (within_cons.2 ⟨?_, within_nil⟩)
    exact List.forall_mem_append.2 ⟨htrue, hfalse⟩
  | localVar name type =>
    exact hsingle (by simp) (by simp) _ (h.meets_localStatement hn rfl (hports _ (by simp)))
  | member target =>
    refine meets_bind (h.call n _ target hn rfl) fun call _ => ?_
    exact hexit (by simp) (hlaid.exists_portRef_exit hn rfl hflow) _ (within_single rfl)
  | «foreach» spec =>
    refine meets_ite_bind (fun _ => h.meets_scheduleLoop n spec) (fun _ => ?_)
      (hexit (by simp) (hports _ (by simp)))
    exact h.meets_inlineLoop hports (hfollow _ (by simp) (hports _ (by simp)))
  | executor runWith job =>
    have hrest := hexit (by simp) (hports _ (by simp))
    dsimp only
    split
    · rename_i j hj
      obtain ⟨b, -, hb⟩ := Option.bind_eq_some_iff.1 hj
      exact meets_bind
        (h.meets_execute (List.mem_of_find?_eq_some hb) runWith (hports _ (by simp))) hrest
    · exact hrest [] within_nil
  | createEntity =>
    refine hsingle (by simp) (by simp) _ (meets_bind (meets_portRef (hports _ (by simp))) ?_)
    exact fun port _ => meets_bind (h.meets_bufferCall _ _ _ _) fun call _ => meets_pure rfl
  | destroyEntity =>
    refine hsingle (by simp) (by simp) _ (meets_bind (hread _ (by simp)) fun entity _ => ?_)
    exact meets_bind (h.meets_bufferCall _ _ _ _) fun call _ => meets_pure rfl
  | setComponent c =>
    refine hsingle (by simp) (by simp) _ (meets_bind (hread _ (by simp)) fun entity _ => ?_)
    refine meets_bind (hread _ (by simp)) fun value _ => ?_
    exact meets_bind (h.meets_bufferCall _ _ _ _) fun call _ => meets_pure rfl
  | setComponentEnabled c =>
    refine hsingle (by simp) (by simp) _ (meets_bind (hread _ (by simp)) fun entity _ => ?_)
    refine meets_bind (hread _ (by simp)) fun value _ => ?_
    exact meets_bind (h.meets_bufferCall _ _ _ _) fun call _ => meets_pure rfl
  | event _ | functionEntry _ | literal _ | operator _ _ | jobEntity _ | jobChunk _
  | getComponent _ => exact meets_pure within_nil

/-! ### Following flow -/

variable (hclosed : ∀ e ∈ s.graph.live, R e.source.node → s.graph.IsFlowPort e.source →
  R e.target.node)

include hclosed

/-- By induction on the fuel: the walk goes on along flow ports, so it stays among nodes in the flow
that satisfy `R`. -/
theorem meets_nodeFlowWithin (hg : s.graph.Reachable) (fuel : Nat) (path : List NodeId)
    (hn : s.graph.node? n = some node) (hflow : ¬node.isPure) (hR : R n) :
    Meets (s.nodeFlowWithin fuel path n) (Within R) E := by
  induction fuel generalizing path n node with
  | zero => exact meets_pure within_nil
  | succ fuel ih =>
    unfold nodeFlowWithin
    split
    · exact meets_bind (meets_report (T := fun _ => True) _ _ trivial)
        fun _ _ => meets_pure within_nil
    · refine meets_bind (h.meets_statementsWith hg hn hflow fun name hname output hr => ?_)
        fun ss hss => meets_pure (within_cons.2 ⟨List.forall_mem_cons.2 ⟨hR, hss⟩, within_nil⟩)
      refine meets_targets hg fun e he hs => ?_
      have hport : s.graph.IsFlowPort e.source :=
        hs ▸ (hg.laidOut hn).isFlowPort hn hname hr (hg.invariant.joins_of_mem he) hs
      obtain ⟨target, htarget, htflow⟩ := hg.exists_target he hport
      refine ih _ htarget htflow (hclosed e he ?_ hport)
      rw [hs, Graph.node_of_portRef hr]
      exact hR

/-- Code that starts within a region from which flow does not lead stays in it. -/
theorem meets_flow (hg : s.graph.Reachable)
    (hstart : ∀ e ∈ s.graph.live, e.source = output →
      R e.target.node ∧ s.graph.IsFlowPort e.source) : Meets (s.flow output) (Within R) E := by
  refine meets_targets hg fun e he hs => ?_
  obtain ⟨hR, hport⟩ := hstart e he hs
  obtain ⟨target, htarget, htflow⟩ := hg.exists_target he hport
  exact h.meets_nodeFlowWithin hclosed hg _ _ htarget htflow hR

/-- What follows a flow output by name. -/
theorem meets_follow (hg : s.graph.Reachable) (hn : s.graph.node? n = some node)
    (hfollowed : name ∈ node.kind.followed) (hasked : name ∈ node.kind.asked)
    (hstart : ∀ e ∈ s.graph.live, e.source.node = n → s.graph.IsFlowPort e.source →
      R e.target.node) : Meets (s.follow n name) (Within R) E := by
  have hlaid := hg.laidOut hn
  refine meets_bind (meets_portRef (hlaid.exists_portRef hn hasked)) fun output hr => ?_
  refine h.meets_flow hclosed hg fun e he hs => ?_
  have hport : s.graph.IsFlowPort e.source :=
    hs ▸ hlaid.isFlowPort hn hfollowed hr (hg.invariant.joins_of_mem he) hs
  exact ⟨hstart e he (hs ▸ Graph.node_of_portRef hr) hport, hport⟩

end Provides

end Site

namespace Draft

open Generation Stmt

variable {g : Graph} {p : Plan} {j : Job} {R : NodeId → Prop} {E : CompileError → Prop}
  (hg : g.Reachable)
  (hclosed : ∀ e ∈ g.live, R e.source.node → g.IsFlowPort e.source → R e.target.node)

include hg hclosed

/-- A copied function keeps to what flow leads to from its entry. -/
theorem meets_copiedBody {boundary : NodeId} (h : Site.Provides ⟨g, p, .job boundary⟩ E)
    {f : MemberId} (hname : ∀ e, Naming.functionName g p.symbols f = .error e → E e)
    (hentry : ∀ fn, g.function? f = some fn → ∀ e ∈ g.live,
      fn.entry = some e.source.node → g.IsFlowPort e.source → R e.target.node) :
    Meets (copiedBody g p boundary f) (fun x => Within R x.2) E := by
  refine meets_bind (meets_attempt (Q := fun _ => True) (fun _ _ => trivial) hname) fun _ _ => ?_
  split
  · rename_i n hn
    obtain ⟨fn, hfn, hn⟩ := Option.bind_eq_some_iff.1 hn
    obtain ⟨node, hnode, hkind⟩ := hg.exists_entry hfn hn
    refine meets_map (h.meets_follow hclosed hg hnode (by simp [hkind]) (by simp [hkind])
      fun e he hs => ?_) fun _ => id
    exact hentry fn hfn e he (hs ▸ hn)
  · exact meets_pure within_nil

/-- A job keeps to what flow leads to from its body port and from its functions. -/
theorem meets_jobBody {n : NodeId} (hj : p.job? n = some j)
    (h : Site.Provides ⟨g, p, .job j.node⟩ E)
    (hnames : ∀ f ∈ j.functions, ∀ e, Naming.functionName g p.symbols f = .error e → E e)
    (hbody : ∀ e ∈ g.live, e.source = j.body → R e.target.node ∧ g.IsFlowPort e.source)
    (hentry : ∀ f ∈ j.functions, ∀ fn, g.function? f = some fn → ∀ e ∈ g.live,
      fn.entry = some e.source.node → g.IsFlowPort e.source → R e.target.node) :
    Meets (jobBody g p n)
      (fun body => Within R body.execute ∧ ∀ x ∈ body.functions, Within R x.2) E := by
  rw [jobBody, hj]
  refine meets_bind (h.meets_flow hclosed hg hbody) fun execute hexecute => ?_
  refine meets_bind (meets_mapM fun f hf =>
    meets_copiedBody hg hclosed h (hnames f hf) (hentry f hf)) ?_
  exact fun functions hfunctions => meets_pure ⟨hexecute, hfunctions⟩

end Draft

end EntityFlow
