import EntityFlow.Proofs.Generation.Composed
import EntityFlow.Proofs.Generation.Successors
import EntityFlow.Proofs.Graph.Capabilities

/-!
# Where generation cuts the flow

`Cuts m ns` says that what a step enters does not depend on what was noted before, and that a run
which ends in a value notes cycles at the nodes `ns`, in this order.  Reading values notes none, so
the cycles of a walk are the cuts that `Graph.cuts` lists.
-/

namespace EntityFlow

namespace Generation

variable {α β : Type} {m : Generation α} {f : α → Generation β} {ns ns' : List NodeId}

/-- If `m` ends in a value, the cycles that it adds to the notes are at the nodes `ns`. -/
def Cuts (m : Generation α) (ns : List NodeId) : Prop :=
  ∃ r new, Adds m r new ∧ ∀ a, r = .ok a → new.filterMap Note.cut? = ns

/-! ## Rules -/

theorem cuts_pure (a : α) : Cuts (pure a) [] :=
  ⟨.ok a, [], fun _ => rfl, fun _ _ => rfl⟩

theorem cuts_throw (e : CompileError) : Cuts (throw e : Generation α) ns :=
  ⟨.error e, [], fun _ => rfl, nofun⟩

theorem cuts_note (x : Note) : Cuts (note x) x.cut?.toList := by
  refine ⟨.ok ⟨⟩, [x], fun _ => rfl, fun _ _ => ?_⟩
  cases hx : x.cut? <;> simp [hx]

theorem cuts_report (n : NodeId) (problem : Problem) :
    Cuts (report n problem) (Diagnostic.atNode n problem).cut?.toList := cuts_note _

theorem cuts_bind (hm : Cuts m ns) (hf : ∀ a, Cuts (f a) ns') : Cuts (m >>= f) (ns ++ ns') := by
  obtain ⟨r, new, hadds, hcut⟩ := hm
  cases r with
  | error e => exact ⟨.error e, new, fun l => by rw [run_bind, hadds], nofun⟩
  | ok a =>
    obtain ⟨r', new', hadds', hcut'⟩ := hf a
    refine ⟨r', new ++ new', fun l => ?_, fun b hb => ?_⟩
    · rw [run_bind, hadds, Ledger.enter_append]
      exact hadds' _
    · rw [List.filterMap_append, hcut a rfl, hcut' b hb]

/-- What notes requests alone cuts nothing. -/
theorem Composed.cuts {s : Site} (h : Composed s.Quiet m) : Cuts m [] := by
  obtain ⟨r, new, hadds, hquiet, -⟩ := h.exists_adds
  exact ⟨r, new, hadds, fun _ _ => List.filterMap_eq_nil_iff.2 fun x hx => (hquiet x hx).1⟩

/-- A step that notes no cycle, and what goes on from it. -/
theorem cuts_then {s : Site} (hm : Composed s.Quiet m) (hf : ∀ a, Cuts (f a) ns) :
    Cuts (m >>= f) ns :=
  cuts_bind hm.cuts hf

theorem cuts_map (h : α → β) (hm : Cuts m ns) : Cuts (h <$> m) ns := by
  rw [map_eq_pure_bind, ← List.append_nil ns]
  exact cuts_bind hm fun a => cuts_pure (h a)

theorem cuts_ofGraph_bind {x : Except GraphError α} (hf : ∀ a, x = .ok a → Cuts (f a) ns) :
    Cuts (ofGraph x >>= f) ns := by
  cases x with
  | ok a =>
    change Cuts (pure a >>= f) ns
    rw [pure_bind]
    exact hf a rfl
  | error e => exact ⟨.error (.graph e), [], fun _ => rfl, nofun⟩

theorem cuts_attempt_bind {x : Except CompileError α} (hf : ∀ a, x = .ok a → Cuts (f a) ns) :
    Cuts (attempt x >>= f) ns := by
  cases x with
  | ok a =>
    change Cuts (pure a >>= f) ns
    rw [pure_bind]
    exact hf a rfl
  | error e => exact ⟨.error e, [], fun _ => rfl, nofun⟩

theorem cuts_mapM {xs : List α} {c : α → List NodeId} (h : ∀ x ∈ xs, Cuts (f x) (c x)) :
    Cuts (xs.mapM f) (xs.flatMap c) := by
  induction xs with
  | nil => exact cuts_pure []
  | cons x xs ih =>
    rw [List.mapM_cons, List.flatMap_cons]
    refine cuts_bind (h x List.mem_cons_self) fun y => ?_
    rw [← List.append_nil (xs.flatMap c)]
    exact cuts_bind (ih fun z hz => h z (List.mem_cons_of_mem x hz)) fun ys => cuts_pure _

/-- One of two steps that note no cycle, and what goes on from it. -/
theorem cuts_ite_then {s : Site} {c : Prop} [Decidable c] {m' : Generation α}
    (hm : Composed s.Quiet m) (hm' : Composed s.Quiet m') (hf : ∀ a, Cuts (f a) ns) :
    Cuts (if c then m >>= f else m' >>= f) ns := by
  split
  · exact cuts_then hm hf
  · exact cuts_then hm' hf

/-- A run that does not fail notes its cuts. -/
theorem Cuts.exists_of_meets (hm : Cuts m ns) (hok : Meets m (fun _ => True) fun _ => False) :
    ∃ a new, Adds m (.ok a) new ∧ new.filterMap Note.cut? = ns := by
  obtain ⟨r, new, hadds, hcut⟩ := hm
  have hok := hok default
  rw [hadds] at hok
  cases r with
  | error e => exact hok.elim
  | ok a => exact ⟨a, new, hadds, hcut a rfl⟩

/-- A handler for errors that do not occur. -/
theorem cuts_tryCatch {handler : CompileError → Generation α} (hm : Cuts m ns)
    (hok : Meets m (fun _ => True) fun _ => False) : Cuts (tryCatch m handler) ns := by
  obtain ⟨a, new, hadds, hcut⟩ := hm.exists_of_meets hok
  exact ⟨.ok a, new, fun l => by rw [run_tryCatch, hadds], fun _ _ => hcut⟩

end Generation

/-! ## Starts -/

/-- Whether flow starts at nodes of a kind. -/
def NodeKind.starts : NodeKind → Bool
  | .event _ | .functionEntry _ => true
  | _ => false

namespace Graph

variable {g : Graph} {n : NodeId} {node : Node} {p : Port} {e : Edge}

/-- A node that can be entered does not start a method. -/
theorem LaidOut.starts_eq_false (h : g.LaidOut node) (hp : p ∈ node.ports) (hin : p.isInput) :
    node.kind.starts = false := by
  obtain ⟨title, kind, container, ports⟩ := node
  obtain ⟨job, -, hl⟩ := h
  cases kind with
  | event e =>
    have hout : ∀ p ∈ Layout.ofEvent e, p.isInput = false := by cases e <;> decide
    cases hl
    exact absurd hin (by simp [hout p hp])
  | functionEntry f =>
    simp only [NodeKind.layout, bind_eq_ok, pure_eq_ok] at hl
    obtain ⟨fn, -, rfl⟩ := hl
    simp only [List.mem_cons, List.mem_map] at hp
    obtain rfl | ⟨x, -, rfl⟩ := hp <;> cases hin
  | _ => rfl

/-- Where a method starts. -/
theorem mem_nodesWith_entry : n ∈ g.nodesWith .entry ↔
    (∃ e, g.kind? n = some (.event e)) ∨ ∃ f, g.kind? n = some (.functionEntry f) := by
  unfold nodesWith capabilities
  rw [List.mem_filter, mem_nodeIds]
  cases hn : g.node? n with
  | none => simp [kind?, hn]
  | some node => simp [kind?, hn, entry_mem_kindCapabilities]

/-- The entry of a function is the node that says so. -/
theorem Reachable.entry_eq_some {f : MemberId} (hg : g.Reachable) :
    (g.function? f).bind Function.entry = some n ↔ g.kind? n = some (.functionEntry f) := by
  rw [Option.bind_eq_some_iff]
  constructor
  · rintro ⟨fn, hfn, hentry⟩
    exact (hg.invariant.entries f fn n (function?_eq_some.1 hfn)).1 hentry
  · intro hn
    obtain ⟨node, hnode, hkind⟩ := Option.map_eq_some_iff.1 hn
    have hrefers := hg.invariant.refers n node hnode
    rw [hkind] at hrefers
    obtain ⟨fn, hfn⟩ := hrefers
    exact ⟨fn, function?_eq_some.2 hfn, (hg.invariant.entries f fn n hfn).2 hn⟩

/-- The successors of a node are what its flow ports lead to, one port after the other. -/
theorem flatMap_successors (hn : g.node? n = some node) (c : NodeId → List NodeId) :
    (g.successors n).flatMap c = node.kind.onward.flatMap fun name =>
      (g.portRef? n name).toList.flatMap fun r => (g.targetsOf r).flatMap fun t => c t.node := by
  simp only [successors, outlets, kind?_of_node hn, Option.map_some, Option.getD_some,
    List.filterMap_eq_flatMap_toList, List.flatMap_assoc, List.flatMap_map]

/-- Connections lead to nodes, but to none at which flow starts. -/
theorem Reachable.exists_of_mem_targetsOf {r t : PortRef} (hg : g.Reachable)
    (ht : t ∈ g.targetsOf r) : ∃ node, g.node? t.node = some node ∧ node.kind.starts = false := by
  obtain ⟨e, he, -, rfl⟩ := hg.invariant.anchored.mem_targetsOf.1 ht
  obtain ⟨-, t, -, ht, -, hin, -⟩ := hg.invariant.joins_of_mem he
  obtain ⟨node, hn, hport⟩ := port?_eq_some_iff.1 ht
  exact ⟨node, hn, (hg.laidOut hn).starts_eq_false (List.mem_of_getElem? hport) hin⟩

end Graph

namespace Site

open Generation

variable {s : Site} {resolve : Resolve} {next : Follow} {n : NodeId}

/-! ## Values -/

/-! ## Flow -/

section Statements

variable {w : String → List NodeId} (hfollow : ∀ name, Cuts (s.followWith next n name) (w name))

include hfollow

theorem cuts_thenExit (ss : List Stmt) : Cuts (s.thenExit next n ss) (w PortName.exit) :=
  cuts_map _ (hfollow _)

theorem cuts_inlineLoop (spec : ForeachSpec) :
    Cuts (s.inlineLoop next n spec) (w PortName.body) := by
  refine cuts_then (composed_mapM fun i => composed_read n _) fun shared => ?_
  refine cuts_then (s := s) (composed_mapM fun item => composed_loopName? n _) fun items => ?_
  refine cuts_ite_then (s := s) (composed_loopName? n _) (.value _) fun entity => ?_
  rw [← List.append_nil (w _)]
  exact cuts_bind (hfollow _) fun body => cuts_pure _

/-- The cycles below a node are those below the outputs along which flow goes on. -/
theorem cuts_statementsWith {node : Node} (hn : s.graph.node? n = some node)
    (hstarts : node.kind.starts = false) :
    Cuts (s.statementsWith next n) (node.kind.onward.flatMap w) := by
  have hexit : ∀ ss, Cuts (s.thenExit next n ss) ([PortName.exit].flatMap w) := fun ss => by
    rw [List.flatMap_singleton]
    exact cuts_thenExit hfollow ss
  have hsingle : ∀ m : Generation Stmt, Composed s.Quiet m →
      Cuts (m >>= fun x => s.thenExit next n [x]) ([PortName.exit].flatMap w) :=
    fun m hm => cuts_then hm fun x => hexit [x]
  refine cuts_ofGraph_bind fun node' hnode => ?_
  obtain rfl : node = node' := Option.some.inj (hn.symm.trans (Graph.node_eq_ok.1 hnode))
  obtain ⟨title, kind, container, ports⟩ := node
  cases kind with
  | event _ | functionEntry _ => cases hstarts
  | ret => exact cuts_then (composed_readOptional n _) fun _ => cuts_pure _
  | setValue =>
    refine cuts_then (composed_target n _) fun target => ?_
    exact cuts_then (composed_read n _) fun value => hexit _
  | branch =>
    refine cuts_then (composed_read n _) fun condition => ?_
    refine cuts_bind (hfollow _) fun onTrue => cuts_bind (hfollow _) fun onFalse => ?_
    exact hexit _
  | localVar name type => exact hsingle _ (composed_localStatement n type)
  | member target =>
    exact cuts_then (composed_memberWith composed_value n target _) fun call => hexit _
  | «foreach» spec =>
    dsimp only [NodeKind.onward]
    split
    · exact cuts_then (composed_scheduleLoop n spec) fun _ => hexit _
    · exact cuts_bind (cuts_inlineLoop hfollow spec) fun _ => hexit _
  | executor runWith job =>
    dsimp only
    split
    · exact cuts_then (composed_execute n runWith _) fun _ => hexit _
    · exact hexit _
  | createEntity => exact hsingle _ (composed_createStatement n)
  | destroyEntity => exact hsingle _ (composed_destroyStatement n)
  | setComponent _ => exact hsingle _ (composed_setComponentStatement n)
  | setComponentEnabled component => exact hsingle _ (composed_setEnabledStatement n component)
  | literal _ | operator _ _ | jobEntity _ | jobChunk _ | getComponent _ => exact cuts_pure _

end Statements

theorem cuts_targets {step : NodeId → Generation (List Stmt)} {c : NodeId → List NodeId}
    {output : PortRef} (hstep : ∀ t ∈ s.graph.targetsOf output, Cuts (step t.node) (c t.node)) :
    Cuts (do
      let parts ← (s.graph.targetsOf output).mapM fun t => step t.node
      return parts.flatten) ((s.graph.targetsOf output).flatMap fun t => c t.node) := by
  rw [← List.append_nil (List.flatMap _ _)]
  exact cuts_bind (cuts_mapM hstep) fun parts => cuts_pure _

theorem cuts_followWith {c : PortRef → List NodeId}
    (hnext : ∀ output, Cuts (next output) (c output)) (name : String) :
    Cuts (s.followWith next n name) ((s.graph.portRef? n name).toList.flatMap c) := by
  refine cuts_ofGraph_bind fun output hr => ?_
  rw [Graph.portRef?_eq_some.2 hr, Option.toList_some, List.flatMap_singleton]
  exact hnext output

variable (hg : s.graph.Reachable)

include hg

/-- By induction on the fuel, which the walk and the list of its cuts use up alike. -/
theorem cuts_nodeFlowWithin (fuel : ℕ) (path : List NodeId) {node : Node}
    (hn : s.graph.node? n = some node) (hstarts : node.kind.starts = false) :
    Cuts (s.nodeFlowWithin fuel path n) (s.graph.cuts fuel path n) := by
  induction fuel generalizing path n node with
  | zero => exact cuts_pure _
  | succ fuel ih =>
    rw [nodeFlowWithin, Graph.cuts]
    simp only [List.contains_iff_mem]
    split
    · exact cuts_bind (cuts_report n _) fun _ => cuts_pure _
    · rename_i hnew
      have hnext : ∀ output, Cuts (do
          let parts ← (s.graph.targetsOf output).mapM
            fun t => s.nodeFlowWithin fuel (n :: path) t.node
          return parts.flatten)
          ((s.graph.targetsOf output).flatMap fun t => s.graph.cuts fuel (n :: path) t.node) := by
        refine fun output => cuts_targets fun t ht => ?_
        obtain ⟨target, htarget, hstarts⟩ := hg.exists_of_mem_targetsOf ht
        exact ih _ htarget hstarts
      have hbelow := cuts_statementsWith (cuts_followWith hnext) hn hstarts
      rw [Graph.flatMap_successors hn, ← List.append_nil (List.flatMap _ _)]
      exact cuts_bind hbelow fun ss => cuts_pure _

/-- The nodes at which a walk from a flow output is cut. -/
theorem cuts_flow (output : PortRef) : Cuts (s.flow output) (s.graph.cutsFrom output) := by
  refine cuts_targets fun t ht => ?_
  obtain ⟨target, htarget, hstarts⟩ := hg.exists_of_mem_targetsOf ht
  exact cuts_nodeFlowWithin hg _ _ htarget hstarts

/-- What is cut from a flow port on does not depend on the site. -/
theorem cuts_follow (n : NodeId) (name : String) :
    Cuts (s.follow n name) ((s.graph.portRef? n name).toList.flatMap s.graph.cutsFrom) :=
  cuts_followWith (cuts_flow hg) name

/-! ### Fuel -/

omit hg in
theorem mapM_congr {α β : Type} {f f' : α → Generation β} {xs : List α} (h : ∀ x ∈ xs, f x = f' x) :
    xs.mapM f = xs.mapM f' := by
  induction xs with
  | nil => rfl
  | cons x xs ih =>
    rw [List.mapM_cons, List.mapM_cons, h x List.mem_cons_self,
      ih fun y hy => h y (List.mem_cons_of_mem x hy)]

/-- Fuel that lasts makes no difference.  A node is entered only if it is not on the path, so each
step leaves as much fuel as there are nodes off the path. -/
theorem nodeFlowWithin_eq {fuel fuel' : ℕ} {path : List NodeId} {node : Node}
    (hn : s.graph.node? n = some node) (hfuel : s.graph.Fuels fuel path)
    (hfuel' : s.graph.Fuels fuel' path) :
    s.nodeFlowWithin fuel path n = s.nodeFlowWithin fuel' path n := by
  induction fuel generalizing fuel' path n node with
  | zero =>
    obtain ⟨fuel, hpos⟩ := hfuel.pos
    cases hpos
  | succ fuel ih =>
    obtain ⟨fuel', rfl⟩ := hfuel'.pos
    rw [nodeFlowWithin, nodeFlowWithin]
    split
    · rfl
    · rename_i hnew
      have hnew : n ∉ path := by simpa using hnew
      have hnext : ∀ output,
          (s.graph.targetsOf output).mapM (fun t => s.nodeFlowWithin fuel (n :: path) t.node) =
            (s.graph.targetsOf output).mapM fun t => s.nodeFlowWithin fuel' (n :: path) t.node := by
        refine fun output => mapM_congr fun t ht => ?_
        obtain ⟨target, htarget, -⟩ := hg.exists_of_mem_targetsOf ht
        exact ih htarget (hfuel.cons hn hnew) (hfuel'.cons hn hnew)
      simp only [hnext]

end Site

/-! ## Entries -/

namespace Draft

variable {g : Graph} {p : Plan} {n : NodeId}

/-- The code of an event node is a method of the unit, if the unit is a system. -/
theorem entryBody_event {e : Lifecycle} (hn : g.kind? n = some (.event e)) : entryBody g p n = (do
    let body ← Site.follow ⟨g, p, .unit⟩ n PortName.exit
    if g.settings.flavor.isSystem then return some (e.methodName, body)
    else throw (.missingEntryPoint e.methodName)) := by
  obtain ⟨node, hnode, hkind⟩ := Option.map_eq_some_iff.1 hn
  rw [entryBody, Graph.node_eq_ok.2 hnode, Generation.ofGraph, pure_bind, hkind]

/-- The node that enters a function is the one that counts. -/
theorem entryBody_function {f : MemberId} {name : String} (hg : g.Reachable)
    (hn : g.kind? n = some (.functionEntry f)) (hname : p.symbols.get? (.member f) = some name) :
    entryBody g p n = (do
      let body ← Site.follow ⟨g, p, .function name⟩ n PortName.exit
      return some (name, body)) := by
  obtain ⟨node, hnode, hkind⟩ := Option.map_eq_some_iff.1 hn
  have hentry := hg.entry_eq_some.2 hn
  obtain ⟨fn, hfn, -⟩ := Option.bind_eq_some_iff.1 hentry
  have hok : Naming.functionName g p.symbols f = .ok name :=
    Naming.functionName_eq_ok.2 ⟨⟨fn, hfn⟩, hname⟩
  have hmethod : (Naming.functionNames g p.symbols).contains name :=
    List.contains_iff_mem.2 (Naming.mem_functionNames.2 ⟨f, hok⟩)
  rw [entryBody, Graph.node_eq_ok.2 hnode, Generation.ofGraph, pure_bind, hkind]
  dsimp only
  rw [if_pos hentry, hok, Generation.attempt, pure_bind]
  simp only [hmethod, if_true]

/-- The method of a function has a name in a complete plan. -/
theorem exists_methodName {f : MemberId} (hg : g.Reachable) (hp : Planning.Complete g p)
    (hn : g.kind? n = some (.functionEntry f)) :
    ∃ name, p.symbols.get? (.member f) = some name := by
  obtain ⟨fn, hfn, -⟩ := Option.bind_eq_some_iff.1 (hg.entry_eq_some.2 hn)
  exact hp.members f _ (Graph.function?_eq_some.1 hfn)

end Draft

end EntityFlow
