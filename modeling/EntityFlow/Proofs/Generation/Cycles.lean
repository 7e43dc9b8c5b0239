import EntityFlow.Proofs.Generation.Cuts
import EntityFlow.Proofs.Generation.Failures
import EntityFlow.Proofs.Planning.Boundaries

/-!
# Cycles of the flow

Flow is generated from roots: where a method starts, and where the body of a job does.  From each of
them the walk ends with nothing left on its stack, and neither the check of a graph nor planning
reports a cycle.  So a unit reports one exactly if flow leads from a root to a cycle, and then it
names nodes of such cycles only.
-/

namespace EntityFlow

/-! ## Cycles among the diagnostics -/

def Uncut (ds : List Diagnostic) : Prop := ∀ d ∈ ds, d.cut? = none

section Check

open Check

variable {g : Graph} {n : NodeId} {d : Diagnostic} {ds ds' : List Diagnostic}

theorem uncut_nil : Uncut [] := nofun

theorem uncut_single (h : d.cut? = none) : Uncut [d] := List.forall_mem_singleton.2 h

theorem Uncut.append (h : Uncut ds) (h' : Uncut ds') : Uncut (ds ++ ds') :=
  List.forall_mem_append.2 ⟨h, h'⟩

/-- Without cuts among them, problems list no cuts. -/
theorem Uncut.filterMap_cut? (h : Uncut ds) : ds.filterMap Diagnostic.cut? = [] :=
  List.filterMap_eq_nil_iff.2 h

theorem uncut_require (holds : Bool) (h : d.cut? = none) : Uncut (require holds d) := by
  unfold require
  split
  · exact uncut_nil
  · exact uncut_single h

theorem uncut_requireInput (name : String) : Uncut (requireInput g n name) := by
  unfold requireInput
  split
  · exact uncut_require _ rfl
  · exact uncut_nil

theorem uncut_items (seen : List String) (items : List QueryItem) :
    Uncut (Check.items n seen items) := by
  induction items generalizing seen with
  | nil => exact uncut_nil
  | cons item rest ih =>
    rw [Check.items]
    split
    · exact (uncut_single rfl).append (ih seen)
    · exact ((uncut_require _ rfl).append (uncut_require _ rfl)).append (ih _)

theorem uncut_queryNode (kind : NodeKind) : Uncut (queryNode n kind) := by
  unfold queryNode
  split
  · refine ((uncut_require _ rfl).append (uncut_items _ _)).append ?_
    split
    · exact uncut_require _ rfl
    · exact uncut_nil
  · exact ((uncut_require _ rfl).append (uncut_items _ _)).append (uncut_require _ rfl)
  · exact uncut_nil

theorem uncut_systemApi : Uncut (systemApi g n) := by
  unfold systemApi
  split
  · exact uncut_single rfl
  · exact uncut_require _ rfl

theorem uncut_assignment : Uncut (assignment g n) := by
  unfold assignment
  split
  · exact uncut_nil
  · split
    · exact uncut_require _ rfl
    · exact uncut_single rfl

theorem uncut_entityNode (kind : NodeKind) : Uncut (entityNode g n kind) := by
  unfold entityNode
  split
  · split
    · exact uncut_systemApi
    · exact uncut_nil
  · refine Uncut.append ?_ (uncut_requireInput _)
    split
    · exact uncut_single rfl
    · exact uncut_require _ rfl
  · exact (uncut_require _ rfl).append (uncut_requireInput _)
  · exact (uncut_require _ rfl).append (uncut_requireInput _)
  · exact uncut_requireInput _
  · exact uncut_single rfl
  · exact uncut_assignment
  · exact uncut_nil

/-- What is reported of each node is no cycle. -/
theorem uncut_nodes {check : NodeId → NodeKind → List Diagnostic}
    (h : ∀ n kind, Uncut (check n kind)) :
    Uncut (g.nodeIds.flatMap fun n => ((g.kind? n).map (check n)).getD []) := by
  intro d hd
  obtain ⟨n, -, hd⟩ := List.mem_flatMap.1 hd
  cases hkind : g.kind? n with
  | none => simp [hkind] at hd
  | some kind => exact h n kind d (by simpa [hkind] using hd)

/-- The check reports no cut. -/
theorem uncut_check (hsystem : g.settings.flavor.isSystem) : Uncut g.check := by
  have haspect : aspect g = [] := if_neg fun h => by simp [h, Flavor.isSystem] at hsystem
  rw [Graph.check, haspect, List.nil_append]
  exact (uncut_nodes fun _ => uncut_queryNode).append (uncut_nodes fun _ => uncut_entityNode)

end Check

section Plan

open Planning

variable {g : Graph} {p : Plan}

/-- No problem that planning reports is a cut. -/
theorem Planning.Planned.cut?_of {problem : Problem} (h : Planned problem) (owner : Owner) :
    (Diagnostic.of owner problem).cut? = none := by
  cases h <;> rfl

/-- No step of planning reports a cut. -/
theorem lasting_uncut (g : Graph) :
    Lasting g fun p q => Uncut p.diagnostics → Uncut q.diagnostics where
  refl _ := id
  trans hpq hqr := hqr ∘ hpq
  symbols_register _ _ _ := id
  symbols_fresh _ _ := id
  diagnostics _ owner _ hplanned h := h.append (uncut_single (hplanned.cut?_of owner))
  bindings _ _ _ _ := id
  handles _ _ _ _ _ := id
  times _ _ _ := id
  unavailable _ _ _ := id
  manager _ _ _ _ _ := id
  boundaries _ _ := id
  redirects _ _ := id
  usings _ _ := id
  jobs _ _ := id

/-- A plan has no cuts among its problems. -/
theorem uncut_make (hp : Plan.make g = .ok p) : Uncut p.diagnostics := by
  refine (lasting_uncut g).make hp fun d hd => ?_
  obtain ⟨⟨id, m⟩, -, hd⟩ := List.mem_flatMap.1 hd
  cases m with
  | function f =>
    dsimp only at hd
    split at hd
    · exact uncut_single rfl d hd
    · cases hd
  | property _ | «variable» _ => cases hd

end Plan

namespace Ledger

/-- Entering a note adds its cut, if it is one. -/
theorem filterMap_cut?_add (l : Ledger) (x : Note) :
    (l.add x).diagnostics.filterMap Diagnostic.cut? =
    l.diagnostics.filterMap Diagnostic.cut? ++ x.cut?.toList := by
  rcases add_cases l x with ⟨d, rfl, hadd⟩ | ⟨m, k, hx, -, hadd⟩ | ⟨k, part, rfl, -, hadd⟩ |
    ⟨m, k, part, rfl, -, hadd⟩ | ⟨m, n, k, rfl, -, hadd⟩
  · rw [hadd, List.filterMap_append]
    cases hd : d.cut? <;> simp [hd, Note.cut?]
  · have hcut : x.cut? = none := by
      cases x with
      | problem d => exact ((hx m k).2 ⟨rfl, rfl⟩).elim
      | _ => rfl
    simp [hadd, hcut]
  · simp [hadd, Note.cut?]
  · simp [hadd, Note.cut?]
  · have hproblem : (Diagnostic.atNode n (.handleOutsideUpdate m)).cut? = none := rfl
    simp [hadd, Note.cut?, hproblem]

/-- The cycles noted are the cycles reported. -/
theorem filterMap_cut?_enter (l : Ledger) (notes : List Note) :
    (l.enter notes).diagnostics.filterMap Diagnostic.cut? =
      l.diagnostics.filterMap Diagnostic.cut? ++ notes.filterMap Note.cut? := by
  induction notes generalizing l with
  | nil => simp
  | cons x rest ih =>
    rw [enter_cons, ih, filterMap_cut?_add, List.append_assoc]
    cases hx : x.cut? <;> simp [hx]

end Ledger

/-! ## Roots -/

namespace Graph

variable {g : Graph} {n m : NodeId} {r : PortRef} {node : Node}

/-- The flow outputs from which flow is generated. -/
inductive Root (g : Graph) : PortRef → Prop
  | event {n : NodeId} {e : Lifecycle} {r : PortRef} (hn : g.kind? n = some (.event e))
      (hr : g.portRef n PortName.exit = .ok r) : Root g r
  | function {n : NodeId} {f : MemberId} {r : PortRef} (hn : g.kind? n = some (.functionEntry f))
      (hr : g.portRef n PortName.exit = .ok r) : Root g r
  | body {n : NodeId} {r : PortRef} (hn : n ∈ g.nodesWith .boundary) (hbody : g.hasBody n)
      (hr : g.body? n = some r) : Root g r

/-- Flow leads from a root to `m`, which lies on a cycle. -/
def Loops (g : Graph) (m : NodeId) : Prop :=
  ∃ e ∈ g.live, g.Root e.source ∧ Relation.ReflTransGen g.LeadsTo e.target.node m ∧
    Relation.TransGen g.LeadsTo m m

def cutsAfter (g : Graph) (n : NodeId) : List NodeId :=
  (g.portRef? n PortName.exit).toList.flatMap g.cutsFrom

/-- The cuts after a node are those from its exit. -/
theorem mem_cutsAfter :
    m ∈ g.cutsAfter n ↔ ∃ r, g.portRef n PortName.exit = .ok r ∧ m ∈ g.cutsFrom r := by
  simp [cutsAfter, portRef?_eq_some]

/-- A cut is on a cycle, and flow leads to it. -/
theorem mem_cutsFrom (h : g.Orderly) (hm : m ∈ g.cutsFrom r) : ∃ e ∈ g.live, e.source = r ∧
    Relation.ReflTransGen g.LeadsTo e.target.node m ∧ Relation.TransGen g.LeadsTo m m := by
  obtain ⟨t, ht, hm⟩ := List.mem_flatMap.1 hm
  obtain ⟨e, he, hs, rfl⟩ := h.reachable.invariant.anchored.mem_targetsOf.1 ht
  obtain ⟨hreach, hback⟩ := mem_cuts hm
  rw [h.follows_eq] at hreach hback
  exact ⟨e, he, hs, hreach, hback.resolve_left List.not_mem_nil⟩

/-- Where flow leads to a cycle, something is cut. -/
theorem exists_mem_cutsFrom (h : g.Orderly) {e : Edge} (he : e ∈ g.live)
    (hreach : Relation.ReflTransGen g.LeadsTo e.target.node m)
    (hcycle : Relation.TransGen g.LeadsTo m m) : ∃ k, k ∈ g.cutsFrom e.source := by
  have hg := h.reachable.invariant.anchored
  obtain ⟨node, hn⟩ := hg.target e he
  rw [← h.follows_eq] at hreach hcycle
  obtain ⟨k, hk⟩ := exists_mem_cuts hg hn (g.fuels_nil 0) hreach hcycle
  exact ⟨k, List.mem_flatMap.2 ⟨e.target, hg.mem_targetsOf.2 ⟨e, he, rfl, rfl⟩, hk⟩⟩

end Graph

namespace Draft

open Generation

variable {g : Graph} {p : Plan} {j : Job} {n m : NodeId} (hg : g.Reachable)

include hg

/-- The code that starts at an entry is cut where the graph says. -/
theorem cuts_entryBody (hp : Planning.Complete g p) (hn : n ∈ g.nodesWith .entry) :
    Cuts (entryBody g p n) (g.cutsAfter n) := by
  have hfollow : ∀ scope, Cuts (Site.follow ⟨g, p, scope⟩ n PortName.exit) (g.cutsAfter n) :=
    fun scope => Site.cuts_follow (s := ⟨g, p, scope⟩) hg n _
  rw [← List.append_nil (g.cutsAfter n)]
  obtain ⟨e, he⟩ | ⟨f, hf⟩ := Graph.mem_nodesWith_entry.1 hn
  · rw [entryBody_event he]
    refine cuts_bind (hfollow _) fun body => ?_
    split
    · exact cuts_pure _
    · exact cuts_throw _
  · obtain ⟨name, hname⟩ := exists_methodName hg hp hf
    rw [entryBody_function hg hf hname]
    exact cuts_bind (hfollow _) fun body => cuts_pure _

/-- A copy of a function is cut where the function is. -/
theorem cuts_copiedBody (boundary : NodeId) (f : MemberId) : Cuts (copiedBody g p boundary f)
    (((g.function? f).bind Function.entry).toList.flatMap g.cutsAfter) := by
  refine cuts_attempt_bind fun _ _ => ?_
  split
  · rename_i entry hentry
    rw [hentry, Option.toList_some, List.flatMap_singleton]
    exact cuts_map _ (Site.cuts_follow (s := ⟨g, p, .job boundary⟩) hg entry _)
  · rename_i hentry
    rw [hentry]
    exact cuts_pure _

def cutsOfJob (g : Graph) (j : Job) : List NodeId :=
  g.cutsFrom j.body ++ j.functions.flatMap fun f =>
    ((g.function? f).bind Function.entry).toList.flatMap g.cutsAfter

/-- A job is cut in its body and in its copies of functions. -/
theorem cuts_jobBody (hj : p.job? n = some j) : Cuts (jobBody g p n) (cutsOfJob g j) := by
  rw [jobBody, hj]
  refine cuts_bind (Site.cuts_flow (s := ⟨g, p, .job j.node⟩) hg j.body) fun execute => ?_
  rw [← List.append_nil (List.flatMap _ _)]
  exact cuts_bind (cuts_mapM fun f _ => cuts_copiedBody hg j.node f) fun functions => cuts_pure _

omit hg

section System

variable (h : g.Orderly) (hsystem : g.settings.flavor.isSystem)

include h hsystem

/-- The cycles noted by a run of generation, in order. -/
theorem cuts_generate (hp : Plan.make g = .ok p) : Cuts (generate g p)
    ((g.nodesWith .entry).flatMap g.cutsAfter ++ p.jobs.flatMap (cutsOfJob g)) := by
  have hcomplete := Planning.complete_make h.reachable hp
  have hjob : ∀ j ∈ p.jobs, Cuts (jobBody? g p j.node) (cutsOfJob g j) := by
    intro j hj
    have hprovides := Site.provides (s := ⟨g, p, .job j.node⟩) h hcomplete
      (Planning.excuses_false hsystem)
    exact cuts_tryCatch (cuts_map _ (cuts_jobBody h.reachable (Planning.job?_of_mem hp hj)))
      (meets_map (meets_jobBody_of_provides h.reachable hp hj hprovides) fun _ _ => trivial)
  refine cuts_bind (cuts_mapM fun n hn => cuts_entryBody h.reachable hcomplete hn) fun bodies => ?_
  rw [← List.append_nil (List.flatMap _ _)]
  refine cuts_bind ?_ fun jobs => cuts_pure _
  -- The boundaries are those that the jobs were made for, in the same order.
  have hnodes := (Planning.outlined_make hp).described.nodes_eq
  change Cuts (p.boundaries.mapM (jobBody? g p ∘ Boundary.node)) _
  rw [← List.mapM_map, ← hnodes, List.mapM_map]
  exact cuts_mapM hjob

end System

/-- Each job hangs off a root, and so do the functions copied into it. -/
theorem mem_cuts_iff (hg : g.Reachable) (hp : Plan.make g = .ok p) :
    m ∈ (g.nodesWith .entry).flatMap g.cutsAfter ++ p.jobs.flatMap (cutsOfJob g) ↔
      ∃ r, g.Root r ∧ m ∈ g.cutsFrom r := by
  obtain ⟨hsurveyed, hjobs⟩ := Planning.surveyed_make hg hp
  have hjob : ∀ j ∈ p.jobs, g.Root j.body := by
    intro j hj
    obtain ⟨b, hb, hserves, -⟩ := Planning.exists_serves hp hj
    have hnode : j.node ∈ (g.nodesWith .boundary).filter g.hasBody := hjobs ▸ List.mem_map_of_mem hj
    obtain ⟨hboundary, hbody⟩ := List.mem_filter.1 hnode
    refine .body hboundary hbody ?_
    rw [hserves.node, hserves.body]
    exact hsurveyed.bodies b hb
  have hafter : ∀ {n}, n ∈ g.nodesWith .entry → m ∈ g.cutsAfter n →
      ∃ r, g.Root r ∧ m ∈ g.cutsFrom r := by
    intro n hn hm
    obtain ⟨r, hr, hm⟩ := Graph.mem_cutsAfter.1 hm
    obtain ⟨e, he⟩ | ⟨f, hf⟩ := Graph.mem_nodesWith_entry.1 hn
    · exact ⟨r, .event he hr, hm⟩
    · exact ⟨r, .function hf hr, hm⟩
  simp only [List.mem_append, List.mem_flatMap, cutsOfJob]
  constructor
  · rintro (⟨n, hn, hm⟩ | ⟨j, hj, hm | ⟨f, -, n, hn, hm⟩⟩)
    · exact hafter hn hm
    · exact ⟨j.body, hjob j hj, hm⟩
    · have hentry := hg.entry_eq_some.1 (Option.mem_toList.1 hn)
      exact hafter (Graph.mem_nodesWith_entry.2 (.inr ⟨f, hentry⟩)) hm
  · rintro ⟨r, hroot, hm⟩
    cases hroot with
    | event hn hr =>
      exact .inl ⟨_, Graph.mem_nodesWith_entry.2 (.inl ⟨_, hn⟩), Graph.mem_cutsAfter.2 ⟨r, hr, hm⟩⟩
    | function hn hr =>
      exact .inl ⟨_, Graph.mem_nodesWith_entry.2 (.inr ⟨_, hn⟩), Graph.mem_cutsAfter.2 ⟨r, hr, hm⟩⟩
    | @body n r hn hbody hr =>
      have hnode : n ∈ p.jobs.map Job.node := hjobs ▸ List.mem_filter.2 ⟨hn, hbody⟩
      obtain ⟨j, hj, rfl⟩ := List.mem_map.1 hnode
      obtain ⟨b, hb, hserves, -⟩ := Planning.exists_serves hp hj
      have hsame := hsurveyed.bodies b hb
      rw [← hserves.node, ← hserves.body, hr] at hsame
      exact .inr ⟨j, hj, .inl (Option.some.inj hsame ▸ hm)⟩

end Draft

/-! ## Units -/

namespace Graph

variable {g : Graph} {r : PortRef} {e : Edge} {p : Plan} {o : Options} {a : Assembly}

/-- The flow ports that code is followed from are ports of nodes, found by name. -/
theorem Root.exists_portRef (h : g.Root r) : ∃ n node name, g.node? n = some node ∧
    name ∈ node.kind.followed ∧ g.portRef n name = .ok r := by
  cases h with
  | @event n e r hn hr =>
    obtain ⟨node, hnode, hkind⟩ := Option.map_eq_some_iff.1 hn
    exact ⟨n, node, _, hnode, by simp [hkind], hr⟩
  | @function n f r hn hr =>
    obtain ⟨node, hnode, hkind⟩ := Option.map_eq_some_iff.1 hn
    exact ⟨n, node, _, hnode, by simp [hkind], hr⟩
  | @body n r hn _ hr =>
    obtain ⟨node, port, hnode, hport⟩ := exists_bodyPort hn
    rw [body?, kind?_of_node hnode, Option.bind_some, hport, Option.bind_some] at hr
    refine ⟨n, node, port, hnode, ?_, portRef?_eq_some.1 hr⟩
    cases hk : node.kind <;> rw [hk] at hport <;> cases hport <;> simp

/-- What is wired to such a port is wired to a flow port. -/
theorem Root.isFlowPort (h : g.Root e.source) (hg : g.Reachable) (he : e ∈ g.live) :
    g.IsFlowPort e.source := by
  obtain ⟨n, node, name, hn, hname, hr⟩ := h.exists_portRef
  exact (hg.laidOut hn).isFlowPort hn hname hr (hg.invariant.joins_of_mem he) rfl

/-- In an orderly graph of a system there is nothing to stop the assembly. -/
theorem Orderly.exists_assemble (h : g.Orderly) (hsystem : g.settings.flavor.isSystem)
    (o : Options) : ∃ a, g.assemble o = .ok a := by
  cases ha : g.assemble o with
  | error err => exact (h.assemble_eq_error (Planning.excuses_false hsystem) ha).elim
  | ok a => exact ⟨a, rfl⟩

/-- From each root, code is generated, and the walk that it took ends. -/
theorem Root.exists_flow (hr : g.Root r) (h : g.Orderly) (hsystem : g.settings.flavor.isSystem)
    (hp : Plan.make g = .ok p) (scope : Scope) : ∃ ss new,
      Generation.Adds (Site.flow ⟨g, p, scope⟩ r) (.ok ss) new ∧
        g.Walked r (new.filterMap Note.cut?) := by
  have hprovides := Site.provides (s := ⟨g, p, scope⟩) h (Planning.complete_make h.reachable hp)
    (Planning.excuses_false hsystem)
  have hmeets : Generation.Meets (Site.flow ⟨g, p, scope⟩ r) (Stmt.Within fun _ => True)
      fun _ => False :=
    hprovides.meets_flow (fun _ _ _ _ => trivial) h.reachable
      fun e he hs => ⟨trivial, Root.isFlowPort (hs ▸ hr) h.reachable he⟩
  have hcuts := Site.cuts_flow (s := ⟨g, p, scope⟩) h.reachable r
  obtain ⟨ss, new, hadds, hnew⟩ := hcuts.exists_of_meets (hmeets.imp fun _ _ => trivial)
  exact ⟨ss, new, hadds, hnew ▸ walked_cutsFrom h.reachable.invariant.anchored r⟩

/-- The cycles reported are those at which the walks from the roots were cut. -/
theorem mem_cuts_diagnostics (h : g.Orderly) (hsystem : g.settings.flavor.isSystem)
    (ha : g.assemble o = .ok a) {m : NodeId} :
    m ∈ (g.check ++ a.diagnostics).filterMap Diagnostic.cut? ↔
      ∃ r, g.Root r ∧ m ∈ g.cutsFrom r := by
  obtain ⟨-, hp, hrun⟩ := assemble_eq_ok ha
  obtain ⟨result, new, hadds, hcut⟩ := Draft.cuts_generate h hsystem hp
  obtain ⟨rfl, hledger⟩ := Prod.mk.inj (hrun.symm.trans (hadds _))
  have hplan : (Ledger.ofPlan a.plan).diagnostics.filterMap Diagnostic.cut? = [] :=
    (uncut_make hp).filterMap_cut?
  rw [List.filterMap_append, (uncut_check hsystem).filterMap_cut?, List.nil_append,
    Assembly.diagnostics, hledger, Ledger.filterMap_cut?_enter, hplan, List.nil_append, hcut _ rfl]
  exact Draft.mem_cuts_iff h.reachable hp

theorem mem_filterMap_cut? {ds : List Diagnostic} {m : NodeId} :
    m ∈ ds.filterMap Diagnostic.cut? ↔ ∃ d ∈ ds, d.problem = .flowCycle m := by
  have hcut : ∀ d : Diagnostic, d.cut? = some m ↔ d.problem = .flowCycle m := by
    rintro ⟨severity, owner, problem⟩
    cases problem <;> simp [Diagnostic.cut?]
  simp only [List.mem_filterMap, hcut]

/-- Generation ends, and not for lack of fuel; a cycle is reported exactly if flow leads from a root
to one. -/
theorem compile_reports_cycles (h : g.Orderly) (hsystem : g.settings.flavor.isSystem)
    (o : Options) : (∃ a, g.assemble o = .ok a ∧ ∀ r, g.Root r → ∀ scope, ∃ ss new,
      Generation.Adds (Site.flow ⟨g, a.plan, scope⟩ r) (.ok ss) new ∧
        g.Walked r (new.filterMap Note.cut?)) ∧
    (∀ s : Site, s.graph = g → ∀ n node, g.node? n = some node → ∀ k,
      s.nodeFlowWithin (g.bound + 1 + k) [] n = s.nodeFlow n) ∧
    ((o.denyErrors && Diagnostic.hasErrors g.check) = false → ∃ u, g.compile o = .ok u) ∧
    ∀ u, g.compile o = .ok u →
      ((∃ d ∈ u.diagnostics, ∃ m, d.problem = .flowCycle m) ↔ ∃ m, g.Loops m) ∧
      ∀ d ∈ u.diagnostics, ∀ m, d.problem = .flowCycle m → g.Loops m := by
  obtain ⟨a, ha⟩ := h.exists_assemble hsystem o
  refine ⟨⟨a, ha, fun r hr => hr.exists_flow h hsystem (assemble_eq_ok ha).2.1⟩, ?_, ?_,
    fun u hu => ?_⟩
  · rintro s rfl n node hn k
    exact Site.nodeFlowWithin_eq h.reachable hn (s.graph.fuels_nil k) (s.graph.fuels_nil 0)
  · intro hallowed
    rw [compile_eq, hallowed, ha]
    exact ⟨_, rfl⟩
  · obtain ⟨a, ha, -, hdiagnostics⟩ := compile_eq_ok hu
    have hmem : ∀ m, (∃ d ∈ u.diagnostics, d.problem = .flowCycle m) ↔
        ∃ r, g.Root r ∧ m ∈ g.cutsFrom r := fun m => by
      rw [← mem_filterMap_cut?, hdiagnostics, mem_cuts_diagnostics h hsystem ha]
    have hloops : ∀ m, (∃ d ∈ u.diagnostics, d.problem = .flowCycle m) → g.Loops m := by
      intro m hm
      obtain ⟨r, hr, hm⟩ := (hmem m).1 hm
      obtain ⟨e, he, rfl, hreach, hcycle⟩ := mem_cutsFrom h hm
      exact ⟨e, he, hr, hreach, hcycle⟩
    refine ⟨⟨?_, ?_⟩, fun d hd m hm => hloops m ⟨d, hd, hm⟩⟩
    · rintro ⟨d, hd, m, hm⟩
      exact ⟨m, hloops m ⟨d, hd, hm⟩⟩
    · rintro ⟨m, e, he, hr, hreach, hcycle⟩
      obtain ⟨k, hk⟩ := exists_mem_cutsFrom h he hreach hcycle
      obtain ⟨d, hd, hdk⟩ := (hmem k).2 ⟨e.source, hr, hk⟩
      exact ⟨d, hd, k, hdk⟩

/-- A branch that leads on to a local and back; nothing but itself leads to the second local. -/
def circling : Graph := build {} [
  .addNode "Update" (.event .update) ContainerTree.root,
  .addNode "Branch" .branch ContainerTree.root,
  .addNode "x" (.localVar "x" .float) ContainerTree.root,
  .addNode "y" (.localVar "y" .float) ContainerTree.root,
  .connect ⟨0⟩ "exit" ⟨1⟩ "enter", .connect ⟨1⟩ "true" ⟨2⟩ "enter", .connect ⟨2⟩ "exit" ⟨1⟩ "enter",
  .connect ⟨3⟩ "exit" ⟨3⟩ "enter"]

/-- What leads from a node to another one, as it can be computed. -/
abbrev Connects (g : Graph) (n m : NodeId) : Prop :=
  ∃ e ∈ g.live, e.source.node = n ∧ e.target.node = m ∧ ∃ node ∈ g.node? n,
    ∃ port ∈ g.port? e.source, port.isFlow ∧ port.name ∈ node.kind.onward

/-- A connection between flow ports leads from one node to the next. -/
theorem Connects.leadsTo {n m : NodeId} (h : g.Connects n m) : g.LeadsTo n m := by
  obtain ⟨e, he, hs, ht, node, hn, port, hport, hflow, hname⟩ := h
  exact ⟨e, he, node, port, hs, ht, hn, hport, hflow, hname⟩

-- one evaluation for all the facts about the graph
theorem circling_facts :
    ((∀ node ∈ circling.nodes.toList, (node.ports.map Port.name).Nodup) ∧
      ∀ e ∈ circling.live, circling.isPureNode e.source.node → circling.isPureNode e.target.node →
        e.source.node.index < e.target.node.index) ∧
    (circling.settings.flavor.isSystem ∧ circling.Connects ⟨1⟩ ⟨2⟩ ∧ circling.Connects ⟨2⟩ ⟨1⟩ ∧
      ∃ e ∈ circling.live, circling.kind? ⟨0⟩ = some (.event .update) ∧
        circling.portRef ⟨0⟩ PortName.exit = .ok e.source ∧ e.target.node = ⟨1⟩) ∧
    circling.Connects ⟨3⟩ ⟨3⟩ ∧ (∀ e ∈ circling.live, e.target.node = ⟨3⟩ → e.source.node = ⟨3⟩) ∧
      circling.kind? ⟨3⟩ = some (.localVar "y" .float) ∧ circling.nodesWith .boundary = [] := by
  decide +kernel

theorem orderly_circling : circling.Orderly where
  reachable := reachable_build _ _
  distinct n node hn := circling_facts.1.1 node (Slots.mem_toList.2 ⟨n.index, hn⟩)
  acyclic := acyclic_of_ascending circling_facts.1.2

/-- The branch leads to a local that leads back to it. -/
theorem loops_circling : circling.Loops ⟨1⟩ := by
  obtain ⟨-, ⟨-, hthere, hback, e, he, hkind, hroot, ht⟩, -⟩ := circling_facts
  have hround : Relation.TransGen circling.LeadsTo ⟨1⟩ ⟨1⟩ :=
    .head hthere.leadsTo (.single hback.leadsTo)
  exact ⟨e, he, .event hkind hroot, ht ▸ .refl, hround⟩

/-- Nothing leads to the second local but itself. -/
theorem not_loops_circling : ¬circling.Loops ⟨3⟩ := by
  obtain ⟨-, -, -, hinto, hkind, hboundary⟩ := circling_facts
  have hback : ∀ n, Relation.ReflTransGen circling.LeadsTo n ⟨3⟩ → n = ⟨3⟩ := by
    intro n hn
    induction hn using Relation.ReflTransGen.head_induction_on with
    | refl => rfl
    | head hstep _ ih =>
      obtain ⟨e, he, -, -, rfl, ht, -⟩ := hstep
      exact hinto e he (ht.trans ih)
  rintro ⟨e, he, hroot, hreach, -⟩
  have hsource := hinto e he (hback _ hreach)
  cases hroot with
  | event hn hr => rw [← node_of_portRef hr, hsource, hkind] at hn; cases hn
  | function hn hr => rw [← node_of_portRef hr, hsource, hkind] at hn; cases hn
  | body hn => rw [hboundary] at hn; cases hn

/-- Two cycles, of which flow leads to the first only: one is reported, and the other is not. -/
theorem compile_reports_cycles_circling : circling.Orderly ∧ circling.settings.flavor.isSystem ∧
    circling.Loops ⟨1⟩ ∧ circling.LeadsTo ⟨3⟩ ⟨3⟩ ∧ ∃ u, circling.compile {} = .ok u ∧
      (∃ d ∈ u.diagnostics, ∃ m, d.problem = .flowCycle m) ∧
      ∀ d ∈ u.diagnostics, d.problem ≠ .flowCycle ⟨3⟩ := by
  obtain ⟨-, ⟨hsystem, -⟩, hself, -⟩ := circling_facts
  obtain ⟨-, -, hcompiles, hreports⟩ := compile_reports_cycles orderly_circling hsystem {}
  obtain ⟨u, hu⟩ := hcompiles rfl
  obtain ⟨hiff, hnames⟩ := hreports u hu
  exact ⟨orderly_circling, hsystem, loops_circling, hself.leadsTo, u, hu,
    hiff.2 ⟨_, loops_circling⟩, fun d hd h => not_loops_circling (hnames d hd _ h)⟩

end Graph

end EntityFlow
