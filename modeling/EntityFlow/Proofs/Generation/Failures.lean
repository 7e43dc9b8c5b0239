import EntityFlow.Proofs.Boundary.Members
import EntityFlow.Proofs.Generation.Drafts
import EntityFlow.Proofs.Generation.Values
import EntityFlow.Proofs.Planning.Redirects

/-!
# What compilation can fail for

A graph that is orderly has all that planning and generation ask for.  What is left are the two
failures that a caller is told of: the check found errors and the caller asked to stop on them, or
code belongs in a method that only systems have.  For the latter a job may also be left out, but
never one of a system.
-/

namespace EntityFlow

namespace Draft

open Generation Planning

variable {g : Graph} {p : Plan} {b : Boundary} {j : Job} {n : NodeId} {E : CompileError → Prop}

/-- In a complete plan every function has a name. -/
theorem exists_functionName {f : MemberId} {fn : Function} (hp : Complete g p)
    (hf : g.member? f = some (.function fn)) :
    ∃ name, Naming.functionName g p.symbols f = .ok name := by
  obtain ⟨name, hname⟩ := hp.members f _ hf
  exact ⟨name, Naming.functionName_eq_ok.2 ⟨⟨fn, Graph.function?_eq_some.2 hf⟩, hname⟩⟩

/-- The code of a job is generated wherever nothing is missing: what is copied into it are
functions, and these have names. -/
theorem meets_jobBody_of_provides (hg : g.Reachable) (hp : Plan.make g = .ok p) (hj : j ∈ p.jobs)
    (h : Site.Provides ⟨g, p, .job j.node⟩ E) : Meets (jobBody g p j.node) (fun _ => True) E := by
  obtain ⟨b, -, hserves, hhangs, ha⟩ := exists_serves hp hj
  have hnames : ∀ f ∈ j.functions, ∀ e, Naming.functionName g p.symbols f = .error e → E e := by
    intro f hf e he
    rw [hserves.functions] at hf
    obtain ⟨fn, hfn, -⟩ := Boundary.isInstanceFunction_of_mem ha hf
    obtain ⟨name, hname⟩ := exists_functionName (complete_make hg hp) hfn
    cases hname.symm.trans he
  exact (meets_jobBody (R := fun _ => True) hg (fun _ _ _ _ => trivial) (job?_of_mem hp hj) h hnames
    (fun e he hsource => ⟨trivial, hhangs.isFlowPort hg he (hserves.body ▸ hsource)⟩)
    fun _ _ _ _ _ _ _ _ => trivial).imp fun _ _ => trivial

/-- Every boundary was described, so its job is found. -/
theorem exists_job (hp : Plan.make g = .ok p) (hb : b ∈ p.boundaries) :
    ∃ j ∈ p.jobs, j.node = b.node := by
  have hnode : b.node ∈ p.jobs.map Job.node :=
    (outlined_make hp).described.nodes_eq ▸ List.mem_map_of_mem hb
  exact List.mem_map.1 hnode

section

variable (hs : g.Orderly) (hE : Excuses g E)

include hs hE

/-- From the exit of a node code can be followed, if the node has an exit. -/
theorem meets_follow_exit {scope : Scope} {node : Node} (hp : Complete g p)
    (hn : g.node? n = some node) (hfollowed : PortName.exit ∈ node.kind.followed)
    (hasked : PortName.exit ∈ node.kind.asked) :
    Meets (Site.follow ⟨g, p, scope⟩ n PortName.exit) (fun _ => True) E :=
  ((Site.provides (s := ⟨g, p, scope⟩) hs hp hE).meets_follow (R := fun _ => True)
    (fun _ _ _ _ => trivial) hs.reachable hn hfollowed hasked fun _ _ _ _ => trivial).imp
    fun _ _ => trivial

/-- Drafting an entry fails with no error but those that are excused. -/
theorem meets_entryBody (hp : Complete g p) (hn : n ∈ g.nodesWith .entry) :
    Meets (entryBody g p n) (fun _ => True) E := by
  obtain ⟨⟨title, kind, container, ports⟩, hnode⟩ := exists_node_of_mem_nodesWith hn
  have hrefers := hs.reachable.invariant.refers n _ hnode
  refine meets_bind (Site.meets_node (s := ⟨g, p, .unit⟩) hnode) ?_
  rintro _ rfl
  cases kind with
  | event e =>
    refine meets_bind (meets_follow_exit hs hE hp hnode (by simp) (by simp)) fun body _ => ?_
    split
    · exact meets_pure trivial
    · rename_i hsystem
      exact meets_throw (hE (by simpa using hsystem) _)
  | functionEntry f =>
    dsimp only
    split
    · obtain ⟨fn, hfn⟩ := hrefers
      obtain ⟨name, hname⟩ := exists_functionName hp hfn
      have hmethod : (Naming.functionNames g p.symbols).contains name :=
        List.contains_iff_mem.2 (Naming.mem_functionNames.2 ⟨f, hname⟩)
      rw [hname, Generation.attempt, pure_bind]
      refine meets_bind (meets_follow_exit hs hE hp hnode (by simp) (by simp)) fun body _ => ?_
      rw [if_pos hmethod]
      exact meets_pure trivial
    · exact meets_pure trivial
  | _ => exact meets_pure trivial

/-- Drafting a job fails with no error but those that are excused. -/
theorem meets_jobBody? (hp : Plan.make g = .ok p) (hb : b ∈ p.boundaries) :
    Meets (jobBody? g p b.node) (fun _ => True) E := by
  obtain ⟨j, hj, hnode⟩ := exists_job hp hb
  rw [← hnode]
  have hbody := meets_jobBody_of_provides hs.reachable hp hj
    (Site.provides (s := ⟨g, p, .job j.node⟩) hs (complete_make hs.reachable hp) hE)
  refine meets_tryCatch (meets_map hbody fun _ _ => trivial) fun e he => ?_
  split
  · exact meets_bind (meets_report (T := fun _ => True) _ _ trivial) fun _ _ => meets_pure trivial
  · exact meets_throw he

/-- Drafting fails with no error but those that are excused. -/
theorem meets_generate (hp : Plan.make g = .ok p) : Meets (generate g p) (fun _ => True) E := by
  have hcomplete := complete_make hs.reachable hp
  refine meets_bind (meets_mapM fun n hn => meets_entryBody hs hE hcomplete hn) fun bodies _ => ?_
  refine meets_bind (meets_mapM fun b hb => meets_jobBody? hs hE hp hb) fun jobs _ => ?_
  exact meets_pure trivial

end

/-! ## Jobs of systems -/

/-- There is a body for every boundary, with the job of the plan. -/
theorem map_job_filterMap {bs : List Boundary} {os : List (Option JobBody)} (h : List.Forall₂
    (fun c o => (∀ b ∈ o, p.job? c.node = some b.job) ∧ o.isSome) bs os) :
    (os.filterMap id).map (fun b => some b.job) = bs.map fun c => p.job? c.node := by
  induction h with
  | nil => rfl
  | @cons c o bs os hc _ ih =>
    obtain ⟨b, rfl⟩ := Option.isSome_iff_exists.1 hc.2
    have hset : (some b :: os).filterMap id = b :: os.filterMap id := rfl
    rw [hset, List.map_cons, List.map_cons, ih, hc.1 b rfl]

section System

variable (hg : g.Reachable) (hsystem : g.settings.flavor.isSystem)

include hg hsystem

/-- A system has its update method, so no error in a job costs only the job. -/
theorem meets_jobBody?_isSome (hp : Plan.make g = .ok p) (hb : b ∈ p.boundaries) :
    Meets (jobBody? g p b.node) (fun o => o.isSome) fun e => e.isStructural = false := by
  obtain ⟨j, hj, hnode⟩ := exists_job hp hb
  rw [← hnode]
  have hE : Excuses g fun e => e.isStructural = false := by
    intro haspect
    exact absurd hsystem (by simp [haspect])
  have hbody := meets_jobBody_of_provides hg hp hj
    (Site.provides_of_cycle (s := ⟨g, p, .job j.node⟩) hg (complete_make hg hp) hE fun _ => rfl)
  refine meets_tryCatch (meets_map hbody fun _ _ => rfl) fun e he => ?_
  rw [he]
  exact meets_throw he

/-- The draft of a system has every job of the plan. -/
theorem noted_generate_jobs {N : Ledger} (hp : Plan.make g = .ok p) :
    Noted N (generate g p) fun d => d.jobs.map JobBody.job = p.jobs := by
  refine noted_bind (noted_mapM fun n _ => noted_entryBody n) fun bodies => ?_
  refine noted_bind (noted_mapM_forall₂ fun b hb =>
    ((noted_jobBody? b.node).imp fun o ho b' hb' => (ho b' hb').1).and_meets
      (meets_jobBody?_isSome hg hsystem hp hb)) fun jobs => noted_pure ?_
  intro hjobs _
  have hall := (map_job_filterMap hjobs).trans (map_job? hp)
  refine List.map_injective_iff.2 (Option.some_injective Job) ?_
  rwa [List.map_map]

end System

end Draft

namespace Graph

variable {g : Graph} {err : CompileError}

/-- No job of a system is left out. -/
theorem jobs_draft {options : Options} {a : Assembly} (hg : g.Reachable)
    (hsystem : g.settings.flavor.isSystem) (ha : g.assemble options = .ok a) :
    a.draft.jobs.map JobBody.job = a.plan.jobs := by
  obtain ⟨-, hp, hrun⟩ := assemble_eq_ok ha
  have hnoted := (Draft.noted_generate_jobs (N := a.ledger) hg hsystem hp (.ofPlan a.plan)).2
  rw [hrun] at hnoted
  exact hnoted (Ledger.le_refl _) a.draft rfl

/-- An orderly graph is not compiled only for reasons that are excused. -/
theorem Orderly.assemble_eq_error {E : CompileError → Prop} (h : g.Orderly)
    (hE : Planning.Excuses g E)
    {options : Options} (hrun : g.assemble options = .error err) : E err := by
  unfold assemble at hrun
  cases hmake : Plan.make g with
  | error e =>
    rw [hmake] at hrun
    obtain rfl : e = err := Except.error.inj hrun
    exact Planning.make_eq_error h.reachable hE hmake
  | ok p =>
    have hmeets := Draft.meets_generate h hE hmake (.ofPlan p)
    rw [hmake] at hrun
    rcases hdraft : (Draft.generate g p).run.run (.ofPlan p) with ⟨e | d, ledger⟩
    · rw [hdraft] at hmeets
      obtain rfl : e = err := by simpa [bind, Except.bind, hdraft] using hrun
      exact hmeets
    · simp [bind, Except.bind, pure, Except.pure, hdraft] at hrun

/-- Compiling an orderly graph fails only if the check found errors and the caller asked to stop on
them, or if an aspect lacks a method.  So a system is compiled unless the caller asked to stop. -/
theorem compile_fails_only (h : g.Orderly) (options : Options) :
    (∀ err, g.compile options = .error err →
      (err = .analysisFailed g.check ∧ options.denyErrors = true ∧
        Diagnostic.hasErrors g.check = true) ∨
      ∃ method, err = .missingEntryPoint method ∧ g.settings.flavor = .aspect) ∧
    (g.settings.flavor ≠ .aspect → options.denyErrors = false →
    ∃ u, g.compile options = .ok u) := by
  have hE : Planning.Excuses g fun err =>
      ∃ method, err = .missingEntryPoint method ∧ g.settings.flavor = .aspect := by
    intro hsystem method
    refine ⟨method, rfl, ?_⟩
    cases hflavor : g.settings.flavor with
    | aspect => rfl
    | unmanagedSystem | managedSystem => simp [hflavor, Flavor.isSystem] at hsystem
  have herror : ∀ err, g.compile options = .error err →
      (err = .analysisFailed g.check ∧ options.denyErrors = true ∧
        Diagnostic.hasErrors g.check = true) ∨
      ∃ method, err = .missingEntryPoint method ∧ g.settings.flavor = .aspect := by
    intro err hrun
    unfold compile at hrun
    dsimp only at hrun
    split at hrun
    · rename_i hdenied
      rw [Bool.and_eq_true] at hdenied
      exact .inl ⟨(Except.error.inj hrun).symm, hdenied.1, hdenied.2⟩
    · cases hassemble : g.assemble options with
      | error e =>
        rw [hassemble] at hrun
        obtain rfl : e = err := Except.error.inj hrun
        exact .inr (h.assemble_eq_error hE hassemble)
      | ok a => simp [hassemble, bind, Except.bind, pure, Except.pure] at hrun
  refine ⟨herror, fun hflavor hallowed => ?_⟩
  cases hrun : g.compile options with
  | ok u => exact ⟨u, rfl⟩
  | error err =>
    rcases herror err hrun with ⟨-, hdenied, -⟩ | ⟨-, -, haspect⟩
    · exact absurd hdenied (by simp [hallowed])
    · exact absurd haspect hflavor

/-- Values that only feed nodes of higher index make no cycle. -/
theorem acyclic_of_ascending (h : ∀ e ∈ g.live, g.isPureNode e.source.node →
    g.isPureNode e.target.node → e.source.node.index < e.target.node.index) (n : NodeId) :
    ¬Relation.TransGen g.PureFeeds n n := by
  have hstep : ∀ m n, g.PureFeeds m n → m.index < n.index := by
    rintro m n ⟨e, he, -, rfl, rfl, hsource, htarget⟩
    exact h e he (isPureNode_iff.2 hsource) (isPureNode_iff.2 htarget)
  have hlt : ∀ m, Relation.TransGen g.PureFeeds n m → n.index < m.index := by
    intro m hm
    induction hm with
    | single hfeeds => exact hstep _ _ hfeeds
    | tail _ hfeeds ih => exact Nat.lt_trans ih (hstep _ _ hfeeds)
  exact fun hcycle => Nat.lt_irrefl _ (hlt n hcycle)

/-- A loop is scheduled as a job, whose body calls a function.  The function sets a local to the
square of two, plus two. -/
def delegated : Graph := build {} [
  .addFunction "Advance" [] none false,
  .addNode "Update" (.event .update) ContainerTree.root,
  .addNode "Each"
    (.foreach { items := [⟨"a", some (.component "A"), .readOnly⟩], run := .schedule })
    ContainerTree.root,
  .addNode "Call" (.member (.function ⟨0⟩)) ContainerTree.root,
  .addNode "Entry" (.functionEntry ⟨0⟩) ⟨1⟩,
  .addNode "Two" (.literal (.int 2)) ⟨1⟩,
  .addNode "Product" (.operator .mul none) ⟨1⟩,
  .addNode "Sum" (.operator .add none) ⟨1⟩,
  .addNode "x" (.localVar "x" .float) ⟨1⟩,
  .connect ⟨0⟩ "exit" ⟨1⟩ "enter", .connect ⟨1⟩ "body" ⟨2⟩ "enter", .connect ⟨3⟩ "exit" ⟨7⟩ "enter",
  .connect ⟨4⟩ "Out" ⟨5⟩ "a", .connect ⟨4⟩ "Out" ⟨5⟩ "b", .connect ⟨5⟩ "Out" ⟨6⟩ "a",
  .connect ⟨4⟩ "Out" ⟨6⟩ "b", .connect ⟨6⟩ "Out" ⟨7⟩ "value"]

theorem orderly_delegated : delegated.Orderly where
  reachable := reachable_build _ _
  distinct := by
    have hall : ∀ node ∈ delegated.nodes.toList,
      (node.ports.map Port.name).Nodup := by decide +kernel
    exact fun n node hn => hall node (Slots.mem_toList.2 ⟨n.index, hn⟩)
  acyclic := acyclic_of_ascending (by decide +kernel)

/-- The unit is made, with the job and a copy of the function in it. -/
theorem compile_fails_only_delegated : delegated.Orderly ∧ delegated.settings.flavor ≠ .aspect ∧
    delegated.PureFeeds ⟨5⟩ ⟨6⟩ ∧ ∃ u a, delegated.compile {} = .ok u ∧
    delegated.assemble {} = .ok a ∧
      ∃ b ∈ a.draft.jobs, ∃ x ∈ b.functions, x.2 ≠ [] := by
  have hflavor : delegated.settings.flavor ≠ .aspect := by decide +kernel
  have hfeeds : delegated.PureFeeds ⟨5⟩ ⟨6⟩ := by
    obtain ⟨e, he, hkind, hsource, htarget⟩ : ∃ e ∈ delegated.live, e.kind = .value ∧
      e.source.node = ⟨5⟩ ∧ e.target.node = ⟨6⟩ := by decide +kernel
    exact ⟨e, he, hkind, hsource, htarget, isPureNode_iff.1 (by decide +kernel),
      isPureNode_iff.1 (by decide +kernel)⟩
  obtain ⟨a, ha, hcopied⟩ := exists_ok_of_any (x := delegated.assemble {})
    (c := fun a => a.draft.jobs.any fun b => b.functions.any fun x => !x.2.isEmpty)
      (by decide +kernel)
  obtain ⟨b, hb, hfunctions⟩ := List.any_eq_true.1 hcopied
  obtain ⟨x, hx, hbody⟩ := List.any_eq_true.1 hfunctions
  obtain ⟨u, hu⟩ := (compile_fails_only orderly_delegated {}).2 hflavor rfl
  exact ⟨orderly_delegated, hflavor, hfeeds, u, a, hu, ha, b, hb, x, hx, by simpa using hbody⟩

end Graph

end EntityFlow
