import EntityFlow.Proofs.Jobs.Construction
import EntityFlow.Proofs.Planning.Boundaries

/-!
# Types of jobs

The nodes with the body of a job are sorted out once, when bodies are claimed.  From then on
everything that concerns a job goes by the jobs of the plan: the types declared in the unit, the
loops and the executors that construct a job, and the statements they generate.  So every type that
is constructed is declared, and a boundary without a body leaves nothing but a report.
-/

namespace EntityFlow

/-- Nodes that would run the job of `n`: the loop itself, and the executors that refer to it. -/
inductive Graph.Runs (g : Graph) (n : NodeId) : NodeId → Prop
  | loop {spec : ForeachSpec} (h : g.kind? n = some (.foreach spec)) : Runs g n n
  | executor {m : NodeId} {runWith : Discipline}
    (h : g.kind? m = some (.executor runWith (some n))) :
      Runs g n m

/-- A loop that is a boundary is deferred. -/
theorem Graph.isDeferred_of_boundary {g : Graph} {n : NodeId} {spec : ForeachSpec}
    (h : n ∈ g.nodesWith .boundary) (hkind : g.kind? n = some (.foreach spec)) :
    spec.run.isDeferred = true := by
  have hcapable := (List.mem_filter.1 h).2
  by_contra hrun
  simp [capabilities, hkind, kindCapabilities, hrun] at hcapable

namespace Site

variable {s : Site} {next : Follow} {m n : NodeId}

/-- Where a job is missing, flow goes on as if there were nothing to run. -/
theorem statementsWith_of_job?_eq_none (hn : n ∈ s.graph.nodesWith .boundary)
    (hjob : s.plan.job? n = none) (hm : s.graph.Runs n m) :
    s.statementsWith next m = s.followWith next m PortName.exit := by
  have hnil : s.thenExit next m [] = s.followWith next m PortName.exit := by simp [thenExit]
  cases hm with
  | loop h =>
    obtain ⟨node, hnode, hkind⟩ := Option.map_eq_some_iff.1 h
    have hrun := Graph.isDeferred_of_boundary hn h
    simp [statementsWith, Graph.node_eq_ok.2 hnode, Generation.ofGraph, hkind, hrun, scheduleLoop,
      hjob, hnil]
  | executor h =>
    obtain ⟨node, hnode, hkind⟩ := Option.map_eq_some_iff.1 h
    simp [statementsWith, Graph.node_eq_ok.2 hnode, Generation.ofGraph, hkind, hjob, hnil]

end Site

namespace Assembly

open Planning Text

variable {g : Graph} {o : Options} {a : Assembly} {u : CompiledUnit}

/-- The types that a unit declares for jobs, and what becomes of the boundaries that have none. -/
structure JobTypes (g : Graph) (a : Assembly) (found : List Diagnostic) : Prop where
  /-- One type for each boundary that a connection leaves by its body port. -/
  nodes : a.draft.jobs.map (fun b => b.job.node) = (g.nodesWith .boundary).filter g.hasBody
  ascending : a.draft.jobs.Pairwise fun b c => b.job.node.index < c.job.node.index
  /-- The source has the lines of the unit's type, in which the texts of these types come last. -/
  source : rows a.source = a.front ++
    (a.declaration.rows a.unit.toList).map (shift a.unit.toList)^[a.level] ++ a.back
  nested : a.declaration.nested = a.draft.jobs.map a.jobText
  /-- Each text has the lines of its type, between comments if the unit is traced. -/
  texts : ∀ b ∈ a.draft.jobs, a.Shows a.depth (a.jobText b) ∧ rows (a.jobText b) =
    (if a.options.traceability then rows (a.beginComment b) else []) ++
      (a.jobType b).rows a.unit.toList ++
      (if a.options.traceability then rows (endComment b) else [])
  openings : ∀ b ∈ a.draft.jobs, (a.jobType b).opening = match b.job.contract with
    | .entity => "public partial struct " ++ (a.jobType b).name ++ " : IJobEntity \x7b"
    | .chunk => "public struct " ++ (a.jobType b).name ++ " : IJobChunk \x7b"
  names : (a.draft.jobs.map fun b => (a.jobType b).name).Nodup
  /-- The others are reported. -/
  reported : ∀ n ∈ g.nodesWith .boundary, g.hasBody n = false →
    ∃ reason, ⟨.error, .node n, .nestedUnitFailed reason⟩ ∈ found
  /-- Nothing is generated to run them, wherever flow reaches a node that would. -/
  idle : ∀ n ∈ g.nodesWith .boundary, g.hasBody n = false → ∀ scope next m, g.Runs n m →
    Site.statementsWith ⟨g, a.plan, scope⟩ next m =
      Site.followWith ⟨g, a.plan, scope⟩ next m PortName.exit
  /-- Whatever is constructed has its type here, and is made for a boundary with a body. -/
  declared : ∀ job name type fields, .construct job name type fields ∈ a.draft.stmts →
    g.hasBody job = true ∧ ∃ b ∈ a.draft.jobs, b.job.node = job ∧ (a.jobType b).name = type ∧
      a.Shows a.depth (a.jobType b).opening

/-- The line that opens the type of a job. -/
theorem opening_jobType (a : Assembly) (b : JobBody) :
    (a.jobType b).opening = match b.job.contract with
      | .entity => "public partial struct " ++ (a.jobType b).name ++ " : IJobEntity \x7b"
      | .chunk => "public struct " ++ (a.jobType b).name ++ " : IJobChunk \x7b" := by
  rw [← String.toList_inj, Declaration.TypeDecl.opening]
  cases h : b.job.contract <;>
    simp [jobType, h, Declaration.TypeSort.keyword, Contract.interface]

/-- A job that is constructed anywhere was drafted. -/
theorem exists_drafted {job : NodeId} {name type : String} {fields : List (String × Expr)}
    (hg : g.Reachable) (hsystem : g.settings.flavor.isSystem) (ha : g.assemble o = .ok a)
    (ht : .construct job name type fields ∈ a.draft.stmts) :
    ∃ b ∈ a.draft.jobs, b.job.node = job ∧ b.job.typeName = type := by
  obtain ⟨scope, hstates⟩ := Graph.states_draft ha ht
  generalize hconstruct : Stmt.construct job name type fields = t at hstates
  cases hstates with
  | plain _ hplain => exact absurd hconstruct.symm (hplain _ _ _ _)
  | construct hconstructs _ =>
    obtain ⟨rfl, -, rfl, -⟩ := Stmt.construct.inj hconstruct
    have hj := hconstructs.mem_jobs
    rw [← Graph.jobs_draft hg hsystem ha] at hj
    obtain ⟨b, hb, rfl⟩ := List.mem_map.1 hj
    exact ⟨b, hb, rfl, rfl⟩

/-- Of every unit that is assembled: which boundaries have a job, and what the source shows of
them. -/
theorem jobTypes (hg : g.Reachable) (hsystem : g.settings.flavor.isSystem)
    (ha : g.assemble o = .ok a) : JobTypes g a a.diagnostics := by
  have hdraft := Graph.jobs_draft hg hsystem ha
  obtain ⟨rfl, hp, -⟩ := Graph.assemble_eq_ok ha
  obtain ⟨hsurveyed, hjobs⟩ := surveyed_make hg hp
  have hnodes : a.draft.jobs.map (fun b => b.job.node) =
      (a.graph.nodesWith .boundary).filter a.graph.hasBody := by
    rw [← hjobs, ← hdraft, List.map_map]
    rfl
  refine ⟨hnodes, ?_, a.rows_source, rfl, fun b hb => ⟨shows_jobText hb, a.rows_jobText b⟩,
    fun b _ => opening_jobType a b, ?_, ?_, ?_, ?_⟩
  · have hascending := (pairwise_nodesWith a.graph .boundary).filter a.graph.hasBody
    rw [← hnodes, List.pairwise_map] at hascending
    exact hascending
  · have hnames := nodup_typeNames hg hp
    rw [← hdraft, List.map_map] at hnames
    exact hnames
  · intro n hn hbody
    exact ⟨_, (Graph.ofPlan_le ha).diagnostics (hsurveyed.reported n hn hbody)⟩
  · intro n hn hbody scope next m hm
    exact Site.statementsWith_of_job?_eq_none (s := ⟨a.graph, a.plan, scope⟩) hn
      (job?_eq_none hg hp hbody) hm
  · intro job name type fields ht
    obtain ⟨b, hb, rfl, rfl⟩ := exists_drafted hg hsystem ha ht
    have hnode : b.job.node ∈ a.draft.jobs.map (fun b => b.job.node) := List.mem_map_of_mem hb
    rw [hnodes] at hnode
    exact ⟨(List.mem_filter.1 hnode).2, b, hb, rfl, rfl, shows_opening hb⟩

/-- Every type of a job that a unit constructs is declared in it, once. -/
theorem compile_jobTypes (hg : g.Reachable) (hsystem : g.settings.flavor.isSystem)
    (hu : g.compile o = .ok u) :
    ∃ a, g.assemble o = .ok a ∧ u.source = a.source ∧ JobTypes g a u.diagnostics := by
  obtain ⟨a, ha, hsource, hfound⟩ := Graph.compile_eq_ok hu
  have htypes := jobTypes hg hsystem ha
  refine ⟨a, ha, hsource, { htypes with reported := fun n hn hbody => ?_ }⟩
  obtain ⟨reason, hreported⟩ := htypes.reported n hn hbody
  exact ⟨reason, hfound ▸ List.mem_append_right _ hreported⟩

/-- A loop and a job with a body, and one of each without, all of which flow asks to be run. -/
def Sparse.graph : Graph := Graph.build {} [
  .addNode "Update" (.event .update) ContainerTree.root,
  .addNode "Each"
    (.foreach { items := [⟨"a", some (.component "A"), .readOnly⟩], run := .schedule })
    ContainerTree.root,
  .addNode "Idle"
    (.foreach { items := [⟨"a", some (.component "A"), .readOnly⟩], run := .schedule })
    ContainerTree.root,
  .addNode "Move" (.jobEntity { items := [⟨"a", some (.component "A"), .readOnly⟩] })
    ContainerTree.root,
  .addNode "Rest" (.jobChunk {}) ContainerTree.root,
  .addNode "RunMove" (.executor .schedule (some ⟨3⟩)) ContainerTree.root,
  .addNode "RunRest" (.executor .run (some ⟨4⟩)) ContainerTree.root,
  .addNode "Seen" (.localVar "seen" .float) ContainerTree.root,
  .addNode "Kept" (.localVar "kept" .float) ContainerTree.root,
  .connect ⟨0⟩ "exit" ⟨1⟩ "enter", .connect ⟨1⟩ "exit" ⟨2⟩ "enter", .connect ⟨2⟩ "exit" ⟨5⟩ "enter",
  .connect ⟨5⟩ "exit" ⟨6⟩ "enter", .connect ⟨1⟩ "body" ⟨7⟩ "enter",
  .connect ⟨3⟩ "execute" ⟨8⟩ "enter"]

/-- Two of four boundaries have a body, and these two have a type. -/
theorem compile_jobTypes_sparse : ∃ u a, Sparse.graph.compile {} = .ok u ∧
    Sparse.graph.nodesWith .boundary = [⟨1⟩, ⟨2⟩, ⟨3⟩, ⟨4⟩] ∧
    a.draft.jobs.map (fun b => b.job.node) = [⟨1⟩, ⟨3⟩] ∧
    JobTypes Sparse.graph a u.diagnostics := by
  obtain ⟨u, hu, -⟩ := exists_ok_of_any (x := Sparse.graph.compile {}) (c := fun _ => true)
    (by decide +kernel)
  obtain ⟨a, -, -, htypes⟩ := compile_jobTypes (Graph.reachable_build _ _) (by decide +kernel) hu
  have hnodes : (Sparse.graph.nodesWith .boundary).filter Sparse.graph.hasBody = [⟨1⟩, ⟨3⟩] := by
    decide +kernel
  exact ⟨u, a, hu, by decide +kernel, htypes.nodes.trans hnodes, htypes⟩

end Assembly

end EntityFlow
