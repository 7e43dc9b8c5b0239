import EntityFlow.Compile.Value
import EntityFlow.Proofs.Planning.Jobs

/-!
# The field that a captured input reads

All boundaries put their redirects into one table, which is looked up by the input alone.  Of the
boundaries that capture an input, the one that is described last, which is the one with the highest
node, therefore owns its entry.  The job of that boundary reads its own field.  The other jobs find
an entry of another boundary, and resolve the input as if they had not captured it.
-/

namespace EntityFlow

namespace Planning

variable {g : Graph} {j : Job} {b : Boundary} {source i : PortRef}
  {cs : List (PortRef × List PortRef)} {bs : List Boundary} {js : List Job}
  {rs : List (PortRef × NodeId × String)}

/-! ## The table -/

/-- An input that nothing crosses to has no redirect. -/
theorem Redirected.lookup_eq_none (h : Redirected g cs j rs) (hi : ∀ s, ¬Captures g cs s i) :
    rs.lookup i = none := by
  rw [List.lookup_eq_none_iff]
  rintro ⟨i', t⟩ ht
  obtain ⟨s, f, hc, -⟩ := (h.mem i' t).1 ht
  have : i ≠ i' := by
    rintro rfl
    exact hi s hc
  simpa using this

/-- An input that one source crosses to is redirected to the field for this source. -/
theorem Redirected.lookup_of_captures (h : Redirected g cs j rs)
    (hsrc : ∀ s, Captures g cs s i → s = source) (hc : Captures g cs source i) :
    ∃ f, j.field? (.port source) = some f ∧ rs.lookup i = some (j.node, f.name) := by
  obtain ⟨f, hf⟩ := (h.field source).2 ⟨hc.1, hc.2.imp fun _ his => his.1⟩
  have hmem : (i, j.node, f.name) ∈ rs := (h.mem _ _).2 ⟨source, f, hc, hf, rfl⟩
  obtain ⟨t, ht⟩ : ∃ t, rs.lookup i = some t := by
    refine Option.ne_none_iff_exists'.1 fun hnone => ?_
    simpa using List.lookup_eq_none_iff.1 hnone _ hmem
  obtain ⟨l₁, l₂, hl, -⟩ := List.lookup_eq_some_iff.1 ht
  obtain ⟨s, f', hs, hf', rfl⟩ := (h.mem i t).1 (by simp [hl])
  obtain rfl := hsrc s hs
  exact ⟨f', hf', ht⟩

theorem node_ne_of_lt {c : Boundary} (h : b.node.index < c.node.index) : b.node ≠ c.node := by
  intro heq
  rw [heq] at h
  exact Nat.lt_irrefl _ h

/-- A boundary above all that were described has no job yet. -/
theorem Described.find?_eq_none (h : Described g bs js rs)
    (hlt : ∀ c ∈ bs, c.node.index < b.node.index) :
    js.find? (fun j => j.node = b.node) = none := by
  rw [List.find?_eq_none]
  intro j hj
  have hnode : j.node ∈ bs.map Boundary.node := h.nodes_eq ▸ List.mem_map_of_mem hj
  obtain ⟨c, hc, hnode⟩ := List.mem_map.1 hnode
  simpa [← hnode] using node_ne_of_lt (hlt c hc)

/-- The last boundary that captures an input decides where it is redirected. -/
theorem Described.lookup (h : Described g bs js rs)
    (hasc : bs.Pairwise fun b c => b.node.index < c.node.index)
    (hsrc : ∀ c ∈ bs, ∀ s, Captures g c.crossings s i → s = source) (hb : b ∈ bs)
    (hj : js.find? (fun j => j.node = b.node) = some j) (hc : Captures g b.crossings source i) :
    ∃ f, j.field? (.port source) = some f ∧
      ((∀ c ∈ bs, b.node.index < c.node.index → ∀ s, ¬Captures g c.crossings s i) →
        rs.lookup i = some (b.node, f.name)) ∧
      ((∃ c ∈ bs, b.node.index < c.node.index ∧ ∃ s, Captures g c.crossings s i) →
        ∃ n name, n ≠ b.node ∧ rs.lookup i = some (n, name)) := by
  induction h with
  | nil => simp at hb
  | @add b₀ j₀ bs js new rs hold hnode hnew ih =>
    obtain ⟨hasc, -, hlast⟩ := List.pairwise_append.1 hasc
    have hlt : ∀ c ∈ bs, c.node.index < b₀.node.index := fun c hc => hlast c hc b₀ (by simp)
    have hsrc₀ := hsrc b₀ (by simp)
    rw [List.find?_append] at hj
    rw [List.lookup_append]
    rcases List.mem_append.1 hb with hb | hb
    · -- an earlier boundary: the new entries go before its own
      have hne : b₀.node ≠ b.node := (node_ne_of_lt (hlt b hb)).symm
      have hj : js.find? (fun j => j.node = b.node) = some j := by
        simpa [List.find?_singleton, hnode, hne] using hj
      obtain ⟨f, hf, hfree, htaken⟩ := ih hasc (fun c hc => hsrc c (by simp [hc])) hb hj
      refine ⟨f, hf, fun hnone => ?_, fun hlater => ?_⟩
      · rw [hnew.lookup_eq_none (hnone b₀ (by simp) (hlt b hb)), Option.none_or]
        exact hfree fun c hc => hnone c (by simp [hc])
      · by_cases hcap : ∃ s, Captures g b₀.crossings s i
        · obtain ⟨s, hs⟩ := hcap
          obtain rfl := hsrc₀ s hs
          obtain ⟨f₀, -, hlookup⟩ := hnew.lookup_of_captures hsrc₀ hs
          exact ⟨j₀.node, f₀.name, hnode ▸ hne, by rw [hlookup, Option.some_or]⟩
        · rw [hnew.lookup_eq_none fun s hs => hcap ⟨s, hs⟩, Option.none_or]
          obtain ⟨c, hc, hbc, hs⟩ := hlater
          refine htaken ⟨c, ?_, hbc, hs⟩
          rcases List.mem_append.1 hc with hc | hc
          · exact hc
          · exact absurd (List.mem_singleton.1 hc ▸ hs) hcap
    · -- the last boundary: no job before is its own, and no boundary comes after
      obtain rfl := List.mem_singleton.1 hb
      obtain rfl : j₀ = j := by
        simpa [hold.find?_eq_none hlt, List.find?_singleton, hnode] using hj
      obtain ⟨f, hf, hlookup⟩ := hnew.lookup_of_captures hsrc₀ hc
      refine ⟨f, hf, fun _ => by rw [hlookup, Option.some_or, hnode], ?_⟩
      rintro ⟨c, hc, hbc, -⟩
      rcases List.mem_append.1 hc with hc | hc
      · exact absurd (hlt c hc) (by omega)
      · rw [List.mem_singleton.1 hc] at hbc
        exact absurd hbc (by omega)

/-- Every entry comes from a boundary that captures the input for its job. -/
theorem Described.exists_captured {n : NodeId} {name : String} (h : Described g bs js rs)
    (hmem : (i, n, name) ∈ rs) : ∃ b ∈ bs, ∃ j ∈ js, j.node = n ∧ ∃ source f,
      Captures g b.crossings source i ∧ j.field? (.port source) = some f ∧ f.name = name := by
  induction h with
  | nil => exact absurd hmem nofun
  | @add b₀ j₀ bs js new rs _ _ hnew ih =>
    rcases List.mem_append.1 hmem with hmem | hmem
    · obtain ⟨source, f, hc, hf, htarget⟩ := (hnew.mem _ _).1 hmem
      obtain ⟨rfl, rfl⟩ := Prod.mk.inj htarget
      exact ⟨b₀, by simp, j₀, by simp, rfl, source, f, hc, hf, rfl⟩
    · obtain ⟨b, hb, j, hj, hcaptured⟩ := ih hmem
      exact ⟨b, List.mem_append_left _ hb, j, List.mem_append_left _ hj, hcaptured⟩

/-! ## Plans -/

section Plans

variable {p : Plan}

/-- An input has one source, so all boundaries that capture it capture that. -/
theorem Outlined.sourceOf?_of_captures (h : Outlined g p) (hg : g.Invariant) (hb : b ∈ p.boundaries)
    (hc : Captures g b.crossings source i) : g.sourceOf? i = some source := by
  obtain ⟨-, inputs, hs, hi⟩ := hc
  obtain ⟨body, ha⟩ := h.analyzed b hb
  exact Boundary.sourceOf?_of_reads hg (Boundary.reads_of_mem_crossings hg ha hs hi)

/-- A redirected input reads the field that holds its source. -/
theorem Outlined.exists_field {n : NodeId} {name : String} (h : Outlined g p) (hg : g.Invariant)
    (hr : p.redirect? n i = some name) : ∃ j ∈ p.jobs, j.node = n ∧ ∃ source f,
      g.sourceOf? i = some source ∧ j.field? (.port source) = some f ∧ f.name = name := by
  unfold Plan.redirect? at hr
  split at hr
  · rename_i n' name' hlookup
    split at hr
    · rename_i hn
      obtain rfl := hn
      obtain rfl := Option.some.inj hr
      obtain ⟨before, after, hrs, -⟩ := List.lookup_eq_some_iff.1 hlookup
      obtain ⟨b, hb, j, hj, hnode, source, f, hc, hf⟩ :=
        h.described.exists_captured (i := i) (show (i, n', name') ∈ p.redirects by simp [hrs])
      exact ⟨j, hj, hnode, source, f, h.sourceOf?_of_captures hg hb hc, hf⟩
    · exact absurd hr nofun
  · exact absurd hr nofun

/-- Every boundary has a job. -/
theorem Outlined.isSome_job? (h : Outlined g p) (hb : b ∈ p.boundaries) :
    (p.job? b.node).isSome := by
  have hnode : b.node ∈ p.jobs.map Job.node := h.described.nodes_eq ▸ List.mem_map_of_mem hb
  obtain ⟨j, hj, hnode⟩ := List.mem_map.1 hnode
  exact List.find?_isSome.2 ⟨j, hj, by simpa using hnode⟩

/-- No two jobs are made for one node: jobs are made in the order of the boundaries, which
ascends. -/
theorem job?_of_mem (h : Plan.make g = .ok p) (hj : j ∈ p.jobs) : p.job? j.node = some j := by
  have hplan := outlined_make h
  have hnodup : (p.jobs.map Job.node).Nodup := by
    rw [hplan.described.nodes_eq]
    exact List.pairwise_map.2 (hplan.ascending.imp node_ne_of_lt)
  exact find?_of_nodup_map hnodup hj

/-- Every boundary is looked up as its job. -/
theorem map_job? (h : Plan.make g = .ok p) :
    (p.boundaries.map fun b => p.job? b.node) = p.jobs.map some := by
  have hnodes := (outlined_make h).described.nodes_eq
  calc (p.boundaries.map fun b => p.job? b.node)
      = (p.boundaries.map Boundary.node).map p.job? := by rw [List.map_map]; rfl
    _ = p.jobs.map fun j => p.job? j.node := by rw [← hnodes, List.map_map]; rfl
    _ = p.jobs.map some := List.map_congr_left fun j hj => job?_of_mem h hj

/-- A boundary with a higher node has a job that captures the input, too. -/
def CapturedLater (g : Graph) (p : Plan) (b : Boundary) (i : PortRef) : Prop :=
  ∃ c ∈ p.boundaries, b.node.index < c.node.index ∧ (p.job? c.node).isSome ∧
    ∃ s, Captures g c.crossings s i

/-- Where an input reads in a job depends on the later jobs that capture it. -/
theorem Outlined.redirect? (h : Outlined g p) (hg : g.Invariant) (hb : b ∈ p.boundaries)
    (hj : p.job? b.node = some j) (hc : Captures g b.crossings source i) :
    ∃ f, j.field? (.port source) = some f ∧
      (¬CapturedLater g p b i → p.redirect? b.node i = some f.name) ∧
      (CapturedLater g p b i → p.redirect? b.node i = none) := by
  have hsource : ∀ c ∈ p.boundaries, ∀ s, Captures g c.crossings s i → g.sourceOf? i = some s :=
    fun c hc s => h.sourceOf?_of_captures hg hc
  obtain ⟨f, hf, hfree, htaken⟩ := h.described.lookup h.ascending
    (fun c hcb s hs => Option.some.inj ((hsource c hcb s hs).symm.trans
      (hsource b hb source hc))) hb hj hc
  refine ⟨f, hf, fun hlast => ?_, ?_⟩
  · have hnone : ∀ c ∈ p.boundaries, b.node.index < c.node.index →
        ∀ s, ¬Captures g c.crossings s i :=
      fun c hcb hlt s hs => hlast ⟨c, hcb, hlt, h.isSome_job? hcb, s, hs⟩
    simp [Plan.redirect?, hfree hnone]
  · rintro ⟨c, hcp, hlt, -, hs⟩
    obtain ⟨n, name, hne, hlookup⟩ := htaken ⟨c, hcp, hlt, hs⟩
    simp [Plan.redirect?, hlookup, hne]

end Plans

end Planning

/-! ## Reading captured inputs -/

/-- Generation gives an expression with that text, whatever was noted before. -/
def Generation.Yields (m : Generation Expr) (text : String) : Prop :=
  ∀ ledger, ∃ e ledger', m.run.run ledger = (.ok e, ledger') ∧ e.render = text

/-- A captured value is read from its field. -/
theorem Generation.yields_capture (field : String) :
    Generation.Yields (pure (.capture field)) field :=
  fun ledger => ⟨.capture field, ledger, rfl, rfl⟩

namespace Site

open Planning

variable {g : Graph} {p : Plan} {b : Boundary} {j : Job} {source i : PortRef}
  {inputs : List PortRef}

/-- Inputs are redirected in jobs only, to the field that holds their source. -/
theorem exists_field_of_redirect? {scope : Scope} {field : String} (hg : g.Reachable)
    (hp : Plan.make g = .ok p) (hr : redirect? ⟨g, p, scope⟩ i = some field) :
    ∃ j ∈ p.jobs, scope = .job j.node ∧ ∃ source f, g.sourceOf? i = some source ∧
      j.field? (.port source) = some f ∧ f.name = field := by
  cases scope with
  | unit => exact absurd hr nofun
  | function method => exact absurd hr nofun
  | job n =>
    obtain ⟨j, hj, rfl, hfield⟩ := (outlined_make hp).exists_field hg.invariant hr
    exact ⟨j, hj, rfl, hfield⟩

def inJob (g : Graph) (p : Plan) (b : Boundary) : Site := ⟨g, p, .job b.node⟩

def input (s : Site) (access : Access) (i : PortRef) : Generation Expr :=
  s.inputWith s.value access i

/-- What an input reads that `source` feeds, if it is not redirected. -/
def direct (s : Site) (access : Access) (i source : PortRef) : Generation Expr :=
  if s.isUnavailable i then return .unresolved (s.graph.portLabel i) else s.value access source

/-- How a job reads an input that it captures.  The job has a field for the output, and the input
reads that field unless a boundary with a higher node captures the same input for its own job.  Then
the input reads what it would read without a capture, so it has the text of the field only if that
happens to have it. -/
theorem input_of_crossing (hg : g.Reachable) (hp : Plan.make g = .ok p) (hb : b ∈ p.boundaries)
    (hj : p.job? b.node = some j) (hc : (source, inputs) ∈ b.crossings) (hi : i ∈ inputs)
    (hs : ∀ port, g.port? source = some port → isUncapturable g source port = false)
    (access : Access) :
    ∃ f, j.field? (.port source) = some f ∧
      (¬CapturedLater g p b i → (inJob g p b).input access i = pure (.capture f.name)) ∧
      (CapturedLater g p b i →
        (inJob g p b).input access i = (inJob g p b).direct access i source) ∧
      (((inJob g p b).input access i).Yields f.name ↔
        ¬CapturedLater g p b i ∨ ((inJob g p b).direct access i source).Yields f.name) := by
  have hplan := outlined_make hp
  obtain ⟨body, ha⟩ := hplan.analyzed b hb
  have hreads := Boundary.reads_of_mem_crossings hg.invariant ha hc hi
  have hsource := Boundary.sourceOf?_of_reads hg.invariant hreads
  have hcap : Captures g b.crossings source i := by
    obtain ⟨port, hport, -⟩ := hreads.output
    exact ⟨⟨port, hport, hs port hport⟩, inputs, hc, hi⟩
  obtain ⟨f, hf, hfree, htaken⟩ := hplan.redirect? hg.invariant hb hj hcap
  have hown : ¬CapturedLater g p b i →
      (inJob g p b).input access i = pure (.capture f.name) := by
    intro hlast
    have hredirect : (inJob g p b).redirect? i = some f.name := hfree hlast
    simp only [input, inputWith, hredirect]
  have hlost : CapturedLater g p b i →
      (inJob g p b).input access i = (inJob g p b).direct access i source := by
    intro hlater
    have hredirect : (inJob g p b).redirect? i = none := htaken hlater
    have hfeeds : (inJob g p b).graph.sourceOf? i = some source := hsource
    simp only [input, inputWith, direct, hredirect, hfeeds]
  refine ⟨f, hf, hown, hlost, ?_⟩
  by_cases hlater : CapturedLater g p b i
  · simp [hlost hlater, hlater]
  · simp [hown hlater, hlater, Generation.yields_capture]

/-! ## Two jobs with one body -/

namespace Merged

/-- A loop over entities that is scheduled as a job. -/
def each : ForeachSpec :=
  { items := [⟨"a", some ⟨"A", .component⟩, .readOnly⟩], run := .schedule }

/-- Two loops lead to the same body, a local that is set to the time.  The time was read before
them, so that both capture it. -/
def graph : Graph :=
  let now : External := .staticMethod ⟨"Clock", .struct⟩ "Now" [] (some .float)
  Graph.build {} [
    .addNode "Update" (.event .update) ContainerTree.root,
    .addNode "now" (.member (.external now)) ContainerTree.root,
    .addNode "start" (.localVar "start" .float) ContainerTree.root,
    .addNode "First" (.foreach each) ContainerTree.root,
    .addNode "Second" (.foreach each) ContainerTree.root,
    .addNode "seen" (.localVar "seen" .float) ContainerTree.root,
    .connect ⟨0⟩ "exit" ⟨2⟩ "enter", .connect ⟨2⟩ "exit" ⟨3⟩ "enter",
    .connect ⟨3⟩ "exit" ⟨4⟩ "enter", .connect ⟨3⟩ "body" ⟨5⟩ "enter",
    .connect ⟨4⟩ "body" ⟨5⟩ "enter", .connect ⟨1⟩ "Out" ⟨2⟩ "value",
    .connect ⟨1⟩ "Out" ⟨5⟩ "value"]

/-- The time, and the input of the local that reads it in the body. -/
def time : PortRef := ⟨⟨1⟩, 0⟩

def seen : PortRef := ⟨⟨5⟩, 1⟩

def loop (n : NodeId) (before : List NodeId) : Boundary :=
  { node := n, body := ⟨n, 1⟩, before, after := [⟨5⟩], crossings := [(time, [seen])]
    unavailable := [], vars := [], properties := [], functions := [] }

def first : Boundary := loop ⟨3⟩ [⟨0⟩, ⟨1⟩, ⟨2⟩]

def second : Boundary := loop ⟨4⟩ [⟨0⟩, ⟨1⟩, ⟨2⟩, ⟨3⟩]

theorem first_analyze? : Boundary.analyze? graph ⟨3⟩ ⟨⟨3⟩, 1⟩ = some first := by
  cbv

theorem second_analyze? : Boundary.analyze? graph ⟨4⟩ ⟨⟨4⟩, 1⟩ = some second := by
  cbv

def claimed (p : Plan) (n : NodeId) (name : String) (b : Boundary) : Plan :=
  { p with
    symbols := (p.symbols.register (Naming.typeKey n) (Text.typeName (name ++ "Job"))).2
    boundaries := p.boundaries ++ [b] }

/-- Claiming a loop registers its type and keeps its analysis. -/
theorem run_claim_foreach {n : NodeId} {name : String} {body : PortRef} (spec : ForeachSpec)
    (hn : (g.node? n).map (fun node => (node.name, node.kind)) = some (name, .foreach spec))
    (hbody : g.portRef? n PortName.body = some body) (ha : Boundary.analyze? g n body = some b)
    (p : Plan) : (claim g n).run p = .ok ((), claimed p n name b) := by
  obtain ⟨⟨_, _, container, ports⟩, hnode, heq⟩ := Option.map_eq_some_iff.1 hn
  obtain ⟨rfl, rfl⟩ := Prod.mk.inj heq
  have hport : g.portRef n PortName.body = .ok body := by
    unfold Graph.portRef? at hbody
    cases h : g.portRef n PortName.body with
    | error e => simp [h, Except.toOption] at hbody
    | ok r =>
      rw [h] at hbody
      exact congrArg _ (Option.some.inj hbody)
  simp only [claim, Graph.node, hnode, claimBody, hport, ofGraph, pure_bind, ha]
  rfl

def claims : Plan := claimed (claimed (.start graph) ⟨3⟩ "First" first) ⟨4⟩ "Second" second

theorem run_claims :
    ((graph.nodesWith .preInit).forM (claim graph)).run (.start graph) = .ok ((), claims) := by
  have hpre : graph.nodesWith .preInit = [⟨3⟩, ⟨4⟩] := by decide +kernel
  have hfirst : ∀ p, (claim graph ⟨3⟩).run p = .ok ((), claimed p ⟨3⟩ "First" first) :=
    run_claim_foreach each (by decide +kernel) (by decide +kernel) first_analyze?
  have hsecond : ∀ p, (claim graph ⟨4⟩).run p = .ok ((), claimed p ⟨4⟩ "Second" second) :=
    run_claim_foreach each (by decide +kernel) (by decide +kernel) second_analyze?
  rw [hpre]
  exact (run_bind_of_ok (hfirst _)).trans (run_bind_of_ok (hsecond _))

/-- Name what the nodes produce, and describe the two loops. -/
def rest : Planning PUnit := do
  (graph.nodesWith .init).forM (nameNode (rootHandle graph) graph)
  (← get).boundaries.forM (describe (rootHandle graph) graph)

def plan : Plan :=
  match rest.run claims with
  | .ok (_, p) => p
  | .error _ => claims

/-- The rest succeeds and claims nothing more, which is found out in one run. -/
theorem run_rest : (rest.run claims).isOk = true ∧ plan.boundaries = [first, second] := by
  decide +kernel

theorem make_graph : Plan.make graph = .ok plan := by
  have hok := run_rest.1
  have hall : (planAll graph).run (.start graph) = rest.run claims :=
    (run_bind_of_ok (run_declareFunctions graph)).trans (run_bind_of_ok run_claims)
  unfold Plan.make plan
  rw [hall]
  cases hrun : rest.run claims with
  | error e => simp [hrun, Except.isOk, Except.toBool] at hok
  | ok x => rfl

theorem boundaries_plan : plan.boundaries = [first, second] := run_rest.2

theorem isUncapturable_time (port : Port) : isUncapturable graph time port = false := by
  have hkind : (graph.kind? time.node).any NodeKind.isEvent = false := by decide +kernel
  simp [isUncapturable, hkind]

/-- The second loop reads its own field. -/
theorem input_of_crossing_second : Plan.make graph = .ok plan ∧ second ∈ plan.boundaries ∧
    ∃ j f, plan.job? second.node = some j ∧ j.field? (.port time) = some f ∧
      (inJob graph plan second).input .read seen = pure (.capture f.name) := by
  have hmem : second ∈ plan.boundaries := by simp [boundaries_plan]
  obtain ⟨j, hj⟩ : ∃ j, plan.job? second.node = some j :=
    Option.isSome_iff_exists.1 (by decide +kernel)
  have hlast : ¬CapturedLater graph plan second seen := by
    rintro ⟨c, hc, hlt, -⟩
    rw [boundaries_plan] at hc
    rcases List.mem_pair.1 hc with rfl | rfl
    · exact absurd hlt (by decide)
    · exact absurd hlt (by decide)
  obtain ⟨f, hf, hown, -⟩ := input_of_crossing (Graph.reachable_build _ _) make_graph hmem hj
    (List.mem_singleton.2 rfl) (List.mem_singleton.2 rfl) (fun port _ => isUncapturable_time port)
    .read
  exact ⟨make_graph, hmem, j, f, hj, hf, hown hlast⟩

/-- The first loop captures the time in its field `now`, and asks the clock again instead. -/
theorem input_first_ne_field : ∃ j f, graph.Reachable ∧ Plan.make graph = .ok plan ∧
    first ∈ plan.boundaries ∧ plan.job? first.node = some j ∧
    (time, [seen]) ∈ first.crossings ∧
    (∀ port, graph.port? time = some port → isUncapturable graph time port = false) ∧
    j.field? (.port time) = some f ∧ f.name = "now" ∧
    ¬((inJob graph plan first).input .read seen).Yields f.name := by
  have hfield : ((plan.job? first.node).bind fun j =>
      (j.field? (.port time)).map CaptureField.name) = some "now" := by decide +kernel
  have htext : (((inJob graph plan first).input .read seen).run.run (.ofPlan plan)).1.toOption.map
      Expr.render = some "Clock.Now()" := by decide +kernel
  obtain ⟨j, hj, hname⟩ := Option.bind_eq_some_iff.1 hfield
  obtain ⟨f, hf, hname⟩ := Option.map_eq_some_iff.1 hname
  refine ⟨j, f, Graph.reachable_build _ _, make_graph, by simp [boundaries_plan], hj,
    List.mem_singleton.2 rfl, fun port _ => isUncapturable_time port, hf, hname,
    fun hyields => ?_⟩
  obtain ⟨e, ledger, hrun, hrender⟩ := hyields (.ofPlan plan)
  rw [hrun] at htext
  have htext : e.render = "Clock.Now()" := Option.some.inj htext
  rw [hrender, hname] at htext
  exact absurd htext (by decide)

end Merged

end Site

end EntityFlow
