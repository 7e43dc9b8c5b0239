import EntityFlow.Proofs.Boundary.Members
import EntityFlow.Proofs.Generation.Drafts
import EntityFlow.Proofs.Generation.Entities
import EntityFlow.Proofs.Planning.Boundaries
import EntityFlow.Proofs.Planning.Redirects

/-!
# Assignments to copies

A job holds copies: of outputs that cross its boundary, and of variables and properties of the unit.
What an assignment in the job writes to a copy is lost, and such an assignment is reported.  What is
looked at is the output that feeds the target.  An assignment to a field of a copy writes to the
copy as well, but its target is fed by the output that stands for the field, and it goes unreported.
-/

namespace EntityFlow

/-- A field or a property of an outside type, as opposed to a method. -/
def ExternalUse.isAccess : ExternalUse → Bool
  | .field _ _ | .property _ _ => true
  | .method _ _ => false

namespace Graph

/-- The output `source` is behind an input: it feeds the input, or what feeds the input is reached
from it through `k` fields or properties of outside types. -/
inductive Underlies (g : Graph) : ℕ → PortRef → PortRef → Prop
  | direct {input source : PortRef} (h : g.sourceOf? input = some source) :
      Underlies g 0 input source
  | access {k : ℕ} {input output receiver source : PortRef} {e : External}
      (h : g.sourceOf? input = some output) (he : g.target? output.node = some (.external e))
      (haccess : e.use.isAccess = true)
      (hreceiver : g.portRef? output.node PortName.self = some receiver)
      (hrest : Underlies g k receiver source) : Underlies g (k + 1) input source

/-- The node assigns to `source`, through `k` fields or properties of outside types. -/
def Assigns (g : Graph) (k : ℕ) (n : NodeId) (source : PortRef) : Prop :=
  g.kind? n = some .setValue ∧
    ∃ target, g.portRef? n PortName.target = some target ∧ g.Underlies k target source

def Accesses (g : Graph) (n : NodeId) (m : MemberId) : Prop :=
  g.target? n = some (.variable m) ∨ g.target? n = some (.property m)

end Graph

namespace Planning

variable {g : Graph} {p q : Plan} {b : Boundary} {j j' : Job} {n : NodeId} {ns : List NodeId}
  {source target : PortRef} {t : SymbolTable} {m : MemberId} {name : String}

/-- What the output gives is held by the job as a copy: the output itself, or the member it stands
for. -/
def HoldsCopy (g : Graph) (b : Boundary) (j : Job) (source : PortRef) : Prop :=
  (∃ f, j.field? (.port source) = some f) ∨
    ∃ m, g.Accesses source.node m ∧ (m ∈ b.vars ∨ m ∈ b.properties)

/-- The name of such a copy. -/
inductive CopyName (g : Graph) (p : Plan) (b : Boundary) (j : Job) (source : PortRef) :
    String → Prop
  | crossing {f : CaptureField} (hf : j.field? (.port source) = some f) :
      CopyName g p b j source f.name
  | member {m : MemberId} {name : String} (hn : g.Accesses source.node m)
      (hm : m ∈ b.vars ∨ m ∈ b.properties) (hname : p.symbols.get? (.member m) = some name) :
      CopyName g p b j source name

/-! ## What an assignment is found to write to -/

section Target

variable (htarget : g.portRef? n PortName.target = some target)
  (hsource : g.sourceOf? target = some source)

include htarget hsource

/-- A target whose source crosses is captured by the field for the source. -/
theorem capturedTarget?_of_field {f : CaptureField}
    (hcross : ∃ inputs, (source, inputs) ∈ b.crossings)
    (hf : j.field? (.port source) = some f) : capturedTarget? g t b j n = some f.name := by
  obtain ⟨inputs, hmem⟩ := hcross
  simp only [capturedTarget?, htarget, hsource, Option.bind_eq_bind, Option.bind_some]
  split
  · rw [hf, Option.map_some]
  · rename_i hnone
    exact absurd (List.any_eq_true.2 ⟨_, hmem, by simp⟩) hnone

/-- A target that is a member of the job is captured by the name of the member. -/
theorem capturedTarget?_of_member (hcross : ∀ inputs, (source, inputs) ∉ b.crossings)
    (hn : g.Accesses source.node m) (hm : m ∈ b.vars ∨ m ∈ b.properties)
    (hname : t.get? (.member m) = some name) : capturedTarget? g t b j n = some name := by
  have hheld : (b.vars.contains m || b.properties.contains m) = true := by simpa using hm
  simp only [capturedTarget?, htarget, hsource, Option.bind_eq_bind, Option.bind_some]
  split
  · rename_i hany
    obtain ⟨⟨s, inputs⟩, hmem, hs⟩ := List.any_eq_true.1 hany
    obtain rfl : s = source := by simpa using hs
    exact absurd hmem (hcross inputs)
  · rcases hn with hn | hn
    · simp only [hn, Option.bind_some, hheld, if_true, hname]
    · simp only [hn, Option.bind_some, hheld, if_true, hname]

end Target

/-- The members that a boundary refers to have names. -/
def NamesMembers (b : Boundary) (t : SymbolTable) : Prop :=
  ∀ m, m ∈ b.vars ∨ m ∈ b.properties → ∃ name, t.get? (.member m) = some name

/-- Named members stay named. -/
theorem NamesMembers.extends (h : NamesMembers b p.symbols) (hpq : Extends p q) :
    NamesMembers b q.symbols :=
  fun m hm => (h m hm).imp fun _ hname => hpq.1.keeps _ _ hname

/-- The answer stays the same once members are named and outputs captured. -/
theorem capturedTarget?_extends (h : NamesMembers b p.symbols) (hpq : Extends p q)
    (hj : j.SameCaptures j') :
    capturedTarget? g q.symbols b j' n = capturedTarget? g p.symbols b j n := by
  have hmember : ∀ m,
    (if b.vars.contains m || b.properties.contains m then q.symbols.get? (.member m)
      else none) = if b.vars.contains m || b.properties.contains m then p.symbols.get? (.member m)
      else none := by
    intro m
    split
    · rename_i hm
      obtain ⟨name, hname⟩ := h m (by simpa using hm)
      rw [hname, hpq.1.keeps _ _ hname]
    · rfl
  simp only [capturedTarget?, hj.field, hmember]

/-! ## Looking at the nodes of a job -/

/-- The assignments among nodes `ns` that were found to write to a copy are reported. -/
structure Audited (g : Graph) (b : Boundary) (ns : List NodeId) (j : Job) (p : Plan) : Prop where
  named : NamesMembers b p.symbols
  reported : ∀ n ∈ ns, g.kind? n = some .setValue → ∀ name,
    capturedTarget? g p.symbols b j n = some name → .atNode n (.writeToCapture name) ∈ p.diagnostics

theorem Audited.nil (h : NamesMembers b p.symbols) : Audited g b [] j p := ⟨h, nofun⟩

/-- What was reported stays reported while the job holds the same copies. -/
theorem Audited.extends (h : Audited g b ns j p) (hpq : Extends p q) (hj : j.SameCaptures j') :
    Audited g b ns j' q where
  named := h.named.extends hpq
  reported n hn hkind name hname := by
    rw [capturedTarget?_extends h.named hpq hj] at hname
    exact hpq.2 (h.reported n hn hkind name hname)

/-- Inspecting an assignment to something captured reports it. -/
theorem ensures_inspect_reported (g : Graph) (b : Boundary) (j : Job) (n : NodeId) :
    Ensures p (inspect g b j n) fun _ q => g.kind? n = some .setValue → ∀ name,
      capturedTarget? g p.symbols b j n = some name →
        .atNode n (.writeToCapture name) ∈ q.diagnostics := by
  unfold inspect
  split
  · rename_i hn
    exact fun _ _ _ hkind => absurd (hn.symm.trans hkind) (by simp)
  · refine ensures_bind.2 (ensures_get.2 ?_)
    split
    · rename_i name hname
      refine ensures_bind.2 (ensures_modify.2 (ensures_pure.2 fun _ name' hname' => ?_))
      obtain rfl : name = name' := Option.some.inj (hname.symm.trans hname')
      simp [Diagnostic.atNode]
    · rename_i hnone
      exact ensures_pure.2 fun _ name hname => absurd (hnone.symm.trans hname) (by simp)
  · rename_i hn
    exact ensures_pure.2 fun hkind => absurd hkind hn

/-- Inspecting one more node audits it. -/
theorem Audited.ensures_inspect (h : Audited g b ns j p) (n : NodeId) :
    Ensures p (inspect g b j n) fun j' q => Audited g b (ns ++ [n]) j' q := by
  refine ((retains_inspect b n p).and (((lasting_extends g).moves_inspect b j n p).and
    (ensures_inspect_reported g b j n))).mono fun j' q hq => ?_
  obtain ⟨⟨-, hj⟩, hpq, hreported⟩ := hq
  have hold := h.extends hpq hj
  refine ⟨hold.named, List.forall_mem_append.2 ⟨hold.reported, List.forall_mem_singleton.2 ?_⟩⟩
  intro hkind name hname
  rw [capturedTarget?_extends h.named hpq hj] at hname
  exact hreported hkind name hname

theorem equips_audited : Equips g b (Audited g b) where
  jobVariable j q i v _ h := ((lasting_extends g).moves_addVariable j i v q).mono fun _ _ hqr =>
    .nil (h.named.extends hqr)
  crossing j q source inputs _ h := ((lasting_extends g).moves_addCrossing j source inputs q).mono
    fun _ _ hqr => .nil (h.named.extends hqr)
  unavailable _ q input _ h := ((lasting_extends g).moves_giveUp input ⟨_, .inr rfl⟩ q).mono
    fun _ _ hqr => .nil (h.named.extends hqr)
  member _ _ _ _ h := .nil h.named
  property _ _ _ _ h := .nil h.named
  node _ _ _ n h := h.ensures_inspect n

/-- Of a job that is equipped, all nodes of the body are audited. -/
theorem ensures_equip_audited {bare : Job} (h : NamesMembers b p.symbols) :
    Ensures p (equip (rootHandle g) g b bare) (Audited g b (generatedNodes g b)) := by
  refine equips_audited.ensures_equip (.nil h) (fun j q hj _ => ?_) fun _ _ hj _ => hj
  refine ((retains_addCommandBuffer q).and ((lasting_extends g).moves_addCommandBuffer j q)).mono ?_
  exact fun j' r hr => hj.extends hr.2 hr.1.2

/-! ## Jobs of a plan -/

def MembersNamed (g : Graph) (p : Plan) : Prop :=
  ∀ m x, g.member? m = some x → ∃ name, p.symbols.get? (.member m) = some name

theorem membersNamed_of_prepared (h : Prepared g p) : MembersNamed g p := by
  intro m x hm
  obtain ⟨q, hclaim, hname⟩ := h
  have hl := lasting_extends g
  have hclaims := hl.moves_forM hl.moves_claim _ _ q hclaim
  have hnames := hl.moves_forM (fun n => hl.moves_nameNode n hl.manager) q _ p hname
  obtain ⟨name, hbound⟩ := Naming.exists_memberSymbol hm
  exact ⟨name, (hl.trans hclaims hnames).1.keeps _ _ hbound⟩

/-- The nodes of the boundary that a job serves were looked at. -/
theorem exists_audited (hg : g.Reachable) (hp : Plan.make g = .ok p) (hj : j ∈ p.jobs) :
    ∃ b ∈ p.boundaries, Serves b j ∧ Audited g b (generatedNodes g b) j p ∧
      Boundary.analyze? g b.node b.body = some b := by
  -- that the members exist is known only of boundaries that come from an analysis
  have hequip : ∀ b q bare, MembersNamed g q → bareJob g q.symbols b = .ok bare →
      Ensures q (equip (rootHandle g) g b bare) fun j r => Serves b j ∧
        ((∀ m, m ∈ b.vars ∨ m ∈ b.properties → ∃ x, g.member? m = some x) →
          Audited g b (generatedNodes g b) j r) := by
    intro b q bare hnamed hbare
    refine (serves_bareJob hbare).ensures_equip.and fun j r hrun hmembers => ?_
    refine ensures_equip_audited (fun m hm => ?_) j r hrun
    obtain ⟨x, hx⟩ := hmembers m hm
    exact hnamed m x hx
  obtain ⟨b, hb, ⟨hserves, haudited⟩, -, ha⟩ := exists_boundary (lasting_extends g)
    (I := MembersNamed g) (P := fun p b j => Serves b j ∧
      ((∀ m, m ∈ b.vars ∨ m ∈ b.properties → ∃ x, g.member? m = some x) →
        Audited g b (generatedNodes g b) j p))
    (fun p q hpq hI m x hm => (hI m x hm).imp fun _ hname => hpq.1.keeps _ _ hname)
    (fun p q b j hpq hP => ⟨hP.1, fun hmembers => (hP.2 hmembers).extends hpq (.refl j)⟩)
    (fun r => membersNamed_of_prepared) hequip hp hj
  refine ⟨b, hb, hserves, haudited fun m hm => ?_, ha⟩
  rcases hm with hm | hm
  · obtain ⟨v, hv⟩ := Boundary.exists_variable_of_mem hg.invariant ha hm
    exact ⟨_, hv⟩
  · obtain ⟨x, hx⟩ := Boundary.exists_property_of_mem ha hm
    exact ⟨_, hx⟩

/-- Every job has the redirects of its own crossings. -/
theorem Described.exists_redirected {bs : List Boundary} {js : List Job}
    {rs : List (PortRef × NodeId × String)} (h : Described g bs js rs) (hj : j ∈ js) :
    ∃ b ∈ bs, j.node = b.node ∧ ∃ new, Redirected g b.crossings j new := by
  induction h with
  | nil => cases hj
  | @add b₀ j₀ bs js new rs _ hnode hnew ih =>
    rcases List.mem_append.1 hj with hold | hlast
    · obtain ⟨b, hb, hrest⟩ := ih hold
      exact ⟨b, List.mem_append_left _ hb, hrest⟩
    · obtain rfl := List.mem_singleton.1 hlast
      exact ⟨b₀, by simp, hnode, new, hnew⟩

/-- The fields for outputs are those for crossings of the boundary that the job serves. -/
theorem Outlined.redirected (h : Outlined g p) (hj : j ∈ p.jobs) (hb : b ∈ p.boundaries)
    (hnode : j.node = b.node) : ∃ rs, Redirected g b.crossings j rs := by
  obtain ⟨c, hc, hjc, hred⟩ := h.described.exists_redirected hj
  have hnodup : (p.boundaries.map Boundary.node).Nodup :=
    List.pairwise_map.2 (h.ascending.imp node_ne_of_lt)
  rwa [← List.inj_on_of_nodup_map hnodup hc hb (hjc.symm.trans hnode)]

/-- What a member is read from can be captured. -/
theorem isCapturable_of_accesses (hg : g.Reachable) (hsource : g.sourceOf? target = some source)
    (hn : g.Accesses source.node m) : IsCapturable g source := by
  obtain ⟨e, he, rfl, -⟩ := hg.invariant.anchored.mem_sourcesOf.1
    (Graph.mem_sourcesOf_of_sourceOf? hsource)
  obtain ⟨port, -, hport, -⟩ := hg.invariant.joins_of_mem he
  have hkind : (g.kind? e.source.node).any NodeKind.isEvent = false := by
    rcases hn with hn | hn
    · rw [Graph.target?_eq_some.1 hn]
      rfl
    · rw [Graph.target?_eq_some.1 hn]
      rfl
  exact ⟨port, hport, by simp [isUncapturable, hkind]⟩

/-- Direct assignments to copies are reported under the name of the copy. -/
theorem exists_writeToCapture (hg : g.Reachable) (hp : Plan.make g = .ok p) (hj : j ∈ p.jobs) :
    ∃ b ∈ p.boundaries, Serves b j ∧ Boundary.analyze? g b.node b.body = some b ∧
      ∀ n source, b.Covers g n → g.Assigns 0 n source → HoldsCopy g b j source →
        ∃ name, CopyName g p b j source name ∧
        .atNode n (.writeToCapture name) ∈ p.diagnostics := by
  obtain ⟨b, hb, hserves, haudited, ha⟩ := exists_audited hg hp hj
  obtain ⟨rs, hred⟩ := (outlined_make hp).redirected hj hb hserves.node
  refine ⟨b, hb, hserves, ha, ?_⟩
  rintro n source hcovers ⟨hkind, target, htarget, ⟨hsource⟩⟩ hcopy
  have hreported := haudited.reported n ((mem_generatedNodes hkind).2 hcovers) hkind
  by_cases hfield : ∃ f, j.field? (.port source) = some f
  · obtain ⟨f, hf⟩ := hfield
    have hcross := ((hred.field source).1 ⟨f, hf⟩).2
    exact ⟨f.name, .crossing hf, hreported _ (capturedTarget?_of_field htarget hsource hcross hf)⟩
  · obtain ⟨m, hn, hm⟩ := hcopy.resolve_left hfield
    obtain ⟨name, hname⟩ := haudited.named m hm
    -- a member that crossed the boundary would have a field
    have hcross : ∀ inputs, (source, inputs) ∉ b.crossings := fun inputs hmem =>
      hfield ((hred.field source).2 ⟨isCapturable_of_accesses hg hsource hn, inputs, hmem⟩)
    exact ⟨name, .member hn hm hname,
      hreported name (capturedTarget?_of_member htarget hsource hcross hn hm hname)⟩

/-- Of every unit that is made: where a job holds a copy of what feeds the target of an assignment
in its boundary, be it a value that crosses the boundary or a member of the unit, the assignment is
reported as an error, under the name of the copy. -/
theorem compile_reports_writes {options : Options} {u : CompiledUnit} (hg : g.Reachable)
    (hu : g.compile options = .ok u) : ∃ a, g.assemble options = .ok a ∧
      ∀ j ∈ a.plan.jobs, ∃ b ∈ a.plan.boundaries, Serves b j ∧
        Boundary.analyze? g b.node b.body = some b ∧
        ∀ n source, b.Covers g n → g.Assigns 0 n source → HoldsCopy g b j source →
          ∃ name, CopyName g a.plan b j source name ∧
            ⟨.error, .node n, .writeToCapture name⟩ ∈ u.diagnostics := by
  obtain ⟨a, ha, -, hdiagnostics⟩ := Graph.compile_eq_ok hu
  obtain ⟨-, hp, -⟩ := Graph.assemble_eq_ok ha
  refine ⟨a, ha, fun j hj => ?_⟩
  obtain ⟨b, hb, hserves, hanalyzed, hwrites⟩ := exists_writeToCapture hg hp hj
  refine ⟨b, hb, hserves, hanalyzed, fun n source hcovers hassigns hcopy => ?_⟩
  obtain ⟨name, hname, hmem⟩ := hwrites n source hcovers hassigns hcopy
  refine ⟨name, hname, ?_⟩
  rw [hdiagnostics, Assembly.diagnostics]
  exact List.mem_append_right _ ((Graph.ofPlan_le ha).diagnostics hmem)

/-! ## A write that is reported, and one that is not -/

namespace Lossy

open Site.Merged (claimed each run_claim_foreach)

def float3 : TypeRef := ⟨"float3", .struct⟩

/-- A job sets a field of a variable of the unit, and then the variable. -/
def graph : Graph := Graph.build {} [
  .addVariable { name := "position", type := float3 },
  .addNode "Update" (.event .update) ContainerTree.root,
  .addNode "Each" (.foreach each) ContainerTree.root,
  .addNode "Move" .setValue ContainerTree.root,
  .addNode "x" (.member (.external (.instanceField float3 "x" .float))) ContainerTree.root,
  .addNode "position" (.member (.variable ⟨0⟩)) ContainerTree.root,
  .addNode "Five" (.literal (.int 5)) ContainerTree.root,
  .addNode "Reset" .setValue ContainerTree.root,
  .addNode "Origin" (.literal (.default float3)) ContainerTree.root,
  .connect ⟨0⟩ "exit" ⟨1⟩ "enter", .connect ⟨1⟩ "body" ⟨2⟩ "enter", .connect ⟨2⟩ "exit" ⟨6⟩ "enter",
  .connect ⟨4⟩ "Out" ⟨3⟩ "instance", .connect ⟨3⟩ "Out" ⟨2⟩ "target",
  .connect ⟨5⟩ "Out" ⟨2⟩ "value",
  .connect ⟨4⟩ "Out" ⟨6⟩ "target", .connect ⟨7⟩ "Out" ⟨6⟩ "value"]

def position : PortRef := ⟨⟨4⟩, 0⟩

def loop : Boundary :=
  { node := ⟨1⟩, body := ⟨⟨1⟩, 1⟩, before := [⟨0⟩], after := [⟨2⟩, ⟨3⟩, ⟨4⟩, ⟨5⟩, ⟨6⟩, ⟨7⟩]
    crossings := [], unavailable := [], vars := [⟨0⟩], properties := [], functions := [] }

/-- The loop, analyzed. -/
theorem loop_analyze? : Boundary.analyze? graph ⟨1⟩ ⟨⟨1⟩, 1⟩ = some loop := by cbv

def claims : Plan := claimed (.start graph) ⟨1⟩ "Each" loop

theorem run_claims :
    ((graph.nodesWith .preInit).forM (claim graph)).run (.start graph) = .ok ((), claims) := by
  have hpre : graph.nodesWith .preInit = [⟨1⟩] := by decide +kernel
  have hclaim : (claim graph ⟨1⟩).run (.start graph) = .ok ((), claims) :=
    run_claim_foreach each (by decide +kernel) (by decide +kernel) loop_analyze? _
  rw [hpre]
  exact run_bind_of_ok hclaim

/-- Name what the nodes produce, and describe the loop. -/
def rest : Planning PUnit := do
  (graph.nodesWith .init).forM (nameNode (rootHandle graph) graph)
  (← get).boundaries.forM (describe (rootHandle graph) graph)

def reset : Diagnostic := ⟨.error, .node ⟨6⟩, .writeToCapture "position"⟩

/-- The loop becomes a job, and the second assignment is all that is reported. -/
def isLossy (p : Plan) : Bool :=
  p.boundaries = [loop] && !p.jobs.isEmpty &&
    ((Draft.generate graph p).run.run (.ofPlan p)).1.isOk &&
    ((Draft.generate graph p).run.run (.ofPlan p)).2.diagnostics = [reset]

/-- There is a plan, with one job and one report. -/
theorem exists_plan : ∃ p, Plan.make graph = .ok p ∧ isLossy p = true := by
  obtain ⟨⟨_, p⟩, hrun, hp⟩ := exists_ok_of_any (x := rest.run claims) (c := fun x => isLossy x.2)
    (by decide +kernel)
  have hall : (planAll graph).run (.start graph) = rest.run claims :=
    (run_bind_of_ok (run_declareFunctions graph)).trans (run_bind_of_ok run_claims)
  refine ⟨p, ?_, hp⟩
  rw [Plan.make, hall, hrun]
  rfl

/-- The unit is made, and only the second assignment is reported. -/
theorem exists_unit : ∃ u a, graph.compile {} = .ok u ∧ graph.assemble {} = .ok a ∧
    a.plan.boundaries = [loop] ∧ (∃ j, j ∈ a.plan.jobs) ∧ u.diagnostics = [reset] := by
  have hcheck : graph.check = [] := by decide +kernel
  obtain ⟨p, hp, hlossy⟩ := exists_plan
  simp only [isLossy, Bool.and_eq_true, decide_eq_true_eq] at hlossy
  obtain ⟨⟨⟨hboundaries, hjobs⟩, hok⟩, hdiagnostics⟩ := hlossy
  rcases hrun : (Draft.generate graph p).run.run (.ofPlan p) with ⟨e | draft, ledger⟩
  · rw [hrun] at hok
    cases hok
  · have ha : graph.assemble {} = .ok ⟨graph, {}, p, draft, ledger⟩ := by
      unfold Graph.assemble
      simp only [hp, bind, Except.bind, hrun, pure, Except.pure]
    obtain ⟨u, hu⟩ : ∃ u, graph.compile {} = .ok u := by
      rw [Graph.compile_eq, ha]
      exact ⟨_, rfl⟩
    obtain ⟨a, ha', -, hreported⟩ := Graph.compile_eq_ok hu
    obtain rfl := Except.ok.inj (ha.symm.trans ha')
    rw [hrun] at hdiagnostics
    refine ⟨u, _, hu, ha, hboundaries, List.exists_mem_of_ne_nil p.jobs (by simpa using hjobs), ?_⟩
    rw [hreported, hcheck, List.nil_append]
    exact hdiagnostics

theorem covers {n : NodeId} (hn : n ∈ loop.after) : loop.Covers graph n := .inl hn

/-- The job of the loop holds a copy of the position. -/
theorem holdsCopy (j : Job) : HoldsCopy graph loop j position :=
  .inr ⟨⟨0⟩, .inl (by decide +kernel), .inl (by decide)⟩

/-- The second assignment writes to the variable, and is reported. -/
theorem compile_reports_writes_reset : ∃ u a, graph.compile {} = .ok u ∧ graph.assemble {} = .ok a ∧
    ∃ j ∈ a.plan.jobs, ∃ b ∈ a.plan.boundaries, Serves b j ∧ b.Covers graph ⟨6⟩ ∧
      graph.Assigns 0 ⟨6⟩ position ∧ HoldsCopy graph b j position ∧
      ∃ name, CopyName graph a.plan b j position name ∧
        ⟨.error, .node ⟨6⟩, .writeToCapture name⟩ ∈ u.diagnostics := by
  obtain ⟨u, a, hu, ha, hboundaries, ⟨j, hj⟩, -⟩ := exists_unit
  have hassigns : graph.Assigns 0 ⟨6⟩ position :=
    ⟨by decide +kernel, ⟨⟨6⟩, 1⟩, by decide +kernel, .direct (by decide +kernel)⟩
  obtain ⟨a', ha', hall⟩ := compile_reports_writes (Graph.reachable_build _ _) hu
  obtain rfl : a = a' := Except.ok.inj (ha.symm.trans ha')
  obtain ⟨b, hb, hserves, -, hwrites⟩ := hall j hj
  obtain rfl : b = loop := by simpa [hboundaries] using hb
  have hcovers := covers (n := ⟨6⟩) (by decide)
  exact ⟨u, a, hu, ha, j, hj, loop, hb, hserves, hcovers, hassigns, holdsCopy j,
    hwrites _ _ hcovers hassigns (holdsCopy j)⟩

/-- The first assignment writes to a field of the variable, and is not reported. -/
theorem write_through_field_unreported : graph.Reachable ∧ graph.settings.flavor.isSystem = true ∧
    ∃ u a, graph.compile {} = .ok u ∧ graph.assemble {} = .ok a ∧
      ∃ j ∈ a.plan.jobs, ∃ b ∈ a.plan.boundaries, Serves b j ∧ b.Covers graph ⟨2⟩ ∧
        graph.Assigns 1 ⟨2⟩ position ∧ HoldsCopy graph b j position ∧
        ∀ name, ⟨.error, .node ⟨2⟩, .writeToCapture name⟩ ∉ u.diagnostics := by
  obtain ⟨u, a, hu, ha, hboundaries, ⟨j, hj⟩, hdiagnostics⟩ := exists_unit
  have hfield : graph.sourceOf? ⟨⟨2⟩, 1⟩ = some ⟨⟨3⟩, 1⟩ := by decide +kernel
  have hreceiver : graph.portRef? ⟨3⟩ PortName.self = some ⟨⟨3⟩, 0⟩ := by decide +kernel
  have hassigns : graph.Assigns 1 ⟨2⟩ position :=
    ⟨by decide +kernel, ⟨⟨2⟩, 1⟩, by decide +kernel,
      .access (e := .instanceField float3 "x" .float) hfield (by decide +kernel) rfl hreceiver
        (.direct (by decide +kernel))⟩
  obtain ⟨-, hp, -⟩ := Graph.assemble_eq_ok ha
  obtain ⟨b, hb, hserves, -⟩ := exists_serves hp hj
  obtain rfl : b = loop := by simpa [hboundaries] using hb
  refine ⟨Graph.reachable_build _ _, by decide +kernel, u, a, hu, ha, j, hj, loop, hb, hserves,
    covers (by decide), hassigns, holdsCopy j, fun name hmem => ?_⟩
  rw [hdiagnostics, List.mem_singleton] at hmem
  cases hmem

end Lossy

end Planning

end EntityFlow
