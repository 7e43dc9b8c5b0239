import EntityFlow.Proofs.Graph.Capabilities
import EntityFlow.Proofs.Planning.Holdings

/-!
# Which boundaries become jobs

A boundary is claimed if a connection leaves its body port, and reported if none does.  Every
boundary that was claimed is described.  Thus the jobs of a plan are those of the boundaries with a
body, in the order of their nodes.
-/

namespace EntityFlow

/-- The flow output that the body of a job hangs from. -/
def NodeKind.bodyPort? : NodeKind → Option String
  | .foreach _ => some PortName.body
  | .jobEntity _ | .jobChunk _ => some PortName.execute
  | _ => none

namespace Graph

variable {g : Graph} {n : NodeId}

def body? (g : Graph) (n : NodeId) : Option PortRef :=
  ((g.kind? n).bind NodeKind.bodyPort?).bind (g.portRef? n)

def hasBody (g : Graph) (n : NodeId) : Bool := g.live.any fun e => g.body? n = some e.source

/-- A node has no body exactly if nothing is connected to its body port. -/
theorem hasBody_eq_false_iff {body : PortRef} (h : g.body? n = some body) :
    g.hasBody n = false ↔ ∀ e ∈ g.live, e.source ≠ body := by
  simp only [hasBody, h, List.any_eq_false, decide_eq_true_eq, Option.some.injEq]
  exact forall₂_congr fun e _ => ne_comm

/-- The nodes that claim a body are those with the body of a job. -/
theorem nodesWith_preInit (g : Graph) : g.nodesWith .preInit = g.nodesWith .boundary := by
  refine List.filter_congr fun n _ => ?_
  unfold capabilities
  cases g.kind? n with
  | none => rfl
  | some kind =>
    cases kind <;> simp only [Option.map_some, Option.getD_some, kindCapabilities]
    case member target => split <;> rfl
    case «foreach» spec => split <;> rfl
    all_goals rfl

/-- A boundary has a body port. -/
theorem exists_bodyPort (h : n ∈ g.nodesWith .boundary) : ∃ node port, g.node? n = some node ∧
    node.kind.bodyPort? = some port := by
  obtain ⟨node, hn⟩ := Planning.exists_node_of_mem_nodesWith h
  have hcapable : Capability.boundary ∈ g.kindCapabilities node.kind := by
    simpa [capabilities, kind?, hn] using (List.mem_filter.1 h).2
  refine ⟨node, ?_⟩
  rcases boundary_mem_kindCapabilities.1 hcapable with
    ⟨spec, hkind, -⟩ | ⟨spec, hkind⟩ | ⟨spec, hkind⟩
  · exact ⟨PortName.body, hn, by rw [hkind]; rfl⟩
  · exact ⟨PortName.execute, hn, by rw [hkind]; rfl⟩
  · exact ⟨PortName.execute, hn, by rw [hkind]; rfl⟩

end Graph

def Diagnostic.bodyless (n : NodeId) : Diagnostic :=
  .of (.node n) (.nestedUnitFailed (CompileError.missingBoundaryBody n).message)

namespace Planning

open Naming

variable {g : Graph} {n : NodeId} {node : Node} {p q : Plan} {b : Boundary} {port : String}

/-! ## Claiming -/

/-- Claiming a boundary takes a type name and then looks at the body. -/
theorem claim_eq (hn : g.node? n = some node) (hport : node.kind.bodyPort? = some port) :
    ∃ hint, claim g n = register (typeKey n) hint >>= fun _ => claimBody g n port := by
  have hnode : g.node n = .ok node := Graph.node_eq_ok.2 hn
  unfold claim
  rw [hnode, ofGraph, pure_bind]
  cases hkind : node.kind <;> rw [hkind] at hport <;> cases hport <;> exact ⟨_, rfl⟩

/-- Each of the nodes was claimed or reported. -/
structure Surveyed (g : Graph) (ns : List NodeId) (p : Plan) : Prop where
  boundaries : p.boundaries.map Boundary.node = ns.filter g.hasBody
  bodies : ∀ b ∈ p.boundaries, g.body? b.node = some b.body
  reported : ∀ n ∈ ns, g.hasBody n = false → .bodyless n ∈ p.diagnostics

/-- Plans that keep the names and the diagnostics of another one. -/
def Extends (p q : Plan) : Prop := p.symbols.Grows q.symbols ∧ p.diagnostics ⊆ q.diagnostics

/-- Every step extends the plan. -/
theorem lasting_extends (g : Graph) : Lasting g Extends where
  refl _ := ⟨.refl _, List.Subset.refl _⟩
  trans h h' := ⟨h.1.trans h'.1, List.Subset.trans h.2 h'.2⟩
  symbols_register p key hint := ⟨(lasting_grows g).symbols_register p key hint, List.Subset.refl _⟩
  symbols_fresh p hint := ⟨(lasting_grows g).symbols_fresh p hint, List.Subset.refl _⟩
  diagnostics _ _ _ _ := ⟨.refl _, List.subset_append_left _ _⟩
  bindings _ _ _ _ := ⟨.refl _, List.Subset.refl _⟩
  handles _ _ _ _ _ := ⟨.refl _, List.Subset.refl _⟩
  times _ _ _ := ⟨.refl _, List.Subset.refl _⟩
  unavailable _ _ _ := ⟨.refl _, List.Subset.refl _⟩
  manager _ _ _ _ _ := ⟨.refl _, List.Subset.refl _⟩
  boundaries _ _ := ⟨.refl _, List.Subset.refl _⟩
  redirects _ _ := ⟨.refl _, List.Subset.refl _⟩
  usings _ _ := ⟨.refl _, List.Subset.refl _⟩
  jobs _ _ := ⟨.refl _, List.Subset.refl _⟩

/-- A survey stays true while the plan is extended. -/
theorem Surveyed.mono {ns : List NodeId} (h : Surveyed g ns p) (hpq : Extends p q)
    (hboundaries : q.boundaries = p.boundaries) : Surveyed g ns q where
  boundaries := hboundaries ▸ h.boundaries
  bodies := hboundaries ▸ h.bodies
  reported n hn hbody := hpq.2 (h.reported n hn hbody)

/-- Claiming one more body extends the survey. -/
theorem Surveyed.ensures_claimBody {ns : List NodeId} (h : Surveyed g ns p) (hg : g.Reachable)
    (hn : g.node? n = some node) (hport : node.kind.bodyPort? = some port) :
    Ensures p (claimBody g n port) fun _ => Surveyed g (ns ++ [n]) := by
  refine ensures_bind.2 (ensures_ofGraph.2 fun body hbody => ?_)
  have hbody? : g.body? n = some body := by
    simp [Graph.body?, Graph.kind?, hn, hport, Graph.portRef?, hbody, Except.toOption]
  have hnone : Boundary.analyze? g n body = none ↔ g.hasBody n = false := by
    rw [Graph.hasBody_eq_false_iff hbody?]
    exact Boundary.analyze?_eq_none_iff hg.invariant.anchored
  split
  · rename_i b hb
    have hsome : g.hasBody n = true := by
      by_contra hfalse
      simp [hnone.2 (Bool.eq_false_iff.2 hfalse)] at hb
    refine ensures_modify.2 ⟨?_, ?_, fun m hm hm' => ?_⟩
    · simp [h.boundaries, Boundary.node_eq hb, hsome]
    · refine List.forall_mem_append.2 ⟨h.bodies, List.forall_mem_singleton.2 ?_⟩
      rw [Boundary.node_eq hb, Boundary.body_eq hb, hbody?]
    · rcases List.mem_append.1 hm with hm | hm
      · exact h.reported m hm hm'
      · obtain rfl := List.mem_singleton.1 hm
        simp [hsome] at hm'
  · rename_i hb
    have hfalse := hnone.1 hb
    refine ensures_modify.2 ⟨?_, h.bodies, fun m hm hm' => ?_⟩
    · simp [h.boundaries, hfalse]
    · rcases List.mem_append.1 hm with hm | hm
      · exact List.mem_append_left _ (h.reported m hm hm')
      · exact List.mem_singleton.1 hm ▸ List.mem_append_right _ (List.mem_singleton_self _)

/-- After all claims, every boundary is surveyed. -/
theorem surveyed_claims (hg : g.Reachable) :
    Ensures (.start g) ((g.nodesWith .preInit).forM (claim g))
      fun _ => Surveyed g (g.nodesWith .boundary) := by
  rw [Graph.nodesWith_preInit]
  refine ensures_forM ⟨rfl, nofun, nofun⟩ fun done n rest q hns hdone => ?_
  obtain ⟨node, port, hn, hport⟩ := Graph.exists_bodyPort (g := g) (n := n) (by simp [hns])
  obtain ⟨hint, hclaim⟩ := claim_eq hn hport
  rw [hclaim]
  refine ensures_bind.2 (((lasting_extends g).moves_register _ _ q |>.and
    ((steady_sameOutline g).moves_register _ _ q)).mono fun name r hr => ?_)
  exact (hdone.mono hr.1 hr.2.boundaries).ensures_claimBody hg hn hport

/-! ## Whole plans -/

/-- Every boundary with a body has its job, and every other one was reported. -/
theorem surveyed_make (hg : g.Reachable) (h : Plan.make g = .ok p) :
    Surveyed g (g.nodesWith .boundary) p ∧
      p.jobs.map Job.node = (g.nodesWith .boundary).filter g.hasBody := by
  obtain ⟨q, r, hclaim, hname, hdescribe⟩ := make_eq_ok h
  have hsame := moves_names g q _ r hname
  have hr := (surveyed_claims hg _ q hclaim).mono
    ((lasting_extends g).moves_forM (fun n => (lasting_extends g).moves_nameNode n
      (lasting_extends g).manager) q _ r hname) hsame.boundaries
  have hclaimed := (ensures_claims g _ q hclaim).of_sameOutline hsame
  obtain ⟨hboundaries, hdescribed⟩ := hclaimed.ensures_describes _ p hdescribe
  have hrp := (lasting_extends g).moves_forM (lasting_extends g).moves_describe r _ p hdescribe
  exact ⟨hr.mono hrp hboundaries, hdescribed.nodes_eq.trans hr.boundaries⟩

/-- Jobs have distinct type names. -/
theorem nodup_typeNames (hg : g.Reachable) (hp : Plan.make g = .ok p) :
    (p.jobs.map Job.typeName).Nodup := by
  have hnodes := (pairwise_nodesWith g .boundary).filter g.hasBody
  rw [← (surveyed_make hg hp).2, List.pairwise_map] at hnodes
  refine List.pairwise_map.2 (hnodes.imp_of_mem fun {j k} hj hk hlt heq => ?_)
  obtain ⟨b, -, hb, -⟩ := exists_furnished hg hp hj
  obtain ⟨c, -, hc, -⟩ := exists_furnished hg hp hk
  have hkeys : Naming.typeKey b.node = Naming.typeKey c.node :=
    (tidy_make hp).key_eq hb.typeName (heq ▸ hc.typeName)
  rw [hb.node, hc.node] at hlt
  simp only [Naming.typeKey, SymbolKey.node.injEq, and_true] at hkeys
  exact absurd hlt (by simp [hkeys])

/-- A boundary without body has no job. -/
theorem job?_eq_none (hg : g.Reachable) (hp : Plan.make g = .ok p)
    (hn : g.hasBody n = false) : p.job? n = none := by
  refine List.find?_eq_none.2 fun j hj hnode => ?_
  have hmem : j.node ∈ p.jobs.map Job.node := List.mem_map_of_mem hj
  rw [(surveyed_make hg hp).2, of_decide_eq_true hnode] at hmem
  simp [hn] at hmem

end Planning

end EntityFlow
