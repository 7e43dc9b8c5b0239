import EntityFlow.Proofs.Planning.Invariants

/-!
# What a job has from its boundary

Describing a boundary adds fields to its job, one after another, and leaves alone what the job was
made with.  So every job of a plan has the body and the functions of a boundary of the plan, and it
holds no output but those that cross this boundary.
-/

namespace EntityFlow.Planning

open Naming

variable {g : Graph} {p q : Plan} {b : Boundary} {j j' : Job} {α : Type}

/-- The job is one for the boundary. -/
structure Serves (b : Boundary) (j : Job) : Prop where
  node : j.node = b.node
  body : j.body = b.body
  functions : j.functions = b.functions
  /-- An output that the job holds crosses the boundary. -/
  sources : ∀ f ∈ j.fields, ∀ r, f.source = .port r → ∃ inputs, (r, inputs) ∈ b.crossings

/-- The job that is made for a boundary serves it, having no fields yet. -/
theorem serves_bareJob {t : SymbolTable} (h : bareJob g t b = .ok j) : Serves b j := by
  have hbare := bare_of_bareJob h
  exact ⟨hbare.node, hbare.body, hbare.functions, by simp [hbare.fields]⟩

/-- A job goes on to serve if it gets a field for an output that crosses. -/
theorem Serves.addField {f : CaptureField} (h : Serves b j)
    (hf : ∀ r, f.source = .port r → ∃ inputs, (r, inputs) ∈ b.crossings) :
    Serves b (j.addField f) := by
  unfold Job.addField
  split
  · exact h
  · refine ⟨h.node, h.body, h.functions, fun f' hf' => ?_⟩
    rcases List.mem_append.1 hf' with hold | hnew
    · exact h.sources f' hold
    · rw [List.mem_singleton.1 hnew]
      exact hf

/-! ## Steps of describing -/

/-- The source of a variable is no output. -/
theorem Serves.ensures_addVariable (h : Serves b j) (index : Nat) (v : JobVariable) :
    Ensures p (addVariable g j index v) fun j' _ => Serves b j' := by
  unfold addVariable
  split
  · exact ensures_pure.2 h
  · exact ensures_bind.2 fun name q _ => ensures_pure.2 (h.addField nofun)

/-- The source of a crossing is an output that crosses. -/
theorem Serves.ensures_addCrossing (h : Serves b j) {source : PortRef} {inputs : List PortRef}
    (hc : (source, inputs) ∈ b.crossings) :
    Ensures p (addCrossing g j source inputs) fun j' _ => Serves b j' := by
  have hadd : ∀ name type,
      Serves b (j.addField ⟨name, type, false, .port source, .port source⟩) := by
    intro name type
    refine h.addField ?_
    rintro _ ⟨⟩
    exact ⟨inputs, hc⟩
  unfold addCrossing
  split
  · exact ensures_pure.2 h
  · split
    · exact ensures_bind.2 fun _ q _ => ensures_pure.2 h
    · refine ensures_bind.2 fun name q _ => ?_
      dsimp only
      split
      · simp only [ensures_bind, ensures_pure, ensures_modify]
        exact hadd name _
      · refine ensures_bind.2 fun _ r _ => ?_
        simp only [ensures_bind, ensures_pure, ensures_modify]
        exact hadd name _

theorem Serves.addMember (h : Serves b j) (t : SymbolTable) (m : MemberId) :
    Serves b (addMember g t j m) := by
  unfold Planning.addMember
  split
  · exact h.addField nofun
  · exact h

theorem Serves.addAutoProperty (h : Serves b j) (t : SymbolTable) (m : MemberId) :
    Serves b (addAutoProperty g t j m) := by
  unfold Planning.addAutoProperty
  split
  · split
    · exact h.addField nofun
    · exact h
  · exact h

theorem Serves.ensures_inspect (h : Serves b j) (c : Boundary) (n : NodeId) :
    Ensures p (inspect g c j n) fun j' _ => Serves b j' := by
  unfold inspect
  split
  · unfold addLookup
    split
    · exact ensures_pure.2 h
    · exact ensures_bind.2 fun name q _ => ensures_pure.2 (h.addField nofun)
  · refine ensures_bind.2 (ensures_get.2 ?_)
    split
    · exact ensures_bind.2 fun _ r _ => ensures_pure.2 h
    · exact ensures_pure.2 h
  · exact ensures_pure.2 h

theorem Serves.ensures_addCommandBuffer (h : Serves b j) :
    Ensures p (addCommandBuffer (rootHandle g) g j) fun j' _ => Serves b j' := by
  refine ensures_bind.2 fun name q _ => ?_
  split
  · exact ensures_pure.2 (h.addField nofun)
  · have hbuffer : ∀ type source, Serves b (j.addField
        ⟨name, type, true, .commandBuffer, .expression source⟩) := fun type source =>
      h.addField nofun
    dsimp only
    split
    · refine ensures_bind.2 fun key r _ => ensures_pure.2 ?_
      exact ⟨(hbuffer _ _).node, (hbuffer _ _).body, (hbuffer _ _).functions, (hbuffer _ _).sources⟩
    · refine ensures_bind.2 fun t r _ => ensures_pure.2 ?_
      exact ⟨(hbuffer _ _).node, (hbuffer _ _).body, (hbuffer _ _).functions, (hbuffer _ _).sources⟩

theorem equips_serves : Equips g b fun _ j _ => Serves b j where
  jobVariable _ _ _ _ _ h := h.ensures_addVariable _ _
  crossing _ _ _ _ hc h := h.ensures_addCrossing hc
  unavailable _ _ _ _ h _ _ _ := h
  member _ q m _ h := h.addMember q.symbols m
  property _ q m _ h := h.addAutoProperty q.symbols m
  node _ _ _ n h := h.ensures_inspect b n

/-- The job still serves when it has all its fields. -/
theorem Serves.ensures_equip {bare : Job} (h : Serves b bare) :
    Ensures p (equip (rootHandle g) g b bare) fun j _ => Serves b j :=
  equips_serves.ensures_equip h (fun _ _ hj _ => hj.ensures_addCommandBuffer) fun _ _ hj _ => hj

/-! ## Body ports -/

/-- The body of the boundary hangs off a port along which code is followed. -/
def Hangs (g : Graph) (b : Boundary) : Prop :=
  ∃ node name, g.node? b.node = some node ∧ name ∈ node.kind.followed ∧
    g.portRef b.node name = .ok b.body

/-- A body hangs on a flow port, if anything is connected to it. -/
theorem Hangs.isFlowPort {e : Edge} (h : Hangs g b) (hg : g.Reachable) (he : e ∈ g.live)
    (hs : e.source = b.body) : g.IsFlowPort e.source := by
  obtain ⟨node, name, hnode, hname, hbody⟩ := h
  rw [hs]
  exact (hg.laidOut hnode).isFlowPort hnode hname hbody (hg.invariant.joins_of_mem he) hs

/-- Claiming a body finds the port on which it hangs. -/
theorem ensures_claimBody_hangs {n : NodeId} {node : Node} {name : String}
    (hn : g.node? n = some node) (hname : name ∈ node.kind.followed)
    (hp : ∀ b ∈ p.boundaries, Hangs g b) :
    Ensures p (claimBody g n name) fun _ q => ∀ b ∈ q.boundaries, Hangs g b := by
  refine ensures_bind.2 (ensures_ofGraph.2 fun body hbody => ?_)
  split
  · rename_i b hb
    refine ensures_modify.2 (List.forall_mem_append.2 ⟨hp, List.forall_mem_singleton.2 ?_⟩)
    refine ⟨node, name, ?_, hname, ?_⟩
    · rw [Boundary.node_eq hb, hn]
    · rw [Boundary.node_eq hb, Boundary.body_eq hb, hbody]
  · exact ensures_modify.2 hp

theorem ensures_claim_hangs (n : NodeId) (hp : ∀ b ∈ p.boundaries, Hangs g b) :
    Ensures p (claim g n) fun _ q => ∀ b ∈ q.boundaries, Hangs g b := by
  refine ensures_bind.2 (ensures_ofGraph.2 fun node hnode => ?_)
  have hnamed : ∀ key hint name, name ∈ node.kind.followed →
      Ensures p (register key hint >>= fun _ => claimBody g n name)
        fun _ q => ∀ b ∈ q.boundaries, Hangs g b := by
    intro key hint name hname
    refine ensures_bind.2
      (((steady_sameOutline g).moves_register key hint p).mono fun _ q hpq => ?_)
    exact ensures_claimBody_hangs (Graph.node_eq_ok.1 hnode) hname (hpq.boundaries ▸ hp)
  split
  · rename_i hkind
    exact hnamed _ _ _ (by simp [hkind])
  · rename_i hkind
    exact hnamed _ _ _ (by simp [hkind])
  · rename_i hkind
    exact hnamed _ _ _ (by simp [hkind])
  · exact ensures_pure.2 hp

/-- After all claims, every body hangs on a port of its node. -/
theorem ensures_claims_hangs (g : Graph) :
    Ensures (.start g) ((g.nodesWith .preInit).forM (claim g))
      fun _ q => ∀ b ∈ q.boundaries, Hangs g b :=
  ensures_forM (J := fun _ q => ∀ b ∈ q.boundaries, Hangs g b) (by simp [Plan.start])
    fun _ n _ _ _ hJ => ensures_claim_hangs n hJ

/-! ## Jobs and their boundaries -/

/-- Plans in which bodies are claimed and outputs named, and nothing is described yet. -/
def Prepared (g : Graph) (r : Plan) : Prop := ∃ q,
  ((g.nodesWith .preInit).forM (claim g)).run (.start g) = .ok ((), q) ∧
  ((g.nodesWith .init).forM (nameNode (rootHandle g) g)).run q = .ok ((), r)

section Describe

variable {R : Plan → Plan → Prop} (hR : Lasting g R)

include hR

/-- A boundary gets a job with its fields. -/
theorem ensures_describe_job {P : Plan → Job → Prop} (hmono : ∀ p q j, R p q → P p j → P q j)
    (hkeys : (b.crossings.map Prod.fst).Nodup)
    (hequip : ∀ q bare, R p q → bareJob g q.symbols b = .ok bare →
      Ensures q (equip (rootHandle g) g b bare) fun j r => P r j) :
    Ensures p (describe (rootHandle g) g b) fun _ q => q.boundaries = p.boundaries ∧
      ∃ j, P q j ∧ q.jobs = p.jobs ++ [j] := by
  refine ensures_describe fun bare usings hbare => ?_
  refine ((ensures_equip hkeys (bare_of_bareJob hbare).fields).and
    (hequip _ bare (hR.usings p usings) hbare)).mono fun j r hr => ?_
  exact ⟨hr.1.boundaries, j, hmono r _ j (hR.jobs r j) hr.2, by rw [hr.1.jobs]⟩

/-- Every job belongs to a boundary of the plan, and satisfies with it whatever holds once a job has
its fields and stays true from then on.  Fields are added to plans in which everything has its name,
so that `I` may be used for them. -/
theorem exists_boundary {I : Plan → Prop} {P : Plan → Boundary → Job → Prop}
    (hI : ∀ p q, R p q → I p → I q) (hmono : ∀ p q b j, R p q → P p b j → P q b j)
    (hnamed : ∀ r, Prepared g r → I r)
    (hequip : ∀ b q bare, I q → bareJob g q.symbols b = .ok bare →
      Ensures q (equip (rootHandle g) g b bare) fun j r => P r b j)
    (h : Plan.make g = .ok p) (hj : j ∈ p.jobs) : ∃ b ∈ p.boundaries,
      P p b j ∧ Hangs g b ∧ Boundary.analyze? g b.node b.body = some b := by
  obtain ⟨q, r, hclaim, hname, hdescribe⟩ := make_eq_ok h
  have hhangs := ensures_claims_hangs g _ q hclaim
  have hqr := moves_names g q _ r hname
  have hr := (ensures_claims g _ q hclaim).of_sameOutline hqr
  have hall : Ensures r (r.boundaries.forM (describe (rootHandle g) g)) fun _ p =>
      p.boundaries = r.boundaries ∧ R r p ∧ ∀ j ∈ p.jobs, ∃ b ∈ r.boundaries, P p b j := by
    refine ensures_forM (J := fun _ p => p.boundaries = r.boundaries ∧ R r p ∧
      ∀ j ∈ p.jobs, ∃ b ∈ r.boundaries, P p b j) ⟨rfl, hR.refl r, by simp [hr.jobs]⟩
      fun done b rest p hbs hJ => ?_
    obtain ⟨hsame, hrp, hjobs⟩ := hJ
    have hb : b ∈ r.boundaries := by simp [hbs]
    obtain ⟨body, hbody⟩ := hr.analyzed b hb
    have hjob := ensures_describe_job (p := p) hR (P := fun p j => P p b j)
      (fun p q j => hmono p q b j) (Boundary.nodup_crossings hbody) fun p' bare hpp =>
        hequip b p' bare (hI r p' (hR.trans hrp hpp) (hnamed r ⟨q, hclaim, hname⟩))
    refine (hjob.and (hR.moves_describe b p)).mono fun _ p' hp' => ?_
    obtain ⟨⟨hboundaries, j', hj', hnew⟩, hpp⟩ := hp'
    have hold : ∀ j ∈ p.jobs, ∃ b ∈ r.boundaries, P p' b j := by
      intro j hj
      obtain ⟨b, hb, hbj⟩ := hjobs j hj
      exact ⟨b, hb, hmono _ _ b j hpp hbj⟩
    refine ⟨hboundaries.trans hsame, hR.trans hrp hpp, fun j hj => ?_⟩
    rcases List.mem_append.1 (hnew ▸ hj) with hmem | hlast
    · exact hold j hmem
    · rw [List.mem_singleton.1 hlast]
      exact ⟨b, hb, hj'⟩
  obtain ⟨hboundaries, -, hjobs⟩ := hall _ p hdescribe
  obtain ⟨b, hb, hbj⟩ := hjobs j hj
  obtain ⟨body, hbody⟩ := hr.analyzed b hb
  exact ⟨b, hboundaries ▸ hb, hbj, hhangs b (hqr.boundaries ▸ hb), Boundary.body_eq hbody ▸ hbody⟩

end Describe

/-- Every job serves a boundary of the plan. -/
theorem exists_serves (h : Plan.make g = .ok p) (hj : j ∈ p.jobs) : ∃ b ∈ p.boundaries,
    Serves b j ∧ Hangs g b ∧ Boundary.analyze? g b.node b.body = some b :=
  exists_boundary (lasting_keepsHandles g) (I := fun _ => True) (P := fun _ => Serves)
    (fun _ _ _ => id) (fun _ _ _ _ _ => id) (fun _ _ => trivial)
    (fun _ _ _ _ hbare => (serves_bareJob hbare).ensures_equip) h hj

end EntityFlow.Planning
