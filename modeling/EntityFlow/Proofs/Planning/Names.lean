import EntityFlow.Proofs.Planning.Provenance
import EntityFlow.Proofs.Symbols

/-!
# Planning goes through, and names stay

A plan is made in steps that bind names and never unbind one.  The ports that the steps ask for are
those of the layouts, every function has its name, and a boundary that was claimed has a type name
and is of a kind that becomes a job.  So a step can fail for one reason only: it needs the update
method, and the unit is no system.
-/

namespace EntityFlow

namespace Planning

open Naming

variable {α β : Type} {g : Graph} {n : NodeId} {node : Node} {p q : Plan} {b : Boundary}
  {E : CompileError → Prop}

/-- Every run of `m` keeps the names that are bound, or ends in an error that satisfies `E`. -/
def Proceeds (E : CompileError → Prop) (m : Planning α) : Prop :=
  ∀ p, match m.run p with
    | .ok (_, q) => p.symbols.Keeps q.symbols
    | .error e => E e

section Rules

variable {m : Planning α} {f : α → Planning β}

/-- A run that proceeds keeps all names. -/
theorem Proceeds.ensures (h : Proceeds E m) (p : Plan) :
    Ensures p m fun _ q => p.symbols.Keeps q.symbols := by
  intro a q hrun
  have hp := h p
  rwa [hrun] at hp

/-- A run that proceeds fails with no error but those that are excused. -/
theorem Proceeds.error {e : CompileError} (h : Proceeds E m) (hrun : m.run p = .error e) : E e := by
  have hp := h p
  rwa [hrun] at hp

/-- A bind fails in its first part, or in its second. -/
theorem run_bind_eq_error {e : CompileError} : (m >>= f).run p = .error e ↔
    m.run p = .error e ∨ ∃ a q, m.run p = .ok (a, q) ∧ (f a).run q = .error e := by
  rw [StateT.run_bind]
  rcases m.run p with e' | ⟨a, q⟩ <;> simp [bind, Except.bind]

theorem proceeds_pure (a : α) : Proceeds E (pure a : Planning α) := fun p => .refl p.symbols

theorem proceeds_throw {e : CompileError} (h : E e) :
    Proceeds E (throw e : Planning α) := fun _ => h

theorem proceeds_bind (hm : Proceeds E m) (hf : ∀ a, Proceeds E (f a)) : Proceeds E (m >>= f) := by
  intro p
  have hp := hm p
  rw [StateT.run_bind]
  rcases hrun : m.run p with e | ⟨a, q⟩
  · rw [hrun] at hp
    exact hp
  · rw [hrun] at hp
    have hq := hf a q
    change match (f a).run q with
      | .ok (_, r) => p.symbols.Keeps r.symbols
      | .error e => E e
    rcases hrun' : (f a).run q with e | ⟨b, r⟩
    · rwa [hrun'] at hq
    · rw [hrun'] at hq
      exact hp.trans hq

theorem proceeds_get {f : Plan → Planning β} (hf : ∀ p, Proceeds E (f p)) :
    Proceeds E (get >>= f) :=
  proceeds_bind (fun p => .refl p.symbols) hf

theorem proceeds_modify {h : Plan → Plan} (hh : ∀ p : Plan, p.symbols.Keeps (h p).symbols) :
    Proceeds E (modify h) := hh

/-- What the graph has is found. -/
theorem proceeds_ofGraph {x : Except GraphError α} (hx : ∃ a, x = .ok a) :
    Proceeds E (ofGraph x) := by
  obtain ⟨a, rfl⟩ := hx
  exact proceeds_pure a

theorem proceeds_ofGraph_bind {x : Except GraphError α} {a : α} (hx : x = .ok a)
    (hf : Proceeds E (f a)) : Proceeds E (ofGraph x >>= f) := by
  rw [hx]
  exact hf

theorem proceeds_attempt {x : Except CompileError α} (hx : ∀ e, x = .error e → E e) :
    Proceeds E (attempt x) := by
  cases x with
  | ok a => exact proceeds_pure a
  | error e => exact proceeds_throw (hx e rfl)

theorem proceeds_foldlM {xs : List α} {step : β → α → Planning β} {b : β}
    (hstep : ∀ b, ∀ x ∈ xs, Proceeds E (step b x)) : Proceeds E (xs.foldlM step b) := by
  induction xs generalizing b with
  | nil => exact proceeds_pure b
  | cons x xs ih =>
    rw [List.foldlM_cons]
    refine proceeds_bind (hstep b x List.mem_cons_self) fun b' => ?_
    exact ih fun b y hy => hstep b y (List.mem_cons_of_mem x hy)

theorem proceeds_forM {xs : List α} {step : α → Planning PUnit}
    (hstep : ∀ x ∈ xs, Proceeds E (step x)) : Proceeds E (xs.forM step) := by
  rw [forM_eq_foldlM]
  exact proceeds_foldlM fun _ => hstep

end Rules

/-! ## Small steps -/

theorem proceeds_report (owner : Owner) (problem : Problem) : Proceeds E (report owner problem) :=
  proceeds_modify fun p => .refl p.symbols

theorem proceeds_register (key : SymbolKey) (hint : String) : Proceeds E (register key hint) :=
  fun p => SymbolTable.keeps_register p.symbols key hint

theorem proceeds_fresh (hint : String) : Proceeds E (fresh hint) :=
  fun p => SymbolTable.keeps_fresh p.symbols hint

theorem proceeds_bindOutput (output : PortRef) (b : Binding) : Proceeds E (bindOutput output b) :=
  proceeds_modify fun p => .refl p.symbols

theorem proceeds_markUnavailable (input : PortRef) : Proceeds E (markUnavailable input) :=
  proceeds_modify fun p => .refl p.symbols

theorem proceeds_nameOutput (output : PortRef) (hint : String) :
    Proceeds E (nameOutput output hint) :=
  proceeds_bind (proceeds_register _ _) fun _ => proceeds_bindOutput _ _

theorem proceeds_nameOutputs (n : NodeId) (node : Node) : Proceeds E (nameOutputs n node) := by
  refine proceeds_forM fun x _ => ?_
  dsimp only
  split
  · exact proceeds_nameOutput _ _
  · exact proceeds_pure _

/-- The errors in `E` are enough for a unit that has no update method. -/
def Excuses (g : Graph) (E : CompileError → Prop) : Prop :=
  g.settings.flavor.isSystem = false → ∀ method, E (.missingEntryPoint method)

/-- Nothing is missing in a system. -/
theorem excuses_false (hsystem : g.settings.flavor.isSystem) : Excuses g fun _ => False :=
  fun haspect => absurd hsystem (by simp [haspect])

theorem proceeds_requireUpdate (hE : Excuses g E) : Proceeds E (requireUpdate g) := by
  unfold requireUpdate
  split
  · exact proceeds_pure _
  · rename_i hsystem
    exact proceeds_throw (hE (by simpa using hsystem) _)

theorem proceeds_rootHandle (hE : Excuses g E) (h : Handle) : Proceeds E (rootHandle g h) := by
  refine proceeds_get fun p => ?_
  split
  · exact proceeds_register _ _
  · refine proceeds_bind (proceeds_requireUpdate hE) fun _ => ?_
    refine proceeds_bind (proceeds_register _ _) fun name => ?_
    refine proceeds_bind (proceeds_modify fun p => .refl p.symbols) fun _ => ?_
    exact proceeds_bind (proceeds_modify fun p => .refl p.symbols) fun _ => proceeds_pure name

/-! ## Claiming and naming -/

theorem proceeds_claimBody {name : String} (hport : ∃ r, g.portRef n name = .ok r) :
    Proceeds E (claimBody g n name) := by
  refine proceeds_bind (proceeds_ofGraph hport) fun body => ?_
  split
  · exact proceeds_modify fun p => .refl p.symbols
  · exact proceeds_report _ _

theorem proceeds_nameTime (hE : Excuses g E) {name : String} (expression : String)
    (hport : ∃ r, g.portRef n name = .ok r) : Proceeds E (nameTime g n name expression) := by
  refine proceeds_bind (proceeds_ofGraph hport) fun output => ?_
  split
  · refine proceeds_bind (proceeds_register _ _) fun name => ?_
    refine proceeds_bind (proceeds_requireUpdate hE) fun _ => ?_
    exact proceeds_bind (proceeds_modify fun p => .refl p.symbols) fun _ => proceeds_bindOutput _ _
  · exact proceeds_pure _

theorem proceeds_nameEntityNode (hE : Excuses g E) (n : NodeId) (h : Handle) :
    Proceeds E (nameEntityNode (rootHandle g) g n h) := by
  refine proceeds_get fun p => ?_
  split
  · exact proceeds_bind (proceeds_rootHandle hE h) fun _ => proceeds_pure _
  · exact proceeds_pure _

theorem proceeds_nameItem {item : QueryItem} (hport : ∃ r, g.portRef n item.name = .ok r) :
    Proceeds E (nameItem g n item) :=
  proceeds_bind (proceeds_ofGraph hport) fun _ =>
    proceeds_bind (proceeds_register _ _) fun _ => proceeds_bindOutput _ _

theorem mem_of_mem_numbered {xs : List α} {x : UInt16 × α} (hx : x ∈ numbered xs) : x.2 ∈ xs := by
  obtain ⟨i, hi, rfl⟩ := List.mem_mapIdx.1 hx
  exact List.mem_of_mem_take (List.getElem_mem hi)

/-- The entry of a function has a port for each parameter. -/
theorem mem_names_entry {f : MemberId} {param : Parameter} (h : g.LaidOut node)
    (hkind : node.kind = .functionEntry f)
    (hparam : param ∈ ((g.function? f).map Function.params).getD []) :
    param.name ∈ node.ports.map Port.name := by
  obtain ⟨job, -, hl⟩ := h
  rw [hkind] at hl
  simp only [NodeKind.layout, bind_eq_ok, pure_eq_ok] at hl
  obtain ⟨fn, hfn, hports⟩ := hl
  obtain ⟨x, hx, hview⟩ := Graph.lookup_eq_ok hfn
  have hfunction : g.function? f = some fn := Option.bind_eq_some_iff.2 ⟨x, hx, hview⟩
  rw [hfunction] at hparam
  rw [← hports, List.map_cons, List.map_map]
  exact List.mem_cons_of_mem _ (List.mem_map.2 ⟨param, hparam, rfl⟩)

section Node

variable (hg : g.Reachable) (hn : g.node? n = some node)

include hg hn

theorem proceeds_claim : Proceeds E (claim g n) := by
  have hports : ∀ name ∈ node.kind.asked, ∃ r, g.portRef n name = .ok r :=
    fun name hname => (hg.laidOut hn).exists_portRef hn hname
  obtain ⟨title, kind, container, ports⟩ := node
  refine proceeds_ofGraph_bind (Graph.node_eq_ok.2 hn) ?_
  cases kind with
  | «foreach» spec | jobEntity spec | jobChunk spec =>
    exact proceeds_bind (proceeds_register _ _) fun _ => proceeds_claimBody (hports _ (by simp))
  | _ => exact proceeds_pure _

variable (hE : Excuses g E)

include hE

theorem proceeds_nameEvent {e : Lifecycle} (hkind : node.kind = .event e) :
    Proceeds E (nameEvent (rootHandle g) g n e) := by
  have hports : ∀ name ∈ (NodeKind.event e).asked, ∃ r, g.portRef n name = .ok r :=
    fun name hname => (hg.laidOut hn).exists_portRef hn (hkind ▸ hname)
  refine proceeds_bind (proceeds_ofGraph (hports _ (by simp))) fun state => ?_
  refine proceeds_bind (proceeds_bindOutput _ _) fun _ => ?_
  split
  · rename_i hupdate
    refine proceeds_bind (proceeds_nameTime hE _ (hports _ (by simp [hupdate]))) fun _ => ?_
    refine proceeds_bind (proceeds_nameTime hE _ (hports _ (by simp [hupdate]))) fun _ => ?_
    refine proceeds_bind (proceeds_ofGraph (hports _ (by simp [hupdate]))) fun manager => ?_
    split
    · exact proceeds_bind (proceeds_rootHandle hE _) fun _ => proceeds_bindOutput _ _
    · exact proceeds_pure _
  · exact proceeds_pure _

omit hE in
theorem proceeds_nameEntry {f : MemberId} (hkind : node.kind = .functionEntry f) :
    Proceeds E (nameEntry g n f) := by
  refine proceeds_forM fun x hx => ?_
  have hname := mem_names_entry (hg.laidOut hn) hkind (mem_of_mem_numbered hx)
  refine proceeds_bind (proceeds_ofGraph (Graph.exists_portRef hn hname)) fun output => ?_
  refine proceeds_get fun p => ?_
  split
  · exact proceeds_bindOutput _ _
  · exact proceeds_pure _

omit hE in
theorem proceeds_nameForeach {spec : ForeachSpec} (hkind : node.kind = .foreach spec) :
    Proceeds E (nameForeach g n node spec) := by
  have hports : ∀ name ∈ (NodeKind.foreach spec).asked, ∃ r, g.portRef n name = .ok r :=
    fun name hname => (hg.laidOut hn).exists_portRef hn (hkind ▸ hname)
  have hitems : Proceeds E (spec.items.forM (nameItem g n)) := by
    refine proceeds_forM fun item hitem => proceeds_nameItem (hports _ ?_)
    simp only [NodeKind.asked, List.mem_append, List.mem_map]
    exact .inr ⟨item, hitem, rfl⟩
  unfold nameForeach
  split
  · refine proceeds_bind (proceeds_nameOutputs n node) fun _ => proceeds_get fun p => ?_
    split
    · exact proceeds_bind (proceeds_register _ _) fun _ => proceeds_pure _
    · exact proceeds_pure _
  · dsimp only
    split
    · rename_i haccess
      refine proceeds_bind (proceeds_ofGraph (hports _ (by simp [haccess]))) fun output => ?_
      exact proceeds_bind (proceeds_nameOutput _ _) fun _ => hitems
    · exact hitems

omit hE in
theorem proceeds_nameExecutor {runWith : Discipline} {job : Option NodeId}
    (hkind : node.kind = .executor runWith job) : Proceeds E (nameExecutor g n runWith job) := by
  have hport : ∃ r, g.portRef n PortName.jobHandle = .ok r :=
    (hg.laidOut hn).exists_portRef hn (by simp [hkind])
  have hrest : Proceeds E (do
      let handle ← ofGraph (g.portRef n PortName.jobHandle)
      if g.isConnected handle then
        if runWith = .run then
          report (.node n) .runHasNoJobHandle
          bindOutput handle (.fixed (.ident "default(JobHandle)"))
        else nameOutput handle PortName.jobHandle) := by
    refine proceeds_bind (proceeds_ofGraph hport) fun handle => ?_
    split
    · split
      · exact proceeds_bind (proceeds_report _ _) fun _ => proceeds_bindOutput _ _
      · exact proceeds_nameOutput _ _
    · exact proceeds_pure _
  refine proceeds_get fun p => ?_
  dsimp only
  split
  · exact proceeds_bind (proceeds_register _ _) fun _ => hrest
  · exact hrest

/-- Naming a node fails with no error but those that are excused. -/
theorem proceeds_nameNode : Proceeds E (nameNode (rootHandle g) g n) := by
  have hports : ∀ name ∈ node.kind.asked, ∃ r, g.portRef n name = .ok r :=
    fun name hname => (hg.laidOut hn).exists_portRef hn hname
  obtain ⟨title, kind, container, ports⟩ := node
  refine proceeds_ofGraph_bind (Graph.node_eq_ok.2 hn) ?_
  cases kind with
  | event e => exact proceeds_nameEvent hg hn hE rfl
  | functionEntry f => exact proceeds_nameEntry hg hn rfl
  | localVar name type =>
    exact proceeds_bind (proceeds_ofGraph (hports _ (by simp))) fun _ => proceeds_nameOutput _ _
  | «foreach» spec => exact proceeds_nameForeach hg hn rfl
  | jobEntity spec | jobChunk spec => exact proceeds_nameOutputs _ _
  | executor runWith job => exact proceeds_nameExecutor hg hn rfl
  | createEntity =>
    refine proceeds_bind (proceeds_ofGraph (hports _ (by simp))) fun _ => ?_
    exact proceeds_bind (proceeds_nameOutput _ _) fun _ => proceeds_nameEntityNode hE n _
  | destroyEntity | setComponent _ | setComponentEnabled _ | getComponent _ =>
    exact proceeds_nameEntityNode hE n _
  | ret | literal _ | operator _ _ | member _ | setValue | branch => exact proceeds_pure _

end Node

/-! ## Describing -/

theorem proceeds_addVariable (j : Job) (i : Nat) (v : JobVariable) :
    Proceeds E (addVariable g j i v) := by
  unfold addVariable
  split
  · exact proceeds_pure _
  · exact proceeds_bind (proceeds_register _ _) fun _ => proceeds_pure _

theorem proceeds_captureName (boundary : NodeId) (source : PortRef) (port : Port) :
    Proceeds E (captureName g boundary source port) := by
  refine proceeds_get fun p => ?_
  split
  · exact proceeds_pure _
  · exact proceeds_register _ _

theorem proceeds_addCrossing (j : Job) (source : PortRef) (inputs : List PortRef) :
    Proceeds E (addCrossing g j source inputs) := by
  have hredirect : ∀ rs (j' : Job), Proceeds E (do
      modify fun p : Plan => { p with redirects := rs ++ p.redirects }
      return j') := fun rs j' =>
    proceeds_bind (proceeds_modify fun p => .refl p.symbols) fun _ => proceeds_pure _
  unfold addCrossing
  split
  · exact proceeds_pure _
  · split
    · refine proceeds_bind (proceeds_forM fun input _ => ?_) fun _ => proceeds_pure _
      exact proceeds_bind (proceeds_report _ _) fun _ => proceeds_markUnavailable _
    · refine proceeds_bind (proceeds_captureName _ _ _) fun name => ?_
      dsimp only
      split
      · exact hredirect _ _
      · exact proceeds_bind (proceeds_report _ _) fun _ => hredirect _ _

theorem proceeds_inspect (b : Boundary) (j : Job) (n : NodeId) : Proceeds E (inspect g b j n) := by
  unfold inspect
  split
  · unfold addLookup
    split
    · exact proceeds_pure _
    · exact proceeds_bind (proceeds_fresh _) fun _ => proceeds_pure _
  · refine proceeds_get fun p => ?_
    split
    · exact proceeds_bind (proceeds_report _ _) fun _ => proceeds_pure _
    · exact proceeds_pure _
  · exact proceeds_pure _

theorem proceeds_addCommandBuffer (hE : Excuses g E) (j : Job) :
    Proceeds E (addCommandBuffer (rootHandle g) g j) := by
  refine proceeds_bind (proceeds_rootHandle hE _) fun name => ?_
  split
  · exact proceeds_pure _
  · dsimp only
    split
    · exact proceeds_bind (proceeds_register _ _) fun _ => proceeds_pure _
    · exact proceeds_get fun _ => proceeds_pure _

theorem proceeds_equip (hE : Excuses g E) (b : Boundary) (bare : Job) :
    Proceeds E (equip (rootHandle g) g b bare) := by
  refine proceeds_bind (proceeds_foldlM fun j x _ => proceeds_addVariable j _ _) fun j => ?_
  refine proceeds_bind (proceeds_foldlM fun j x _ => proceeds_addCrossing j _ _) fun j => ?_
  refine proceeds_bind (proceeds_forM fun x _ => ?_) fun _ => proceeds_get fun p => ?_
  · exact proceeds_bind (proceeds_report _ _) fun _ => proceeds_markUnavailable _
  · refine proceeds_bind (proceeds_foldlM fun j n _ => proceeds_inspect b j n) fun j => ?_
    split
    · exact proceeds_addCommandBuffer hE j
    · exact proceeds_pure _

/-- What is left to do for a boundary once it is known what its job is. -/
theorem proceeds_describe_bare (hE : Excuses g E) (b : Boundary) (bare : Job) : Proceeds E (do
    if bare.contract = .chunk then
      modify fun p => { p with usings := distinct (p.usings ++ ["Unity.Burst.Intrinsics"]) }
    let j ← equip (rootHandle g) g b bare
    modify fun p => { p with jobs := p.jobs ++ [j] }) := by
  have hrest : Proceeds E (do
      let j ← equip (rootHandle g) g b bare
      modify fun p : Plan => { p with jobs := p.jobs ++ [j] }) :=
    proceeds_bind (proceeds_equip hE b bare) fun j => proceeds_modify fun p => .refl p.symbols
  dsimp only
  split
  · exact proceeds_bind (proceeds_modify fun p => .refl p.symbols) fun _ => hrest
  · exact hrest

/-- Describing a job fails only if it has no name, or with an error that is excused. -/
theorem proceeds_describe (hE : Excuses g E) (hbare : ∀ t e, bareJob g t b = .error e → E e) :
    Proceeds E (describe (rootHandle g) g b) :=
  proceeds_get fun p => proceeds_bind (proceeds_attempt (hbare p.symbols)) fun bare =>
    proceeds_describe_bare hE b bare

/-! ## Boundaries that were claimed -/

/-- The boundary has all that its job is made from. -/
structure Describable (g : Graph) (b : Boundary) (p : Plan) : Prop where
  type : ∃ name, p.symbols.get? (typeKey b.node) = some name
  kind : ∃ kind, g.kind? b.node = some kind ∧ kind.hasJob

theorem Describable.keeps (h : Describable g b p) (hpq : p.symbols.Keeps q.symbols) :
    Describable g b q :=
  ⟨h.type.imp fun _ hname => hpq _ _ hname, h.kind⟩

/-- A boundary whose type has a name can be described. -/
theorem Describable.exists_bareJob (h : Describable g b p) :
    ∃ bare, bareJob g p.symbols b = .ok bare := by
  obtain ⟨⟨name, hname⟩, kind, hkind, hjob⟩ := h
  cases hbare : bareJob g p.symbols b with
  | ok bare => exact ⟨bare, rfl⟩
  | error e =>
    rcases bareJob_eq_error hbare with ⟨-, hnone⟩ | ⟨-, hnone⟩ | ⟨-, hother⟩
    · cases hname.symm.trans hnone
    · cases hkind.symm.trans hnone
    · exact absurd hjob (hother kind hkind)

theorem ensures_claimBody_describable (port : String)
    (htype : ∃ name, p.symbols.get? (typeKey n) = some name)
    (hkind : ∃ kind, g.kind? n = some kind ∧ kind.hasJob)
    (hp : ∀ b ∈ p.boundaries, Describable g b p) :
    Ensures p (claimBody g n port) fun _ q => ∀ b ∈ q.boundaries, Describable g b q := by
  refine ensures_bind.2 (ensures_ofGraph.2 fun body _ => ?_)
  split
  · rename_i b hb
    refine ensures_modify.2 (List.forall_mem_append.2 ⟨fun c hc => (hp c hc).keeps (.refl _), ?_⟩)
    exact List.forall_mem_singleton.2 ⟨Boundary.node_eq hb ▸ htype, Boundary.node_eq hb ▸ hkind⟩
  · exact ensures_modify.2 fun c hc => (hp c hc).keeps (.refl _)

/-- The type is named before the body is claimed. -/
theorem ensures_claim_describable (n : NodeId) (hp : ∀ b ∈ p.boundaries, Describable g b p) :
    Ensures p (claim g n) fun _ q => ∀ b ∈ q.boundaries, Describable g b q := by
  refine ensures_bind.2 (ensures_ofGraph.2 fun node hnode => ?_)
  have hkind : g.kind? n = some node.kind := Graph.kind?_of_node (Graph.node_eq_ok.1 hnode)
  have hnamed : ∀ hint port, node.kind.hasJob →
      Ensures p (register (typeKey n) hint >>= fun _ => claimBody g n port)
        fun _ q => ∀ b ∈ q.boundaries, Describable g b q := by
    intro hint port hjob
    simp only [register, ensures_bind, ensures_get, ensures_set, ensures_pure]
    refine ensures_claimBody_describable port ⟨_, SymbolTable.get?_register _ _ _⟩
      ⟨_, hkind, hjob⟩ ?_
    exact fun c hc => (hp c hc).keeps (SymbolTable.keeps_register _ _ _)
  split
  · rename_i spec hspec
    exact hnamed _ _ (by rw [hspec]; rfl)
  · rename_i spec hspec
    exact hnamed _ _ (by rw [hspec]; rfl)
  · rename_i spec hspec
    exact hnamed _ _ (by rw [hspec]; rfl)
  · exact ensures_pure.2 hp

/-- After all claims, every boundary can be described. -/
theorem ensures_claims_describable (g : Graph) :
    Ensures (.start g) ((g.nodesWith .preInit).forM (claim g))
      fun _ q => ∀ b ∈ q.boundaries, Describable g b q :=
  ensures_forM (J := fun _ q => ∀ b ∈ q.boundaries, Describable g b q) nofun
    fun _ n _ _ _ hJ => ensures_claim_describable n hJ

/-- A boundary with all it needs is described, unless the update method is lacking. -/
theorem Describable.describe_eq_error {e : CompileError} (h : Describable g b p) (hE : Excuses g E)
    (hrun : (describe (rootHandle g) g b).run p = .error e) : E e := by
  obtain ⟨bare, hbare⟩ := h.exists_bareJob
  unfold describe at hrun
  rcases run_bind_eq_error.1 hrun with hget | ⟨_, _, hget, hrun⟩
  · cases hget
  · cases hget
    rw [hbare] at hrun
    exact (proceeds_describe_bare hE b bare).error hrun

/-- Describing all jobs fails with no error but those that are excused. -/
theorem describes_eq_error {bs : List Boundary} {e : CompileError} (hE : Excuses g E)
    (hbs : ∀ b ∈ bs, Describable g b p)
    (hrun : (bs.forM (describe (rootHandle g) g)).run p = .error e) : E e := by
  induction bs generalizing p with
  | nil => cases hrun
  | cons b bs ih =>
    obtain ⟨hb, hrest⟩ := List.forall_mem_cons.1 hbs
    rcases run_bind_eq_error.1 hrun with hfirst | ⟨u, q, hfirst, hnext⟩
    · exact hb.describe_eq_error hE hfirst
    · have hkeeps := (proceeds_describe (b := b) (E := fun _ => True) (fun _ _ => trivial)
        fun _ _ _ => trivial).ensures p u q hfirst
      exact ih (fun c hc => (hrest c hc).keeps hkeeps) hnext

/-! ## Whole plans -/

theorem exists_node_of_mem_nodesWith {c : Capability} (h : n ∈ g.nodesWith c) :
    ∃ node, g.node? n = some node := Graph.mem_nodeIds.1 (List.mem_filter.1 h).1

section Make

variable (hg : g.Reachable) (hE : Excuses g E)

include hg

theorem proceeds_claims : Proceeds E ((g.nodesWith .preInit).forM (claim g)) := by
  refine proceeds_forM fun n hn => ?_
  obtain ⟨node, hnode⟩ := exists_node_of_mem_nodesWith hn
  exact proceeds_claim hg hnode

include hE

theorem proceeds_names : Proceeds E ((g.nodesWith .init).forM (nameNode (rootHandle g) g)) := by
  refine proceeds_forM fun n hn => ?_
  obtain ⟨node, hnode⟩ := exists_node_of_mem_nodesWith hn
  exact proceeds_nameNode hg hnode hE

/-- Planning fails only where the unit lacks the update method. -/
theorem make_eq_error {e : CompileError} (h : Plan.make g = .error e) : E e := by
  unfold Plan.make at h
  cases hrun : (planAll g).run (.start g) with
  | ok x => simp [hrun, Except.map] at h
  | error e' =>
    rw [hrun] at h
    obtain rfl : e' = e := Except.error.inj h
    rw [planAll, planWith, run_bind_of_ok (run_declareFunctions g)] at hrun
    rcases run_bind_eq_error.1 hrun with hclaim | ⟨u, q, hclaim, hrun⟩
    · exact (proceeds_claims hg).error hclaim
    rcases run_bind_eq_error.1 hrun with hname | ⟨u, r, hname, hrun⟩
    · exact (proceeds_names hg hE).error hname
    -- The names come between the claims and the descriptions, and leave the boundaries alone.
    have hready := ensures_claims_describable g _ q hclaim
    have hkeeps := (proceeds_names hg hE).ensures q u r hname
    have hsame : r.boundaries = q.boundaries := (moves_names g q u r hname).boundaries
    exact describes_eq_error hE (fun b hb => (hready b (hsame ▸ hb)).keeps hkeeps) hrun

end Make

/-- Every system can be planned. -/
theorem exists_make (hg : g.Reachable) (hsystem : g.settings.flavor.isSystem) :
    ∃ p, Plan.make g = .ok p := by
  cases hmake : Plan.make g with
  | ok p => exact ⟨p, rfl⟩
  | error e => exact (make_eq_error hg (excuses_false hsystem) hmake).elim

/-- If the node is a local, then its output has a name. -/
def NamesLocal (g : Graph) (n : NodeId) (p : Plan) : Prop :=
  ∀ node title type out, g.node? n = some node → node.kind = .localVar title type →
    g.portRef n PortName.out = .ok out → ∃ name, p.symbols.get? (.port out) = some name

theorem NamesLocal.keeps (h : NamesLocal g n p) (hpq : p.symbols.Keeps q.symbols) :
    NamesLocal g n q := by
  intro node title type out hn hkind hout
  obtain ⟨name, hname⟩ := h node title type out hn hkind hout
  exact ⟨name, hpq _ _ hname⟩

/-- Naming a local variable gives its output a name. -/
theorem ensures_nameNode_namesLocal (g : Graph) (n : NodeId) :
    Ensures p (nameNode (rootHandle g) g n) fun _ => NamesLocal g n := by
  rintro u q hrun ⟨_, kind, container, ports⟩ title type out hn rfl hout
  have hnamed : Ensures p (nameNode (rootHandle g) g n) fun _ q =>
      ∃ name, q.symbols.get? (.port out) = some name := by
    unfold nameNode
    rw [Graph.node_eq_ok.2 hn]
    change Ensures p (ofGraph (g.portRef n PortName.out) >>= fun r => nameOutput r _) _
    rw [hout]
    change Ensures p (register (.port out) _ >>= fun name => bindOutput out _) _
    simp only [register, bindOutput, ensures_bind, ensures_get, ensures_set, ensures_pure,
      ensures_modify]
    exact ⟨_, SymbolTable.get?_register _ _ _⟩
  exact hnamed u q hrun

/-- Naming gives every local its name, and later steps keep it. -/
theorem ensures_names_namesLocal (hg : g.Reachable) :
    Ensures p ((g.nodesWith .init).forM (nameNode (rootHandle g) g)) fun _ q =>
      ∀ n, NamesLocal g n q := by
  refine Ensures.mono (ensures_forM (J := fun done q => ∀ n ∈ done, NamesLocal g n q) nofun
    fun done n rest q hns hJ => ?_) ?_
  · have hmem : n ∈ g.nodesWith .init := by
      rw [hns]
      exact List.mem_append_cons_self
    obtain ⟨node, hnode⟩ := exists_node_of_mem_nodesWith hmem
    have hkeeps := (proceeds_nameNode (E := fun _ => True) hg hnode fun _ _ => trivial).ensures q
    refine (hkeeps.and (ensures_nameNode_namesLocal g n)).mono fun _ q' hq' => ?_
    refine List.forall_mem_append.2 ⟨fun m hm => (hJ m hm).keeps hq'.1, ?_⟩
    exact List.forall_mem_singleton.2 hq'.2
  · intro _ q hq n node title type out hn hkind hout
    refine hq n (List.mem_filter.2 ⟨Graph.mem_nodeIds.2 ⟨node, hn⟩, ?_⟩) node title type out hn
      hkind hout
    simp [Graph.capabilities, Graph.kind?, hn, hkind, Graph.kindCapabilities]

/-- What generation relies on: members and locals have names, and a job stands for a node and holds
outputs that something reads. -/
structure Complete (g : Graph) (p : Plan) : Prop where
  members : ∀ m x, g.member? m = some x → ∃ name, p.symbols.get? (.member m) = some name
  locals : ∀ n, NamesLocal g n p
  jobs : ∀ j ∈ p.jobs, ∃ node, g.node? j.node = some node
  sources : ∀ j ∈ p.jobs, ∀ f ∈ j.fields, ∀ r, f.source = .port r → ∃ e ∈ g.live, e.source = r

/-- A plan that is made is complete. -/
theorem complete_make (hg : g.Reachable) (h : Plan.make g = .ok p) : Complete g p := by
  have hE : Excuses g fun _ => True := fun _ _ => trivial
  obtain ⟨q, r, hclaim, hname, hdescribe⟩ := make_eq_ok h
  have hstart := (proceeds_claims (E := fun _ => True) hg).ensures _ _ q hclaim
  have hnames := (proceeds_names hg hE).ensures _ _ r hname
  have hend := (proceeds_forM fun b _ => proceeds_describe hE fun _ _ _ => trivial).ensures _ _ p
    hdescribe
  refine ⟨fun m x hm => ?_, fun n => ?_, fun j hj => ?_, fun j hj f hf s hs => ?_⟩
  · obtain ⟨name, hbound⟩ := exists_memberSymbol hm
    exact ⟨name, hend _ _ (hnames _ _ (hstart _ _ hbound))⟩
  · exact (ensures_names_namesLocal hg _ r hname n).keeps hend
  · obtain ⟨b, -, hserves, ⟨node, -, hnode, -⟩, -⟩ := exists_serves h hj
    exact ⟨node, hserves.node ▸ hnode⟩
  · obtain ⟨b, -, hserves, -, ha⟩ := exists_serves h hj
    obtain ⟨inputs, hcrossing⟩ := hserves.sources f hf s hs
    obtain ⟨i, hi⟩ := List.exists_mem_of_ne_nil _ ((Boundary.mem_crossings ha).1 hcrossing).1
    obtain ⟨e, he, hsource, -⟩ :=
      (Boundary.reads_of_mem_crossings hg.invariant ha hcrossing hi).live
    exact ⟨e, he, hsource⟩

end Planning

end EntityFlow
