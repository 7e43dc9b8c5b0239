import EntityFlow.Proofs.Planning.Holdings

/-!
# What outputs read as

Outputs are bound while nodes are named, and a node binds none but its own outputs.  The outputs of
members are never bound.  A loop that runs where it stands binds an output for each of its items,
and what it binds an item to is what the output reads as in the end, provided that its ports can be
told apart: by name, and by position, which is a 16-bit word.
-/

namespace EntityFlow.Planning

open Naming

variable {α β : Type} {g : Graph} {p q : Plan} {n : NodeId} {node : Node} {r : PortRef}
  {S T : PortRef → Prop}

/-- Every successful run of `m` binds outputs in `S` only, before those that are bound already. -/
def Binds (S : PortRef → Prop) (m : Planning α) : Prop :=
  ∀ p, Ensures p m fun _ q => ∃ new, q.bindings = new ++ p.bindings ∧ ∀ x ∈ new, S x.1

/-- Nothing is bound where the bindings are the same. -/
theorem exists_new_of_eq (h : q.bindings = p.bindings) :
    ∃ new, q.bindings = new ++ p.bindings ∧ ∀ x ∈ new, S x.1 :=
  ⟨[], h, List.forall_mem_nil _⟩

section Rules

variable {m : Planning α} {f : α → Planning β}

/-- More outputs may be bound than are. -/
theorem Binds.mono (h : Binds S m) (hST : ∀ r, S r → T r) : Binds T m := by
  refine fun p => (h p).mono ?_
  rintro _ q ⟨new, hq, hnew⟩
  exact ⟨new, hq, fun x hx => hST _ (hnew x hx)⟩

theorem binds_pure (a : α) : Binds S (pure a : Planning α) :=
  fun _ => ensures_pure.2 (exists_new_of_eq rfl)

theorem binds_throw (e : CompileError) : Binds S (throw e : Planning α) := fun _ => ensures_throw

/-- Bindings of two parts are those of the first and of the second. -/
theorem binds_bind (hm : Binds S m) (hf : ∀ a, Binds S (f a)) : Binds S (m >>= f) := by
  refine fun p => ensures_bind.2 ((hm p).mono ?_)
  rintro a q ⟨new, hq, hnew⟩
  refine (hf a q).mono ?_
  rintro _ r ⟨new', hr, hnew'⟩
  refine ⟨new' ++ new, by rw [hr, hq, List.append_assoc], ?_⟩
  exact List.forall_mem_append.2 ⟨hnew', hnew⟩

theorem binds_get {f : Plan → Planning β} (hf : ∀ p, Binds S (f p)) : Binds S (get >>= f) :=
  binds_bind (fun _ => ensures_get.2 (exists_new_of_eq rfl)) hf

theorem binds_modify {h : Plan → Plan} (hh : ∀ p, (h p).bindings = p.bindings) :
    Binds S (modify h) :=
  fun p => ensures_modify.2 (exists_new_of_eq (hh p))

theorem binds_ofGraph (x : Except GraphError α) : Binds S (ofGraph x) := by
  cases x with
  | ok a => exact binds_pure a
  | error e => exact binds_throw _

theorem binds_portRef_bind {name : String} {f : PortRef → Planning β}
    (hf : ∀ r, g.portRef n name = .ok r → Binds S (f r)) :
    Binds S (ofGraph (g.portRef n name) >>= f) :=
  fun p => ensures_bind.2 (ensures_ofGraph.2 fun r hr => hf r hr p)

theorem binds_foldlM {xs : List α} {step : β → α → Planning β} {b : β}
    (h : ∀ b, ∀ x ∈ xs, Binds S (step b x)) : Binds S (xs.foldlM step b) := by
  induction xs generalizing b with
  | nil => exact binds_pure b
  | cons x xs ih =>
    rw [List.foldlM_cons]
    exact binds_bind (h b x List.mem_cons_self) fun b => ih fun b y hy =>
      h b y (List.mem_cons_of_mem x hy)

theorem binds_forM {xs : List α} {step : α → Planning PUnit} (h : ∀ x ∈ xs, Binds S (step x)) :
    Binds S (xs.forM step) := by
  rw [forM_eq_foldlM]
  exact binds_foldlM fun _ => h

end Rules

theorem binds_report (owner : Owner) (problem : Problem) : Binds S (report owner problem) :=
  binds_modify fun _ => rfl

theorem binds_register (key : SymbolKey) (hint : String) : Binds S (register key hint) := by
  intro p
  simp only [register, ensures_bind, ensures_get, ensures_set, ensures_pure]
  exact exists_new_of_eq rfl

theorem binds_fresh (hint : String) : Binds S (fresh hint) := by
  intro p
  simp only [fresh, ensures_bind, ensures_get, ensures_set, ensures_pure]
  exact exists_new_of_eq rfl

theorem binds_bindOutput (b : Binding) (h : S r) : Binds S (bindOutput r b) :=
  fun _ => ensures_modify.2 ⟨[(r, b)], rfl, List.forall_mem_singleton.2 h⟩

theorem binds_requireUpdate : Binds S (requireUpdate g) := by
  unfold requireUpdate
  split
  · exact binds_pure _
  · exact binds_throw _

theorem binds_rootHandle (h : Handle) : Binds S (rootHandle g h) := by
  refine binds_get fun p => ?_
  split
  · exact binds_register _ _
  · refine binds_bind binds_requireUpdate fun _ => binds_bind (binds_register _ _) fun name => ?_
    refine binds_bind (binds_modify fun _ => rfl) fun _ => ?_
    exact binds_bind (binds_modify fun _ => rfl) fun _ => binds_pure name

/-! ## Claiming and describing bind nothing -/

theorem binds_claimBody (port : String) : Binds S (claimBody g n port) := by
  refine binds_bind (binds_ofGraph _) fun body => ?_
  split
  · exact binds_modify fun _ => rfl
  · exact binds_report _ _

theorem binds_claim (n : NodeId) : Binds S (claim g n) := by
  refine binds_bind (binds_ofGraph _) fun node => ?_
  split
  · exact binds_bind (binds_register _ _) fun _ => binds_claimBody _
  · exact binds_bind (binds_register _ _) fun _ => binds_claimBody _
  · exact binds_bind (binds_register _ _) fun _ => binds_claimBody _
  · exact binds_pure _

theorem binds_addVariable (j : Job) (i : Nat) (v : JobVariable) :
    Binds S (addVariable g j i v) := by
  unfold addVariable
  split
  · exact binds_pure _
  · exact binds_bind (binds_register _ _) fun _ => binds_pure _

theorem binds_captureName (source : PortRef) (port : Port) :
    Binds S (captureName g n source port) := by
  refine binds_get fun p => ?_
  split
  · exact binds_pure _
  · exact binds_register _ _

theorem binds_giveUp (input : PortRef) (problem : Problem) :
    Binds S (report (.node input.node) problem >>= fun _ => markUnavailable input) :=
  binds_bind (binds_report _ _) fun _ => binds_modify fun _ => rfl

theorem binds_addCrossing (j : Job) (source : PortRef) (inputs : List PortRef) :
    Binds S (addCrossing g j source inputs) := by
  have hredirect : ∀ rs (j' : Job), Binds S (do
      modify fun p : Plan => { p with redirects := rs ++ p.redirects }
      return j') := fun rs j' => binds_bind (binds_modify fun _ => rfl) fun _ => binds_pure _
  unfold addCrossing
  split
  · exact binds_pure _
  · split
    · exact binds_bind (binds_forM fun input _ => binds_giveUp input _) fun _ => binds_pure _
    · refine binds_bind (binds_captureName _ _) fun name => ?_
      dsimp only
      split
      · exact hredirect _ _
      · exact binds_bind (binds_report _ _) fun _ => hredirect _ _

theorem binds_inspect (b : Boundary) (j : Job) (n : NodeId) : Binds S (inspect g b j n) := by
  unfold inspect
  split
  · unfold addLookup
    split
    · exact binds_pure _
    · exact binds_bind (binds_fresh _) fun _ => binds_pure _
  · refine binds_get fun p => ?_
    split
    · exact binds_bind (binds_report _ _) fun _ => binds_pure _
    · exact binds_pure _
  · exact binds_pure _

theorem binds_addCommandBuffer (j : Job) : Binds S (addCommandBuffer (rootHandle g) g j) := by
  refine binds_bind (binds_rootHandle _) fun name => ?_
  split
  · exact binds_pure _
  · dsimp only
    split
    · exact binds_bind (binds_register _ _) fun _ => binds_pure _
    · exact binds_get fun _ => binds_pure _

theorem binds_equip (b : Boundary) (bare : Job) : Binds S (equip (rootHandle g) g b bare) := by
  refine binds_bind (binds_foldlM fun j x _ => binds_addVariable j _ _) fun j => ?_
  refine binds_bind (binds_foldlM fun j x _ => binds_addCrossing j _ _) fun j => ?_
  refine binds_bind (binds_forM fun x _ => binds_giveUp x.1 _) fun _ => binds_get fun p => ?_
  refine binds_bind (binds_foldlM fun j n _ => binds_inspect b j n) fun j => ?_
  split
  · exact binds_addCommandBuffer j
  · exact binds_pure j

theorem binds_describe (b : Boundary) : Binds S (describe (rootHandle g) g b) := by
  refine fun p => ensures_describe fun bare usings _ => ?_
  exact (binds_equip b bare { p with usings := usings }).mono fun j q hq => hq

/-! ## A node binds its own outputs -/

section Naming

theorem binds_nameOutput (hint : String) (h : S r) : Binds S (nameOutput r hint) :=
  binds_bind (binds_register _ _) fun _ => binds_bindOutput _ h

/-- Naming the outputs of a node binds its own outputs. -/
theorem binds_nameOutputs (n : NodeId) (node : Node) :
    Binds (fun r => r.node = n) (nameOutputs n node) := by
  refine binds_forM fun x _ => ?_
  dsimp only
  split
  · exact binds_nameOutput _ rfl
  · exact binds_pure _

theorem binds_nameTime (n : NodeId) (port expression : String) :
    Binds (fun r => r.node = n) (nameTime g n port expression) := by
  refine binds_portRef_bind fun output houtput => ?_
  split
  · refine binds_bind (binds_register _ _) fun name => ?_
    refine binds_bind binds_requireUpdate fun _ => ?_
    exact binds_bind (binds_modify fun _ => rfl)
      fun _ => binds_bindOutput _ (Graph.node_of_portRef houtput)
  · exact binds_pure _

theorem binds_nameEvent (n : NodeId) (e : Lifecycle) :
    Binds (fun r => r.node = n) (nameEvent (rootHandle g) g n e) := by
  refine binds_portRef_bind fun state hstate => ?_
  refine binds_bind (binds_bindOutput _ (Graph.node_of_portRef hstate)) fun _ => ?_
  split
  · refine binds_bind (binds_nameTime n _ _) fun _ => binds_bind (binds_nameTime n _ _) fun _ => ?_
    refine binds_portRef_bind fun manager hmanager => ?_
    split
    · exact binds_bind (binds_rootHandle _)
        fun _ => binds_bindOutput _ (Graph.node_of_portRef hmanager)
    · exact binds_pure _
  · exact binds_pure _

theorem binds_nameEntry (n : NodeId) (f : MemberId) :
    Binds (fun r => r.node = n) (nameEntry g n f) := by
  refine binds_forM fun x _ => binds_portRef_bind fun output houtput => binds_get fun p => ?_
  split
  · exact binds_bindOutput _ (Graph.node_of_portRef houtput)
  · exact binds_pure _

/-- Naming an item binds the port that its name finds. -/
theorem binds_nameItem (n : NodeId) (item : QueryItem) :
    Binds (fun r => g.portRef n item.name = .ok r) (nameItem g n item) :=
  binds_portRef_bind fun _ houtput =>
    binds_bind (binds_register _ _) fun _ => binds_bindOutput _ houtput

theorem binds_nameForeach (n : NodeId) (node : Node) (spec : ForeachSpec) :
    Binds (fun r => r.node = n) (nameForeach g n node spec) := by
  have hitems : Binds (fun r => r.node = n) (spec.items.forM (nameItem g n)) :=
    binds_forM fun item _ => (binds_nameItem n item).mono fun _ => Graph.node_of_portRef
  unfold nameForeach
  split
  · refine binds_bind (binds_nameOutputs n node) fun _ => binds_get fun p => ?_
    split
    · exact binds_bind (binds_register _ _) fun _ => binds_pure _
    · exact binds_pure _
  · dsimp only
    split
    · refine binds_portRef_bind fun output houtput => ?_
      exact binds_bind (binds_nameOutput _ (Graph.node_of_portRef houtput)) fun _ => hitems
    · exact hitems

theorem binds_nameExecutor (n : NodeId) (runWith : Discipline) (job : Option NodeId) :
    Binds (fun r => r.node = n) (nameExecutor g n runWith job) := by
  have hrest : Binds (fun r => r.node = n) (do
      let handle ← ofGraph (g.portRef n PortName.jobHandle)
      if g.isConnected handle then
        if runWith = .run then
          report (.node n) .runHasNoJobHandle
          bindOutput handle (.fixed (.ident "default(JobHandle)"))
        else nameOutput handle PortName.jobHandle) := by
    refine binds_portRef_bind fun handle hhandle => ?_
    split
    · split
      · exact binds_bind (binds_report _ _)
          fun _ => binds_bindOutput _ (Graph.node_of_portRef hhandle)
      · exact binds_nameOutput _ (Graph.node_of_portRef hhandle)
    · exact binds_pure _
  refine binds_get fun p => ?_
  dsimp only
  split
  · exact binds_bind (binds_register _ _) fun _ => hrest
  · exact hrest

theorem binds_nameEntityNode (n : NodeId) (h : Handle) :
    Binds S (nameEntityNode (rootHandle g) g n h) := by
  refine binds_get fun p => ?_
  split
  · exact binds_bind (binds_rootHandle _) fun _ => binds_pure _
  · exact binds_pure _

/-- Naming a node binds its own outputs. -/
theorem binds_nameNode (n : NodeId) :
    Binds (fun r => r.node = n) (nameNode (rootHandle g) g n) := by
  refine binds_bind (binds_ofGraph _) fun node => ?_
  split
  · exact binds_nameEvent n _
  · exact binds_nameEntry n _
  · exact binds_portRef_bind fun _ houtput => binds_nameOutput _ (Graph.node_of_portRef houtput)
  · exact binds_nameForeach n node _
  · exact binds_nameOutputs n node
  · exact binds_nameOutputs n node
  · exact binds_nameExecutor n _ _
  · refine binds_portRef_bind fun _ houtput => ?_
    exact binds_bind (binds_nameOutput _ (Graph.node_of_portRef houtput))
      fun _ => binds_nameEntityNode n _
  · exact binds_nameEntityNode n _
  · exact binds_nameEntityNode n _
  · exact binds_nameEntityNode n _
  · exact binds_nameEntityNode n _
  · exact binds_pure _

end Naming

/-! ## Whole plans -/

/-- An output that no entry is for is not bound. -/
theorem lookup_eq_none_of_forall {bs : List (PortRef × Binding)} (h : ∀ x ∈ bs, x.1 ≠ r) :
    bs.lookup r = none := by
  rw [List.lookup_eq_none_iff]
  exact fun x hx => bne_iff_ne.2 (Ne.symm (h x hx))

/-- An output keeps what it reads as while others are bound. -/
theorem Binds.binding? {m : Planning α} (h : Binds S m) (hr : ¬S r) (p : Plan) :
    Ensures p m fun _ q => q.binding? r = p.binding? r := by
  refine (h p).mono ?_
  rintro _ q ⟨new, hq, hnew⟩
  have hnone : new.lookup r = none := lookup_eq_none_of_forall fun x hx hxr => hr (hxr ▸ hnew x hx)
  rw [Plan.binding?, hq, List.lookup_append, hnone, Option.none_or, Plan.binding?]

/-- Only nodes that are named bind outputs. -/
theorem node_mem_of_bound (hp : Plan.make g = .ok p) :
    ∀ x ∈ p.bindings, x.1.node ∈ g.nodesWith .init := by
  obtain ⟨q, r, hclaim, hname, hdescribe⟩ := make_eq_ok hp
  have hclaims : Binds (fun _ => False) ((g.nodesWith .preInit).forM (claim g)) :=
    binds_forM fun n _ => binds_claim n
  have hnames : Binds (fun r => r.node ∈ g.nodesWith .init)
      ((g.nodesWith .init).forM (nameNode (rootHandle g) g)) :=
    binds_forM fun n hn => (binds_nameNode n).mono fun _ hr => hr ▸ hn
  have hdescribes : Binds (fun _ => False) (r.boundaries.forM (describe (rootHandle g) g)) :=
    binds_forM fun b _ => binds_describe b
  obtain ⟨claimed, hq, hclaimed⟩ := hclaims _ _ q hclaim
  obtain ⟨named, hr, hnamed⟩ := hnames _ _ r hname
  obtain ⟨described, hp, hdescribed⟩ := hdescribes _ _ p hdescribe
  rw [hp, hr, hq]
  refine List.forall_mem_append.2 ⟨fun x hx => (hdescribed x hx).elim,
    List.forall_mem_append.2 ⟨hnamed, ?_⟩⟩
  exact List.forall_mem_append.2 ⟨fun x hx => (hclaimed x hx).elim, List.forall_mem_nil _⟩

/-- Members are read or called where they are used. -/
theorem binding?_member {target : MemberTarget} (hp : Plan.make g = .ok p)
    (hn : g.kind? r.node = some (.member target)) : p.binding? r = none := by
  refine lookup_eq_none_of_forall fun x hx hxr => ?_
  obtain ⟨-, hinit⟩ := List.mem_filter.1 (node_mem_of_bound hp x hx)
  rw [hxr, Graph.capabilities, hn] at hinit
  simp only [Option.map_some, Option.getD_some, Graph.kindCapabilities] at hinit
  split at hinit
  · exact absurd hinit (by decide)
  · exact absurd hinit (by decide)

/-! ## Items of loops -/

/-- Two names of ports that are found at one position are the same, if there are not too many
ports. -/
theorem portRef_inj {a b : String} (hn : g.node? n = some node)
    (hsize : node.ports.length ≤ 0x1_0000)
    (ha : g.portRef n a = .ok r) (hb : g.portRef n b = .ok r) : a = b := by
  obtain ⟨node', i, hnode, hi, rfl⟩ := Graph.portRef_eq_ok.1 ha
  obtain rfl := Option.some.inj (hn.symm.trans hnode)
  obtain ⟨node', j, hnode', hj, heq⟩ := Graph.portRef_eq_ok.1 hb
  obtain rfl := Option.some.inj (hn.symm.trans hnode')
  obtain ⟨hlti, hnamei, -⟩ := List.findIdx?_eq_some_iff_getElem.1 hi
  obtain ⟨hltj, hnamej, -⟩ := List.findIdx?_eq_some_iff_getElem.1 hj
  have hword : (UInt16.ofNat i).toNat = (UInt16.ofNat j).toNat :=
    congrArg (fun r : PortRef => r.port.toNat) heq
  rw [UInt16.toNat_ofNat_of_lt' (Nat.lt_of_lt_of_le hlti hsize),
    UInt16.toNat_ofNat_of_lt' (Nat.lt_of_lt_of_le hltj hsize)] at hword
  subst hword
  exact (beq_iff_eq.1 hnamei).symm.trans (beq_iff_eq.1 hnamej)

def itemBinding (name : String) : ItemAccess → Binding
  | .readWrite => .wrapper name
  | .readOnly => .fixed (.access (.ident name) "ValueRO")
  | .value => .fixed (.ident name)

/-- The output that is found by the name of the item reads as what the item is bound to. -/
def BindsItem (g : Graph) (n : NodeId) (p : Plan) (item : QueryItem) : Prop :=
  ∀ r, g.portRef n item.name = .ok r →
    ∃ name, p.symbols.get? (.port r) = some name ∧
    p.binding? r = some (itemBinding name item.access)

/-- Steps that bind other outputs and keep all names leave the item as it is. -/
theorem BindsItem.ensures {m : Planning α} {item : QueryItem} (h : BindsItem g n p item)
    (hbinds : Binds S m) (hS : ∀ r, g.portRef n item.name = .ok r → ¬S r)
    (hgrows : Moves (fun p q => p.symbols.Grows q.symbols) m) :
    Ensures p m fun _ q => BindsItem g n q item := by
  intro a q hrun r hr
  obtain ⟨name, hname, hbound⟩ := h r hr
  refine ⟨name, (hgrows p a q hrun).keeps _ _ hname, ?_⟩
  rw [hbinds.binding? (hS r hr) p a q hrun, hbound]

/-- Naming an item binds its port to the name of the item. -/
theorem ensures_nameItem (item : QueryItem) :
    Ensures p (nameItem g n item) fun _ q => BindsItem g n q item := by
  refine ensures_bind.2 (ensures_ofGraph.2 fun r hr => ?_)
  simp only [register, bindOutput, ensures_bind, ensures_get, ensures_set, ensures_pure,
    ensures_modify]
  intro r' hr'
  obtain rfl := Except.ok.inj (hr.symm.trans hr')
  refine ⟨_, SymbolTable.get?_register _ _ _, ?_⟩
  cases haccess : item.access <;> simp [Plan.binding?, itemBinding]

/-- No item of these is found at the port of that one. -/
def Spares (g : Graph) (n : NodeId) (item : QueryItem) (items : List QueryItem) : Prop :=
  ∀ x ∈ items, ∀ r, g.portRef n item.name = .ok r → g.portRef n x.name ≠ .ok r

/-- The last item that is found at a port decides what the port reads as. -/
theorem ensures_nameItems {item : QueryItem} {after : List QueryItem}
    (hlast : Spares g n item after)
    (before : List QueryItem) : Ensures p ((before ++ item :: after).forM (nameItem g n)) fun _ q =>
      BindsItem g n q item := by
  have hsplit : (before ++ item :: after).forM (nameItem g n) = (do
      before.forM (nameItem g n)
      nameItem g n item
      after.forM (nameItem g n)) := by
    rw [List.forM_eq_forM, List.forM_append, List.forM_cons]
  rw [hsplit]
  refine ensures_bind.2 fun _ q _ =>
    ensures_bind.2 ((ensures_nameItem item).mono fun _ q' hbound => ?_)
  refine hbound.ensures (S := fun r => ∃ x ∈ after, g.portRef n x.name = .ok r)
    (binds_forM fun x hx => (binds_nameItem n x).mono fun r hr => ⟨x, hx, hr⟩) ?_
    ((lasting_grows g).moves_forM fun x => (lasting_grows g).moves_nameItem n x)
  rintro r hr ⟨x, hx, hfound⟩
  exact hlast x hx r hr hfound

/-- Distinct ports are told apart by name, unless there are too many of them. -/
theorem exists_spares {spec : ForeachSpec} {item : QueryItem} (hg : g.Reachable)
    (hn : g.node? n = some node) (hkind : node.kind = .foreach spec)
    (hnames : (node.ports.map Port.name).Nodup) (hsize : node.ports.length ≤ 0x1_0000)
    (hitem : item ∈ spec.items) :
    ∃ before after, spec.items = before ++ item :: after ∧ Spares g n item after := by
  have hitems : (spec.items.map QueryItem.name).Nodup := by
    obtain ⟨job, -, hl⟩ := hg.laidOut hn
    rw [hkind] at hl
    rw [← Except.ok.inj hl, Layout.ofForeach, List.map_append] at hnames
    have hlast := (List.nodup_append.1 hnames).2.1
    rwa [List.map_map] at hlast
  obtain ⟨before, after, hsplit⟩ := List.append_of_mem hitem
  refine ⟨before, after, hsplit, fun x hx r hr hfound => ?_⟩
  rw [hsplit, List.map_append, List.map_cons] at hitems
  refine (List.nodup_cons.1 (List.nodup_append.1 hitems).2.1).1 ?_
  rw [portRef_inj hn hsize hr hfound]
  exact List.mem_map_of_mem hx

section Loop

variable {spec : ForeachSpec} {item : QueryItem} {before after : List QueryItem}
  (hn : g.node? n = some node) (hkind : node.kind = .foreach spec)
  (hrun : spec.run.isDeferred = false)
  (hitems : spec.items = before ++ item :: after) (hlast : Spares g n item after)

include hn hkind hrun hitems hlast

/-- Naming a loop binds each item whose port no later item has. -/
theorem ensures_nameNode_item :
    Ensures p (nameNode (rootHandle g) g n) fun _ q => BindsItem g n q item := by
  obtain ⟨title, kind, container, ports⟩ := node
  obtain rfl : kind = .foreach spec := hkind
  have hall : ∀ q, Ensures q (spec.items.forM (nameItem g n))
      fun _ q' => BindsItem g n q' item := by
    rw [hitems]
    exact fun q => ensures_nameItems hlast before
  unfold nameNode
  rw [Graph.node_eq_ok.2 hn]
  change Ensures p (nameForeach g n _ spec) _
  unfold nameForeach
  rw [if_neg (by simp [hrun])]
  dsimp only
  split
  · exact ensures_bind.2 fun r q _ => ensures_bind.2 fun _ q' _ => hall q'
  · exact hall p

/-- What is bound to an item when its loop is named stays bound to it. -/
theorem binding?_item (hp : Plan.make g = .ok p) : BindsItem g n p item := by
  obtain ⟨q, q', -, hname, hdescribe⟩ := make_eq_ok hp
  have hinit : n ∈ g.nodesWith .init := by
    refine List.mem_filter.2 ⟨Graph.mem_nodeIds.2 ⟨node, hn⟩, ?_⟩
    simp [Graph.capabilities, Graph.kind?, hn, hkind, Graph.kindCapabilities, hrun]
  have hnamed : Ensures q ((g.nodesWith .init).forM (nameNode (rootHandle g) g)) fun _ q' =>
      n ∈ g.nodesWith .init → BindsItem g n q' item := by
    refine ensures_forM (J := fun done q' => n ∈ done → BindsItem g n q' item)
      (fun hnil => absurd hnil List.not_mem_nil) fun done m rest q₁ _ hJ => ?_
    by_cases hm : m = n
    · subst hm
      exact (ensures_nameNode_item hn hkind hrun hitems hlast).mono fun _ q₂ hq₂ _ => hq₂
    · intro a q₂ hstep hdone
      have hmem : n ∈ done := by simpa [Ne.symm hm] using hdone
      refine (hJ hmem).ensures (binds_nameNode m) (fun r hr hrm => hm ?_)
        ((lasting_grows g).moves_nameNode m (lasting_grows g).manager) a q₂ hstep
      rw [← hrm, Graph.node_of_portRef hr]
  exact (hnamed _ q' hname hinit).ensures (S := fun _ => False)
    (binds_forM fun b _ => binds_describe b) (fun _ _ => id)
    ((lasting_grows g).moves_forM (lasting_grows g).moves_describe) _ p hdescribe

end Loop

end EntityFlow.Planning
