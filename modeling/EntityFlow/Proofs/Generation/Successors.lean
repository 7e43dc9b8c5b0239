import EntityFlow.Proofs.Generation.Values

/-!
# Walks along the flow

Flow leads from a node to its successors, once along every path.  A walk that comes back to a node
of the path behind it is cut there.  `cuts` lists the cuts below a node, and it has one exactly if
some node that the walk comes to lies on a cycle.  No path is longer than the number of nodes, so
the fuel that bounds the walk never ends it: the same walk by a machine with a stack, without fuel,
makes the same cuts and leaves the stack as it was.
-/

namespace EntityFlow

/-- The flow outputs along which flow goes on from nodes of a kind. -/
def NodeKind.onward : NodeKind → List String
  | .event _ | .functionEntry _ | .member _ | .setValue | .localVar _ _ | .executor _ _
  | .createEntity | .destroyEntity | .setComponent _ | .setComponentEnabled _ => [PortName.exit]
  | .branch => [PortName.onTrue, PortName.onFalse, PortName.exit]
  | .foreach spec => if spec.run.isDeferred then [PortName.exit] else [PortName.body, PortName.exit]
  | .ret | .literal _ | .operator _ _ | .getComponent _ | .jobEntity _ | .jobChunk _ => []

/-- Code goes on from some of the ports that it may be followed from. -/
theorem NodeKind.onward_subset_followed (kind : NodeKind) : kind.onward ⊆ kind.followed := by
  cases kind
  case «foreach» spec =>
    rw [onward, followed]
    split
    · exact List.subset_cons_self _ _
    · exact List.Subset.refl _
  all_goals simp [onward, followed]

namespace Graph

variable {g : Graph} {n m : NodeId} {node : Node} {name : String} {r : PortRef} {e : Edge}
  {path : List NodeId} {fuel : ℕ}

/-! ## Successors -/

/-- A connection leads to `m` from an output of `n` along which flow goes on. -/
def LeadsTo (g : Graph) (n m : NodeId) : Prop :=
  ∃ e ∈ g.live, ∃ node port, e.source.node = n ∧ e.target.node = m ∧ g.node? n = some node ∧
    g.port? e.source = some port ∧ port.isFlow ∧ port.name ∈ node.kind.onward

/-- The outputs along which flow goes on from a node, found by name. -/
def outlets (g : Graph) (n : NodeId) : List PortRef :=
  (((g.kind? n).map NodeKind.onward).getD []).filterMap (g.portRef? n)

def successors (g : Graph) (n : NodeId) : List NodeId :=
  (g.outlets n).flatMap fun r => (g.targetsOf r).map PortRef.node

/-- The walk goes from `n` to `m`. -/
def Follows (g : Graph) (n m : NodeId) : Prop := m ∈ g.successors n

theorem portRef?_eq_some : g.portRef? n name = some r ↔ g.portRef n name = .ok r := by
  unfold portRef?
  cases g.portRef n name <;> simp [Except.toOption]

/-- Code goes on from the ports that are named for the kind of the node. -/
theorem mem_outlets :
    r ∈ g.outlets n ↔ ∃ node, g.node? n = some node ∧
      ∃ name ∈ node.kind.onward, g.portRef n name = .ok r := by
  unfold outlets kind?
  cases g.node? n <;> simp [portRef?_eq_some]

/-- A node follows another if it is wired to one of the ports from which code goes on. -/
theorem follows_iff (h : g.Anchored) :
    g.Follows n m ↔ ∃ e ∈ g.live, e.source ∈ g.outlets n ∧ e.target.node = m := by
  simp only [Follows, successors, List.mem_flatMap, List.mem_map, h.mem_targetsOf]
  constructor
  · rintro ⟨r, hr, t, ⟨e, he, rfl, rfl⟩, rfl⟩
    exact ⟨e, he, hr, rfl⟩
  · rintro ⟨e, he, hr, rfl⟩
    exact ⟨e.source, hr, e.target, ⟨e, he, rfl, rfl⟩, rfl⟩

/-- If the ports of a node have different names, a name finds its port. -/
theorem portRef_of_port? {p : Port} (hn : g.node? r.node = some node)
    (hdistinct : (node.ports.map Port.name).Nodup) (hp : g.port? r = some p) :
    g.portRef r.node p.name = .ok r := by
  rw [port?_of_node hn, Node.port?] at hp
  exact portRef_eq_ok.2 ⟨node, r.port.toNat, hn, findIdx?_of_nodup hdistinct hp, by simp⟩

/-- In an orderly graph code goes where flow leads. -/
theorem Orderly.follows_eq (h : g.Orderly) : g.Follows = g.LeadsTo := by
  have hinvariant := h.reachable.invariant
  ext n m
  rw [follows_iff hinvariant.anchored]
  constructor
  · rintro ⟨e, he, hr, rfl⟩
    obtain ⟨node, hn, name, hname, hr⟩ := mem_outlets.1 hr
    have hport :=
      (h.reachable.laidOut hn).port?_followed hn (node.kind.onward_subset_followed hname) hr
      (hinvariant.joins_of_mem he) rfl
    exact ⟨e, he, node, _, node_of_portRef hr, rfl, hn, hport, rfl, hname⟩
  · rintro ⟨e, he, node, port, rfl, rfl, hn, hport, -, hname⟩
    refine ⟨e, he, mem_outlets.2 ⟨node, hn, port.name, hname, ?_⟩, rfl⟩
    exact portRef_of_port? hn (h.distinct _ _ hn) hport

/-! ## Cuts -/

/-- The nodes at which a walk is cut that comes to `n` along `path` and goes through at most `fuel`
nodes. -/
def cuts (g : Graph) : (fuel : ℕ) → (path : List NodeId) → NodeId → List NodeId
  | 0, _, _ => []
  | fuel + 1, path, n =>
      if n ∈ path then [n] else (g.successors n).flatMap (g.cuts fuel (n :: path))

def cutsFrom (g : Graph) (output : PortRef) : List NodeId :=
  (g.targetsOf output).flatMap fun t => g.cuts (g.bound + 1) [] t.node

/-- A walk along `path` has fuel for all the nodes that it can still come to. -/
structure Fuels (g : Graph) (fuel : ℕ) (path : List NodeId) : Prop where
  nodup : path.Nodup
  nodes : ∀ m ∈ path, ∃ node, g.node? m = some node
  enough : g.bound + 1 ≤ fuel + path.length

/-- At the start of a walk, fuel for one more than the bound is enough. -/
theorem fuels_nil (g : Graph) (k : ℕ) : g.Fuels (g.bound + 1 + k) [] :=
  ⟨List.nodup_nil, nofun, by simp⟩

theorem Fuels.pos (h : g.Fuels fuel path) : ∃ fuel', fuel = fuel' + 1 := by
  have hlength := length_le_bound h.nodup h.nodes
  have henough := h.enough
  exact ⟨fuel - 1, by omega⟩

/-- Going one node further takes a unit of fuel, and there is one for each node. -/
theorem Fuels.cons (h : g.Fuels (fuel + 1) path) (hn : g.node? n = some node) (hnew : n ∉ path) :
    g.Fuels fuel (n :: path) where
  nodup := List.nodup_cons.2 ⟨hnew, h.nodup⟩
  nodes := List.forall_mem_cons.2 ⟨⟨node, hn⟩, h.nodes⟩
  enough := by
    have henough := h.enough
    simp only [List.length_cons]
    omega

theorem exists_successor (h : g.Anchored) (hm : g.Follows n m) : ∃ node, g.node? m = some node := by
  obtain ⟨e, he, -, rfl⟩ := (follows_iff h).1 hm
  exact h.target e he

/-- Where a walk is cut, it has come back to. -/
theorem mem_cuts (hm : m ∈ g.cuts fuel path n) :
    Relation.ReflTransGen g.Follows n m ∧
      (m ∈ path ∨ Relation.TransGen g.Follows m m) := by
  induction fuel generalizing path n with
  | zero => cases hm
  | succ fuel ih =>
    rw [cuts] at hm
    split at hm
    · rename_i hn
      obtain rfl := List.mem_singleton.1 hm
      exact ⟨.refl, .inl hn⟩
    · obtain ⟨t, ht, hm⟩ := List.mem_flatMap.1 hm
      obtain ⟨hreach, hback⟩ := ih hm
      refine ⟨hreach.head ht, ?_⟩
      rcases hback with hmem | hcycle
      · rcases List.mem_cons.1 hmem with rfl | hmem
        · exact .inr (.head' ht hreach)
        · exact .inl hmem
      · exact .inr hcycle

/-! ### Walks without cuts -/

/-- Nothing is cut below `n`, if a walk comes there along `path`. -/
structure Clear (g : Graph) (path : List NodeId) (n : NodeId) : Prop where
  exist : ∃ node, g.node? n = some node
  clear : ∃ fuel, g.Fuels fuel path ∧ g.cuts fuel path n = []

theorem Clear.not_mem (h : g.Clear path n) : n ∉ path := by
  obtain ⟨fuel, hfuel, hcuts⟩ := h.clear
  obtain ⟨fuel, rfl⟩ := hfuel.pos
  intro hn
  simp [cuts, hn] at hcuts

/-- Off the cycles, the nodes ahead are not on the path either. -/
theorem Clear.step (h : g.Clear path n) (hg : g.Anchored) (hm : g.Follows n m) :
    g.Clear (n :: path) m := by
  obtain ⟨node, hn⟩ := h.exist
  have hnew := h.not_mem
  obtain ⟨fuel, hfuel, hcuts⟩ := h.clear
  obtain ⟨fuel, rfl⟩ := hfuel.pos
  rw [cuts, if_neg hnew, List.flatMap_eq_nil_iff] at hcuts
  exact ⟨exists_successor hg hm, fuel, hfuel.cons hn hnew, hcuts m hm⟩

/-- Off the cycles, one can go on as far as flow leads. -/
theorem Clear.run (h : g.Clear path n) (hg : g.Anchored)
    (hm : Relation.ReflTransGen g.Follows n m) :
    ∃ path', path ⊆ path' ∧ g.Clear path' m := by
  induction hm with
  | refl => exact ⟨path, List.Subset.refl _, h⟩
  | tail _ hstep ih =>
    obtain ⟨path', hsub, hclear⟩ := ih
    exact ⟨_ :: path', List.subset_cons_of_subset _ hsub, hclear.step hg hstep⟩

/-- A walk that is never cut comes to no cycle: going round, it would meet its own path. -/
theorem Clear.not_cycle (h : g.Clear path n) (hg : g.Anchored)
    (hm : Relation.ReflTransGen g.Follows n m) :
    ¬Relation.TransGen g.Follows m m := by
  intro hcycle
  obtain ⟨path', -, hclear⟩ := h.run hg hm
  obtain ⟨k, hfirst, hrest⟩ := Relation.TransGen.head'_iff.1 hcycle
  obtain ⟨path'', hsub, hback⟩ := (hclear.step hg hfirst).run hg hrest
  exact hback.not_mem (hsub (List.mem_cons_self ..))

/-- A cycle that can be reached is cut somewhere. -/
theorem exists_mem_cuts (hg : g.Anchored) (hn : g.node? n = some node) (hfuel : g.Fuels fuel [])
    (hm : Relation.ReflTransGen g.Follows n m)
    (hcycle : Relation.TransGen g.Follows m m) :
    ∃ k, k ∈ g.cuts fuel [] n := by
  by_contra hnone
  have hcuts : g.cuts fuel [] n = [] := List.eq_nil_iff_forall_not_mem.2 fun k hk => hnone ⟨k, hk⟩
  exact Clear.not_cycle ⟨⟨node, hn⟩, fuel, hfuel, hcuts⟩ hg hm hcycle

/-! ## The walk with a stack -/

/-- What a walk has still to do. -/
inductive Task where
  | visit (n : NodeId)
  | leave (n : NodeId)

/-- The nodes that are being generated, the tasks ahead, and the cuts so far. -/
structure Walk where
  stack : List NodeId
  tasks : List Task
  met : List NodeId

inductive Walk.Step (g : Graph) : Walk → Walk → Prop
  | cut {n : NodeId} {stack met : List NodeId} {rest : List Task} (h : n ∈ stack) :
      Step g ⟨stack, .visit n :: rest, met⟩ ⟨stack, rest, met ++ [n]⟩
  | enter {n : NodeId} {stack met : List NodeId} {rest : List Task} (h : n ∉ stack) :
      Step g ⟨stack, .visit n :: rest, met⟩
        ⟨n :: stack, (g.successors n).map .visit ++ .leave n :: rest, met⟩
  | leave {n : NodeId} {stack met : List NodeId} {rest : List Task} :
      Step g ⟨n :: stack, .leave n :: rest, met⟩ ⟨stack, rest, met⟩

abbrev Walk.Run (g : Graph) : Walk → Walk → Prop := Relation.ReflTransGen (Walk.Step g)

/-- Visits one after another, each of which leaves the stack as it was. -/
theorem Walk.run_visits {stack : List NodeId} (cut : NodeId → List NodeId) (ns : List NodeId)
    (h : ∀ n ∈ ns, ∀ rest met,
      Walk.Run g ⟨stack, .visit n :: rest, met⟩ ⟨stack, rest, met ++ cut n⟩)
    (rest : List Task) (met : List NodeId) :
    Walk.Run g ⟨stack, ns.map .visit ++ rest, met⟩ ⟨stack, rest, met ++ ns.flatMap cut⟩ := by
  induction ns generalizing met with
  | nil => simpa using Relation.ReflTransGen.refl
  | cons n ns ih =>
    have hfirst := h n (List.mem_cons_self ..) (ns.map .visit ++ rest) met
    have hrest := ih (fun m hm => h m (List.mem_cons_of_mem _ hm)) (met ++ cut n)
    rw [List.flatMap_cons, ← List.append_assoc]
    exact hfirst.trans hrest

/-- The walk that visits a node meets what the recursion cuts from that node on. -/
theorem Walk.run_visit (hg : g.Anchored) (hn : g.node? n = some node) (hfuel : g.Fuels fuel path)
    (rest : List Task) (met : List NodeId) :
    Walk.Run g ⟨path, .visit n :: rest, met⟩ ⟨path, rest, met ++ g.cuts fuel path n⟩ := by
  induction fuel generalizing path n node rest met with
  | zero =>
    obtain ⟨fuel, hpos⟩ := hfuel.pos
    cases hpos
  | succ fuel ih =>
    rw [cuts]
    split
    · exact .single (.cut ‹_›)
    · rename_i hnew
      have hvisits := Walk.run_visits (g.cuts fuel (n :: path)) (g.successors n)
        (fun m hm rest met => by
          obtain ⟨node', hm'⟩ := exists_successor hg hm
          exact ih hm' (hfuel.cons hn hnew) rest met) (.leave n :: rest) met
      exact (Relation.ReflTransGen.single (.enter hnew)).trans (hvisits.tail .leave)

def Walk.start (g : Graph) (output : PortRef) : Walk :=
  ⟨[], (g.targetsOf output).map fun t => .visit t.node, []⟩

/-- The walk from an output ends, and has met what the recursion cuts. -/
theorem Walk.run_start (hg : g.Anchored) (output : PortRef) :
    Walk.Run g (.start g output) ⟨[], [], g.cutsFrom output⟩ := by
  have hvisits := Walk.run_visits (g.cuts (g.bound + 1) [])
    ((g.targetsOf output).map PortRef.node) (fun n hn rest met => by
      obtain ⟨t, ht, rfl⟩ := List.mem_map.1 hn
      obtain ⟨e, he, -, rfl⟩ := hg.mem_targetsOf.1 ht
      obtain ⟨node, hnode⟩ := hg.target e he
      exact Walk.run_visit hg hnode (g.fuels_nil 0) rest met) [] []
  rw [List.map_map, List.flatMap_map, List.append_nil, List.nil_append] at hvisits
  exact hvisits

/-- A walk has one next step at most. -/
theorem Walk.rightUnique_step : Relator.RightUnique (Walk.Step g) := by
  rintro w v v' (⟨h⟩ | ⟨h⟩ | ⟨⟩) (⟨h'⟩ | ⟨h'⟩ | ⟨⟩)
  · rfl
  · exact absurd h h'
  · exact absurd h' h
  · rfl
  · rfl

theorem Walk.not_step_done {stack met : List NodeId} {w : Walk} : ¬Walk.Step g ⟨stack, [], met⟩ w :=
  nofun

/-- A walk that ends has no infinite continuation. -/
theorem Walk.acc_of_run {w : Walk} {stack met : List NodeId} (h : Walk.Run g w ⟨stack, [], met⟩) :
    Acc (fun w v => Walk.Step g v w) w := by
  induction h using Relation.ReflTransGen.head_induction_on with
  | refl => exact ⟨_, fun _ h => absurd h Walk.not_step_done⟩
  | head hstep _ ih => exact ⟨_, fun _ h => Walk.rightUnique_step hstep h ▸ ih⟩

/-- Every walk from the output is finite, and however far it has gone, it goes on to an end at which
nothing is on the stack and it was cut at `met`. -/
structure Walked (g : Graph) (output : PortRef) (met : List NodeId) : Prop where
  finite : Acc (fun w v => Walk.Step g v w) (.start g output)
  ends : ∀ w, Walk.Run g (.start g output) w → Walk.Run g w ⟨[], [], met⟩

/-- What the recursion cuts is what the walk meets. -/
theorem walked_cutsFrom (hg : g.Anchored) (output : PortRef) :
    g.Walked output (g.cutsFrom output) := by
  have hrun := Walk.run_start hg output
  refine ⟨Walk.acc_of_run hrun, fun w hw => ?_⟩
  rcases Relation.ReflTransGen.total_of_right_unique Walk.rightUnique_step hw hrun with h | h
  · exact h
  · cases h using Relation.ReflTransGen.head_induction_on with
    | refl => exact .refl
    | head hstep _ => exact absurd hstep Walk.not_step_done

end Graph

end EntityFlow
