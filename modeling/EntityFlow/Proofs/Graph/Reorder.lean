import EntityFlow.Check
import EntityFlow.Boundary
import EntityFlow.Capability
import EntityFlow.Proofs.Graph.Invariant
import EntityFlow.Proofs.Graph.Threads
import Mathlib.Data.List.Sort

/-!
# The order of connections does not matter

The answers about connections are sorted, and two lists with the same members in the same
multiplicity have one sorted form.  So graphs whose nodes list the same connections answer alike.
Tables with the same entries may still have different vacant indices, also behind the last entry,
which no answer shows.  Everything else that is asked of a graph goes through these answers.
-/

namespace EntityFlow

namespace PortRef

theorem pairLe_antisymm {a b : PortRef × PortRef} (hab : pairLe a b = true)
    (hba : pairLe b a = true) : a = b := by
  have hfirst : a.1 = b.1 := le_antisymm (le_of_pairLe hab) (le_of_pairLe hba)
  rw [pairLe, if_pos hfirst] at hab
  rw [pairLe, if_pos hfirst.symm] at hba
  exact Prod.ext hfirst (le_antisymm hab hba)

end PortRef

/-- Sorting forgets the order. -/
theorem mergeSort_eq_of_perm {α : Type} {le : α → α → Bool}
    (htrans : ∀ a b c, le a b = true → le b c = true → le a c = true)
    (htotal : ∀ a b, (le a b || le b a) = true)
    (hantisymm : ∀ a b, le a b = true → le b a = true → a = b) {xs ys : List α} (h : xs.Perm ys) :
    xs.mergeSort le = ys.mergeSort le := by
  have hperm : (xs.mergeSort le).Perm (ys.mergeSort le) :=
    (List.mergeSort_perm xs le).trans (h.trans (List.mergeSort_perm ys le).symm)
  exact hperm.eq_of_pairwise (fun a b _ _ hab hba => hantisymm a b hab hba)
    (List.pairwise_mergeSort htrans htotal xs) (List.pairwise_mergeSort htrans htotal ys)

namespace Slots

variable {α : Type} {s t : Slots α} {i : Nat}

theorem mem_ids : i ∈ s.ids ↔ ∃ a, s.get? i = some a := by
  rw [ids, List.mem_filter, List.mem_range, contains_iff]
  exact and_iff_right_of_imp fun ⟨_, ha⟩ => lt_size_of_get? ha

/-- The entries, index by index. -/
theorem toList_eq_filterMap_ids : s.toList = s.ids.filterMap s.get? := by
  have hcells : s.cells.toList = (List.range s.size).map fun i => s.get? i := by
    refine List.ext_getElem (by simp [size]) fun i hi hi' => ?_
    have hlt : i < s.cells.size := by simpa using hi
    simp [get?, hlt]
  have hids : s.ids.filterMap s.get? = (List.range s.size).filterMap s.get? := by
    rw [ids, List.filterMap_filter]
    refine List.filterMap_congr fun i _ => ?_
    cases hi : s.get? i <;> simp [contains, hi]
  rw [toList, hids, hcells, List.filterMap_map]
  rfl

/-- Tables with the same entries differ in their vacant indices only. -/
theorem ids_eq_of_get? (h : ∀ i, t.get? i = s.get? i) : t.ids = s.ids := by
  have hordered : ∀ s : Slots α, s.ids.Pairwise (· < ·) := fun s => List.pairwise_lt_range.filter _
  refine (hordered t).eq_of_mem_iff (hordered s) fun i => ?_
  rw [mem_ids, mem_ids, h]

/-- Two tables with the same entries have the same number of them. -/
theorem count_eq_of_get? (h : ∀ i, t.get? i = s.get? i) : t.count = s.count := by
  rw [count, count, toList_eq_filterMap_ids, toList_eq_filterMap_ids, ids_eq_of_get? h, funext h]

end Slots

namespace Graph

variable {g g' : Graph} {n : NodeId}

/-- The same nodes, members, containers and settings, and the same connections in any order. -/
structure Reordered (g g' : Graph) : Prop where
  settings : g'.settings = g.settings
  containers : g'.containers = g.containers
  members : g'.members = g.members
  node : ∀ n, g'.node? n = g.node? n
  live : g'.live.Perm g.live

@[reducible] def rewire (g : Graph) (nodes : Slots Node) (edges : Slots Edge)
    (threads : Option Threads) : Graph :=
  { g with nodes, edges, threads }

/-- The answers about nodes and connections are the same after rewiring. -/
structure Rewired (g : Graph) (nodes : Slots Node) (edges : Slots Edge) (threads : Option Threads) :
    Prop where
  node? : (g.rewire nodes edges threads).node? = g.node?
  nodeIds : (g.rewire nodes edges threads).nodeIds = g.nodeIds
  bound : (g.rewire nodes edges threads).bound = g.bound
  sourcesOf : (g.rewire nodes edges threads).sourcesOf = g.sourcesOf
  targetsOf : (g.rewire nodes edges threads).targetsOf = g.targetsOf
  incoming : (g.rewire nodes edges threads).incoming = g.incoming
  outgoing : (g.rewire nodes edges threads).outgoing = g.outgoing

/-! ## From the same connections to the same answers -/

namespace Reordered

variable (h : g.Reordered g') (hg : g.Listed) (hg' : g'.Listed)

include h hg hg'

/-- The connections into a node are the same, in another order. -/
theorem edgesInto_perm (n : NodeId) : (g'.edgesInto n).Perm (g.edgesInto n) := by
  cases hn : g.node? n with
  | none =>
    have hn' : g'.node? n = none := (h.node n).trans hn
    simp [edgesInto, hn, hn']
  | some node =>
    have hn' : g'.node? n = some node := (h.node n).trans hn
    exact (hg'.inward n node hn').trans ((h.live.filter _).trans (hg.inward n node hn).symm)

/-- The connections out of a node are the same, in another order. -/
theorem edgesFrom_perm (n : NodeId) : (g'.edgesFrom n).Perm (g.edgesFrom n) := by
  cases hn : g.node? n with
  | none =>
    have hn' : g'.node? n = none := (h.node n).trans hn
    simp [edgesFrom, hn, hn']
  | some node =>
    have hn' : g'.node? n = some node := (h.node n).trans hn
    exact (hg'.outward n node hn').trans ((h.live.filter _).trans (hg.outward n node hn).symm)

/-- Sorting undoes the order of the sources. -/
theorem sourcesOf_eq : g'.sourcesOf = g.sourcesOf := by
  funext input
  exact mergeSort_eq_of_perm PortRef.le_trans PortRef.le_total (fun _ _ => PortRef.le_antisymm)
    (((h.edgesInto_perm hg hg' input.node).filter _).map _)

/-- Sorting undoes the order of the targets. -/
theorem targetsOf_eq : g'.targetsOf = g.targetsOf := by
  funext output
  exact mergeSort_eq_of_perm PortRef.le_trans PortRef.le_total (fun _ _ => PortRef.le_antisymm)
    (((h.edgesFrom_perm hg hg' output.node).filter _).map _)

theorem incoming_eq : g'.incoming = g.incoming := by
  funext n
  exact mergeSort_eq_of_perm PortRef.pairLe_trans PortRef.pairLe_total
    (fun _ _ => PortRef.pairLe_antisymm) ((h.edgesInto_perm hg hg' n).map _)

theorem outgoing_eq : g'.outgoing = g.outgoing := by
  funext n
  exact mergeSort_eq_of_perm PortRef.pairLe_trans PortRef.pairLe_total
    (fun _ _ => PortRef.pairLe_antisymm) ((h.edgesFrom_perm hg hg' n).map _)

omit hg hg' in
theorem ids_eq : g'.nodes.ids = g.nodes.ids := Slots.ids_eq_of_get? fun i => h.node ⟨i⟩

omit hg hg' in
/-- Nodes and connections reach equally far. -/
theorem bound_eq : g'.bound = g.bound := by
  have hends := h.live.flatMap_right fun e => [e.source.node.index, e.target.node.index]
  refine eq_of_forall_lt_iff fun k => ?_
  unfold bound
  simp only [lt_foldl_max, List.mem_append, h.ids_eq, hends.mem_iff]

/-- Nothing else differs. -/
theorem exists_rewire :
    ∃ nodes edges threads, g' = g.rewire nodes edges threads ∧ g.Rewired nodes edges threads := by
  have hshape : g' = g.rewire g'.nodes g'.edges g'.threads := by
    obtain ⟨nodes, edges, containers, members, settings, threads⟩ := g'
    obtain rfl := h.containers
    obtain rfl := h.members
    obtain rfl := h.settings
    rfl
  refine ⟨_, _, _, hshape, ?_⟩
  constructor
  · exact funext h.node
  · exact congrArg (List.map NodeId.mk) h.ids_eq
  · rw [← hshape, h.bound_eq]
  · rw [← hshape, h.sourcesOf_eq hg hg']
  · rw [← hshape, h.targetsOf_eq hg hg']
  · rw [← hshape, h.incoming_eq hg hg']
  · rw [← hshape, h.outgoing_eq hg hg']

end Reordered

/-! ## What is asked of nodes and connections -/

namespace Rewired

variable {nodes : Slots Node} {edges : Slots Edge} {threads : Option Threads}
  (h : g.Rewired nodes edges threads)

include h

theorem node : (g.rewire nodes edges threads).node = g.node := by
  funext n
  unfold Graph.node
  rw [h.node?]

theorem kind? : (g.rewire nodes edges threads).kind? = g.kind? := by
  funext n
  unfold Graph.kind?
  rw [h.node?]

theorem nodesWhere : (g.rewire nodes edges threads).nodesWhere = g.nodesWhere := by
  funext p
  unfold Graph.nodesWhere
  rw [h.nodeIds, h.kind?]

theorem nodesIn : (g.rewire nodes edges threads).nodesIn = g.nodesIn := by
  funext c
  unfold Graph.nodesIn
  rw [h.nodeIds, h.node?]

theorem port? : (g.rewire nodes edges threads).port? = g.port? := by
  funext r
  unfold Graph.port?
  rw [h.node?]

theorem portRef : (g.rewire nodes edges threads).portRef = g.portRef := by
  funext n name
  unfold Graph.portRef
  rw [h.node]

theorem portRef? : (g.rewire nodes edges threads).portRef? = g.portRef? := by
  funext n name
  unfold Graph.portRef?
  rw [h.portRef]

theorem portLabel : (g.rewire nodes edges threads).portLabel = g.portLabel := by
  funext r
  unfold Graph.portLabel
  rw [h.port?]

theorem enclosingFunction? :
    (g.rewire nodes edges threads).enclosingFunction? = g.enclosingFunction? := by
  funext n
  unfold Graph.enclosingFunction?
  rw [h.node?]

theorem executorsOf : (g.rewire nodes edges threads).executorsOf = g.executorsOf := by
  funext job
  unfold Graph.executorsOf
  rw [h.nodesWhere]

theorem jobDiscipline : (g.rewire nodes edges threads).jobDiscipline = g.jobDiscipline := by
  funext job
  unfold Graph.jobDiscipline
  rw [h.executorsOf, h.kind?]

theorem sourceOf? : (g.rewire nodes edges threads).sourceOf? = g.sourceOf? := by
  funext input
  rw [sourceOf?_eq_head?, h.sourcesOf, sourceOf?_eq_head?]

theorem isConnected : (g.rewire nodes edges threads).isConnected = g.isConnected := by
  funext r
  unfold Graph.isConnected
  rw [h.port?, h.sourcesOf, h.targetsOf]

theorem typeWithin (fuel : Nat) :
    (g.rewire nodes edges threads).typeWithin fuel = g.typeWithin fuel := by
  induction fuel with
  | zero => rfl
  | succ fuel ih =>
    funext r
    unfold Graph.typeWithin
    rw [ih, h.port?, h.kind?, h.portRef?, h.sourceOf?]

theorem inferType : (g.rewire nodes edges threads).inferType = g.inferType := by
  funext r
  unfold Graph.inferType
  rw [h.bound, h.typeWithin]

theorem capabilities : (g.rewire nodes edges threads).capabilities = g.capabilities := by
  funext n
  unfold Graph.capabilities
  rw [h.kind?]
  rfl

theorem nodesWith : (g.rewire nodes edges threads).nodesWith = g.nodesWith := by
  funext c
  unfold Graph.nodesWith
  rw [h.nodeIds, h.capabilities]

/-! ### Boundaries -/

theorem slotIds : (g.rewire nodes edges threads).slotIds = g.slotIds := by
  unfold Graph.slotIds
  rw [h.bound]

theorem feeders : (g.rewire nodes edges threads).feeders = g.feeders := by
  funext n
  unfold Graph.feeders
  rw [h.incoming]

theorem predecessors : (g.rewire nodes edges threads).predecessors = g.predecessors := by
  funext n
  unfold Graph.predecessors
  rw [h.slotIds, h.feeders]

theorem isValueInput : (g.rewire nodes edges threads).isValueInput = g.isValueInput := by
  funext input
  unfold Graph.isValueInput
  rw [h.port?]

theorem bodySteps : (g.rewire nodes edges threads).bodySteps = g.bodySteps := by
  funext n
  unfold Graph.bodySteps Graph.isPureNode
  rw [h.outgoing, h.port?, h.incoming, h.isValueInput, h.node?]

theorem bodyNodes : (g.rewire nodes edges threads).bodyNodes = g.bodyNodes := by
  funext n body before
  unfold Graph.bodyNodes
  rw [h.targetsOf, h.slotIds, h.bodySteps]

theorem valueReads : (g.rewire nodes edges threads).valueReads = g.valueReads := by
  funext ns
  unfold Graph.valueReads
  rw [h.incoming, h.isValueInput]

theorem target? : (g.rewire nodes edges threads).target? = g.target? := by
  funext n
  unfold Graph.target?
  rw [h.kind?]

theorem functionBody : (g.rewire nodes edges threads).functionBody = g.functionBody := by
  funext m
  unfold Graph.functionBody
  rw [h.nodesIn]
  rfl

theorem functionNodes : (g.rewire nodes edges threads).functionNodes = g.functionNodes := by
  funext fs
  unfold Graph.functionNodes
  rw [h.functionBody]

theorem referencedFunctions :
    (g.rewire nodes edges threads).referencedFunctions = g.referencedFunctions := by
  funext ns
  unfold Graph.referencedFunctions Graph.calledFunctions
  rw [h.target?, h.functionBody]
  rfl

theorem referencedProperties :
    (g.rewire nodes edges threads).referencedProperties = g.referencedProperties := by
  funext ns
  unfold Graph.referencedProperties
  rw [h.target?]
  rfl

theorem referencedVariables :
    (g.rewire nodes edges threads).referencedVariables = g.referencedVariables := by
  funext ns properties
  unfold Graph.referencedVariables
  rw [h.target?]
  rfl

/-- A boundary is analyzed alike. -/
theorem analyze? : Boundary.analyze? (g.rewire nodes edges threads) = Boundary.analyze? g := by
  funext n body
  unfold Boundary.analyze?
  rw [h.targetsOf, h.predecessors, h.bodyNodes, h.valueReads, h.referencedFunctions,
    h.functionNodes, h.referencedProperties, h.referencedVariables]

/-! ### Checks -/

theorem requireInput :
    Check.requireInput (g.rewire nodes edges threads) = Check.requireInput g := by
  funext n name
  unfold Check.requireInput
  rw [h.portRef?, h.sourceOf?]

theorem systemApi : Check.systemApi (g.rewire nodes edges threads) = Check.systemApi g := by
  funext n
  unfold Check.systemApi Check.inStaticFunction
  rw [h.enclosingFunction?]
  rfl

theorem assignment : Check.assignment (g.rewire nodes edges threads) = Check.assignment g := by
  funext n
  unfold Check.assignment
  rw [h.portRef?, h.sourceOf?, h.port?]

theorem entityNode : Check.entityNode (g.rewire nodes edges threads) = Check.entityNode g := by
  funext n kind
  unfold Check.entityNode
  rw [h.systemApi, h.requireInput, h.assignment]

/-- The check finds the same, in the same order. -/
theorem check : (g.rewire nodes edges threads).check = g.check := by
  unfold Graph.check Check.query Check.entity
  rw [h.nodeIds, h.kind?, h.entityNode]
  rfl

end Rewired

end Graph

end EntityFlow
