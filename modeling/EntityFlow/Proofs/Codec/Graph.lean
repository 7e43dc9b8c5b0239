import EntityFlow.Codec.Graph
import EntityFlow.Proofs.Codec.Values
import EntityFlow.Proofs.Graph.Reachable
import EntityFlow.Proofs.Slots
import Mathlib.Data.List.Nodup
import Mathlib.Data.List.DropRight

/-!
# A graph survives being written and read

Nodes are written without the vacant indices and the vacant indices apart, connections with a `null`
for each vacant index, and neither table says anything of the vacant indices behind its last entry.
Reading puts the entries back where they were: the table that is read has exactly the cells of the
old one up to its last entry.

Only numbers that are not finite get lost, and a graph that holds one cannot be read at all.
-/

namespace EntityFlow

/-! ## Tables -/

namespace Slots

variable {α : Type} {s : Slots α} {cells : List (Option α)} {entries : List α} {holes : List Nat}
  {a : α} {i : Nat}

/-- Behind the last entry all cells are vacant. -/
theorem exists_trimmed_append (s : Slots α) :
    ∃ k, s.cells.toList = s.trimmed ++ List.replicate k none := by
  refine ⟨(s.cells.toList.reverse.takeWhile Option.isNone).length, ?_⟩
  have hvacant : (s.cells.toList.reverse.takeWhile Option.isNone).reverse =
      List.replicate (s.cells.toList.reverse.takeWhile Option.isNone).length none := by
    rw [List.eq_replicate_iff]
    refine ⟨List.length_reverse, fun b hb => ?_⟩
    have hall := List.all_takeWhile (p := Option.isNone) (l := s.cells.toList.reverse)
    exact Option.isNone_iff_eq_none.1 (List.all_eq_true.1 hall b (List.mem_reverse.1 hb))
  rw [← hvacant, trimmed, ← List.reverse_append, List.takeWhile_append_dropWhile,
    List.reverse_reverse]

/-- Trimming keeps every entry at its index. -/
theorem join_getElem?_trimmed (s : Slots α) (i : Nat) : s.trimmed[i]?.join = s.get? i := by
  obtain ⟨k, hk⟩ := s.exists_trimmed_append
  rw [get?, ← Array.getElem?_toList, hk, List.getElem?_append]
  split
  · rfl
  · rename_i hlt
    rw [List.getElem?_eq_none (Nat.le_of_not_lt hlt), List.getElem?_replicate]
    split <;> rfl

/-- Trimming keeps the entries and their order. -/
theorem filterMap_trimmed (s : Slots α) : s.trimmed.filterMap id = s.toList := by
  obtain ⟨k, hk⟩ := s.exists_trimmed_append
  have hnone : (List.replicate k (none : Option α)).filterMap id = [] := by
    rw [List.filterMap_eq_nil_iff]
    exact fun a ha => List.eq_of_mem_replicate ha
  rw [toList, hk, List.filterMap_append, hnone, List.append_nil]

theorem length_trimmed_le (s : Slots α) : s.trimmed.length ≤ s.size := by
  obtain ⟨k, hk⟩ := s.exists_trimmed_append
  rw [size, ← Array.length_toList, hk, List.length_append]
  exact Nat.le_add_right _ _

/-- An index in use is not cut off. -/
theorem lt_length_trimmed (h : s.get? i = some a) : i < s.trimmed.length := by
  refine Nat.lt_of_not_le fun hge => ?_
  rw [← join_getElem?_trimmed, List.getElem?_eq_none hge] at h
  exact absurd h nofun

/-! ### Tables with given cells -/

/-- An index of a table made from cells has what the cell at that index holds. -/
theorem get?_ofCells (cells : List (Option α)) (i : Nat) :
    (ofCells cells.toArray).get? i = cells[i]?.join := by
  rw [get?, ofCells, List.getElem?_toArray]

/-- A table that is made from its cells lists its vacant slots. -/
theorem coherent_ofCells (cells : Array (Option α)) : (ofCells cells).Coherent := by
  refine ⟨(List.nodup_reverse.2 (List.nodup_range.filter _)), fun i => ?_⟩
  simp only [ofCells, List.mem_reverse, List.mem_filter, List.mem_range]
  rcases h : cells[i]? with _ | _ | a
  · simp
  · simpa using (Array.getElem?_eq_some_iff.1 h).1
  · simp

/-- The cells up to the last entry end in an entry. -/
theorem trimmed_ofCells_trimmed (s : Slots α) :
    (ofCells s.trimmed.toArray).trimmed = s.trimmed := by
  change (s.cells.toList.rdropWhile Option.isNone).rdropWhile Option.isNone = _
  rw [List.rdropWhile_idempotent]
  rfl

theorem toList_ofCells_trimmed (s : Slots α) : (ofCells s.trimmed.toArray).toList = s.toList := by
  rw [← filterMap_trimmed, trimmed_ofCells_trimmed, filterMap_trimmed]

/-! ### Entries and holes -/

/-- The vacant indices among cells whose first one has index `i`. -/
def holesFrom (i : Nat) (cells : List (Option α)) : List Nat :=
  ((cells.zipIdx i).filter fun c => c.1.isNone).map fun c => c.2

theorem fill_cons (h : fill (i + 1) holes entries = some cells) :
    fill i holes (a :: entries) = some (some a :: cells) := by
  cases holes with
  | nil => simpa [fill] using h
  | cons hole holes =>
    rw [fill] at h
    split at h
    · rename_i hle
      obtain ⟨rest, hrest, heq⟩ := Option.bind_eq_some_iff.1 h
      cases heq
      have hsub : hole - i = hole - (i + 1) + 1 := by omega
      rw [fill, if_pos (by rw [List.length_cons]; omega), hsub]
      simp [hrest]
    · exact absurd h nofun

/-- Entries and holes together give back the cells. -/
theorem fill_holesFrom (cells : List (Option α)) (i : Nat) :
    fill i (holesFrom i cells) (cells.filterMap id) = some cells := by
  induction cells generalizing i with
  | nil => rfl
  | cons c rest ih =>
    cases c with
    | none =>
      have hholes : holesFrom i (none :: rest) = i :: holesFrom (i + 1) rest := by
        simp [holesFrom]
      rw [hholes, List.filterMap_cons_none rfl, fill, Nat.sub_self,
        if_pos ⟨i.le_refl, Nat.zero_le _⟩, List.drop_zero, ih (i + 1)]
      rfl
    | some a =>
      have hholes : holesFrom i (some a :: rest) = holesFrom (i + 1) rest := by
        simp [holesFrom]
      rw [hholes]
      exact fill_cons (ih (i + 1))

/-- The entries of a table and the list of its holes give back its cells. -/
theorem fill_holes (s : Slots α) : fill 0 s.holes s.toList = some s.trimmed := by
  rw [← filterMap_trimmed]
  exact fill_holesFrom s.trimmed 0

theorem lt_size_of_mem_holes (h : i ∈ s.holes) : i < s.size := by
  obtain ⟨c, hc, rfl⟩ := List.mem_map.1 h
  have hlt := (List.mem_zipIdx (List.mem_filter.1 hc).1).2.1
  have hle := s.length_trimmed_le
  omega

end Slots

/-! ## Connections and containers -/

/-- What is written of an edge kind is read as that kind. -/
theorem EdgeKind.ofJson?_toJson (k : EdgeKind) : ofJson? k.toJson = some k :=
  caseOf?_name (by decide) (by cases k <;> decide)

/-- A connection is read back if its nodes are numbers that fit. -/
theorem Edge.ofJson?_toJson {e : Edge} (hsource : e.source.node.fits)
    (htarget : e.target.node.fits) : ofJson? e.toJson = some e := by
  simp [toJson, ofJson?, connectionToJson, Json.record?_obj, portOfJson?_portToJson,
    EdgeKind.ofJson?_toJson, NodeId.ofJson?_toJson hsource, NodeId.ofJson?_toJson htarget]

def ContainerKind.fits : ContainerKind → Bool
  | .graph => true
  | .function m => m.fits

theorem ContainerKind.ofJson?_toJson {k : ContainerKind} (h : k.fits) :
    ofJson? k.toJson = some k := by
  cases k with
  | graph => rfl
  | function m => simp [toJson, ofJson?, Json.tagged, Json.variant?, MemberId.ofJson?_toJson h]

def Container.fits (c : Container) : Bool :=
  c.id.fits && c.kind.fits && c.parent.all ContainerId.fits && c.children.all ContainerId.fits

theorem Container.ofJson?_toJson {c : Container} (h : c.fits) : ofJson? c.toJson = some c := by
  simp only [fits, Bool.and_eq_true] at h
  obtain ⟨⟨⟨hid, hkind⟩, hparent⟩, hchildren⟩ := h
  have hparent : (Json.option ContainerId.toJson c.parent).toOption? ContainerId.ofJson? =
      some c.parent :=
    Json.toOption?_option_of_all (fun _ => nofun) (fun _ => ContainerId.ofJson?_toJson) hparent
  have hchildren : (Json.list ContainerId.toJson c.children).toList? ContainerId.ofJson? =
      some c.children :=
    Json.toList?_list_of_all (fun _ => ContainerId.ofJson?_toJson) hchildren
  simp [toJson, ofJson?, Json.record?_obj, ContainerId.ofJson?_toJson hid,
    ContainerKind.ofJson?_toJson hkind, hparent, hchildren]

/-- The tree of containers is read back. -/
theorem ContainerTree.ofJson?_toJson {t : ContainerTree} (h : t.containers.all Container.fits) :
    ofJson? t.toJson = some t := by
  have hlist : (Json.list Container.toJson t.containers).toList? Container.ofJson? =
      some t.containers :=
    Json.toList?_list_of_all (fun _ => Container.ofJson?_toJson) h
  simp [toJson, ofJson?, Json.record?_obj, hlist]

/-! ## Graphs -/

namespace Graph

def fits (g : Graph) : Bool :=
  g.nodes.size ≤ idBound && g.nodes.toList.all Node.fits &&
    g.containers.containers.all Container.fits &&
    g.members.all Member.fits

def isFinite (g : Graph) : Bool :=
  g.nodes.toList.all Node.isFinite && g.members.all Member.isFinite

/-- Both ends of every live connection are at nodes that exist. -/
def Attached (g : Graph) : Prop :=
  ∀ e ∈ g.live, (g.node? e.source.node).isSome ∧ (g.node? e.target.node).isSome

instance : DecidablePred Attached := fun g =>
  inferInstanceAs (Decidable (∀ e ∈ g.live, _ ∧ _))

variable {g : Graph}

/-- Where no connection is at a vacant index, no threads are needed after reading. -/
theorem Attached.threadsOf? (h : g.Attached) {nodes : Slots Node} {edges : Slots Edge}
    (hnodes : ∀ i, nodes.get? i = g.nodes.get? i) (hedges : ∀ i, edges.get? i = g.edges.get? i) :
    Graph.threadsOf? nodes edges = none := by
  have hused : ∀ {r : PortRef}, (g.node? r.node).isSome → nodes.contains r.node.index :=
      fun hr => by
    rwa [Slots.contains, hnodes]
  refine if_pos (List.all_eq_true.2 fun e he => ?_)
  obtain ⟨i, hi⟩ := Slots.mem_toList.1 he
  obtain ⟨hsource, htarget⟩ := h e (Slots.mem_toList.2 ⟨i, (hedges i).symm.trans hi⟩)
  rw [Bool.and_eq_true]
  exact ⟨hused hsource, hused htarget⟩

/-- A written graph is an object with its four parts. -/
theorem record?_toJson (g : Graph) :
    g.toJson.record? ["graph", "containers", "members", "settings"] =
    some [g.tablesToJson, g.containers.toJson, .list Member.toJson g.members, g.settings.toJson] :=
  Json.record?_obj rfl (by decide)

/-- The tables of a written graph are an object with its four parts. -/
theorem record?_tablesToJson (g : Graph) :
    g.tablesToJson.record? ["nodes", "node_holes", "edge_property", "edges"] =
      some [.list Node.toJson g.nodes.toList, .list .nat g.nodes.holes, direction,
        .list (.option Edge.toJson) g.edges.trimmed] :=
  Json.record?_obj rfl (by decide)

/-- A connection of the table is at two indices below the last node in use. -/
theorem Attached.lt_length_trimmed (h : g.Attached) {e : Edge} (he : some e ∈ g.edges.trimmed) :
    e.source.node.index < g.nodes.trimmed.length ∧
      e.target.node.index < g.nodes.trimmed.length := by
  obtain ⟨i, hi⟩ := List.mem_iff_getElem?.1 he
  have hedge : g.edges.get? i = some e := by
    rw [← Slots.join_getElem?_trimmed, hi]
    rfl
  obtain ⟨hsource, htarget⟩ := h e (Slots.mem_toList.2 ⟨i, hedge⟩)
  exact ⟨Slots.lt_length_trimmed (Option.some_get hsource).symm,
    Slots.lt_length_trimmed (Option.some_get htarget).symm⟩

/-- The tables are read back up to their last entries. -/
theorem tablesOfJson?_tablesToJson (hsize : g.nodes.size ≤ idBound)
    (hnodes : g.nodes.toList.all Node.fits) (hfinite : g.nodes.toList.all Node.isFinite)
    (hattached : g.Attached) :
    tablesOfJson? g.tablesToJson =
      some (.ofCells g.nodes.trimmed.toArray, .ofCells g.edges.trimmed.toArray) := by
  have hread : (Json.list Node.toJson g.nodes.toList).toList? (Node.ofJson? .listed) =
      some g.nodes.toList :=
    Json.toList?_list fun n hn => Node.ofJson?_toJson .listed (List.all_eq_true.1 hnodes n hn)
      (List.all_eq_true.1 hfinite n hn)
  have hholes : (Json.list .nat g.nodes.holes).toList? (Json.toNat? idBound) = some g.nodes.holes :=
    Json.toList?_list fun i hi =>
      Json.toNat?_nat (Nat.lt_of_lt_of_le (Slots.lt_size_of_mem_holes hi) hsize)
  have hfits : ∀ {n : NodeId}, n.index < g.nodes.trimmed.length → n.fits := fun hn =>
    decide_eq_true (Nat.lt_of_lt_of_le hn (Nat.le_trans g.nodes.length_trimmed_le hsize))
  have hedges : (Json.list (.option Edge.toJson) g.edges.trimmed).toList?
      (Json.toOption? Edge.ofJson?) = some g.edges.trimmed := by
    refine Json.toList?_list fun o ho => Json.toOption?_option (fun _ => nofun) fun e he => ?_
    obtain ⟨hsource, htarget⟩ := hattached.lt_length_trimmed (he ▸ ho)
    exact Edge.ofJson?_toJson (hfits hsource) (hfits htarget)
  have hinside : g.edges.trimmed.all (fun o => o.all fun e =>
      decide (e.source.node.index < g.nodes.trimmed.length) &&
        decide (e.target.node.index < g.nodes.trimmed.length)) = true := by
    rw [List.all_eq_true]
    intro o ho
    rw [Option.all_eq_true]
    intro e he
    simpa using hattached.lt_length_trimmed (he ▸ ho)
  have hlacks : g.tablesToJson.lacks "node_holes" = false := rfl
  have hdirection : direction.toCase? [("directed", ())] = some () := rfl
  simp [tablesOfJson?, record?_tablesToJson, hlacks, hread, hholes, hdirection, hedges,
    Slots.fill_holes, -List.all_eq_true, hinside]

/-- What the graph that is read has in common with the graph that was written: the same node at
every index and the same connection at every index, vacant indices below the last entry of each
table, and all the rest.  It is written as the same value. -/
structure Restores (g g' : Graph) : Prop where
  node : ∀ n, g'.node? n = g.node? n
  edge : ∀ i, g'.edges.get? i = g.edges.get? i
  nodes : g'.nodes.cells.toList = g.nodes.trimmed ∧ g'.nodes.Coherent
  edges : g'.edges.cells.toList = g.edges.trimmed ∧ g'.edges.Coherent
  containers : g'.containers = g.containers
  members : g'.members = g.members
  settings : g'.settings = g.settings
  threads : g'.threads = none
  toJson : g'.toJson = g.toJson

/-- A number that is not finite keeps the graph from being read. -/
theorem ofJson?_toJson_eq_none (h : g.isFinite = false) : ofJson? g.toJson = none := by
  rw [isFinite, Bool.and_eq_false_iff, List.all_eq_false, List.all_eq_false] at h
  rcases h with ⟨n, hn, hinfinite⟩ | ⟨m, hm, hinfinite⟩
  · have hread : (Json.list Node.toJson g.nodes.toList).toList? (Node.ofJson? .listed) = none :=
      Json.toList?_list_eq_none hn
        (Node.ofJson?_toJson_eq_none .listed (Bool.eq_false_iff.2 hinfinite))
    have htables : tablesOfJson? g.tablesToJson = none := by
      simp [tablesOfJson?, record?_tablesToJson, hread]
    simp [ofJson?, record?_toJson, htables]
  · have hread : (Json.list Member.toJson g.members).toList? Member.ofJson? = none :=
      Json.toList?_list_eq_none hm (Member.ofJson?_toJson_eq_none (Bool.eq_false_iff.2 hinfinite))
    simp [ofJson?, record?_toJson, hread]

/-- A graph that is written can be read exactly if all its numbers are finite, and the graph that is
read restores it. -/
theorem ofJson?_toJson_restores (g : Graph) (hfits : g.fits) (hattached : g.Attached) :
    (g.isFinite = true → ∃ g', ofJson? g.toJson = some g' ∧ g.Restores g') ∧
    (g.isFinite = false → ofJson? g.toJson = none) := by
  refine ⟨fun hfinite => ?_, ofJson?_toJson_eq_none⟩
  simp only [fits, Bool.and_eq_true, decide_eq_true_eq] at hfits
  obtain ⟨⟨⟨hsize, hnodes⟩, hcontainers⟩, hmembers⟩ := hfits
  obtain ⟨hnumbers, hdefaults⟩ := Bool.and_eq_true_iff.1 hfinite
  let nodes : Slots Node := .ofCells g.nodes.trimmed.toArray
  let edges : Slots Edge := .ofCells g.edges.trimmed.toArray
  have hnode : ∀ i, nodes.get? i = g.nodes.get? i := fun i =>
    (Slots.get?_ofCells _ i).trans (g.nodes.join_getElem?_trimmed i)
  have hedge : ∀ i, edges.get? i = g.edges.get? i := fun i =>
    (Slots.get?_ofCells _ i).trans (g.edges.join_getElem?_trimmed i)
  have hthreads : threadsOf? nodes edges = none := hattached.threadsOf? hnode hedge
  have hread : ofJson? g.toJson =
      some ⟨nodes, edges, g.containers, g.members, g.settings, none⟩ := by
    have hmember : (Json.list Member.toJson g.members).toList? Member.ofJson? = some g.members :=
      Json.toList?_list fun m hm => Member.ofJson?_toJson (List.all_eq_true.1 hmembers m hm)
        (List.all_eq_true.1 hdefaults m hm)
    simp [ofJson?, record?_toJson,
      tablesOfJson?_tablesToJson hsize hnodes hnumbers hattached, hmember,
      ContainerTree.ofJson?_toJson hcontainers, Settings.ofJson?_toJson, ← hthreads, nodes, edges]
  refine ⟨_, hread, fun n => hnode n.index, hedge, ⟨rfl, Slots.coherent_ofCells _⟩,
    ⟨rfl, Slots.coherent_ofCells _⟩, rfl, rfl, rfl, rfl, ?_⟩
  simp [toJson, tablesToJson, nodes, edges, Slots.holes, Slots.trimmed_ofCells_trimmed,
    Slots.toList_ofCells_trimmed]

/-- Nodes and connections have come and gone: there are vacant indices between the entries of both
tables and behind them. -/
def worn : Graph where
  nodes := ⟨#[none, some ⟨"Least", .literal (.int (-2 ^ 63)), ContainerTree.root,
      [⟨"Out", .output, .value (some .int) .readOnly⟩]⟩, none, none,
    some ⟨"Twice", .operator .add none, ContainerTree.root,
      [⟨"left", .input, .value none .readOnly⟩, ⟨"right", .input, .value none .readOnly⟩,
        ⟨"Out", .output, .value none .readOnly⟩]⟩, none], [0, 5, 3, 2]⟩
  edges := ⟨#[none, some ⟨⟨⟨1⟩, 0⟩, ⟨⟨4⟩, 1⟩, .value⟩, none], [2, 0]⟩
  containers := .empty
  members := [.variable { name := "limit", type := .int, default := some (.int (2 ^ 63 - 1)) }]
  settings := {}

/-- A graph with holes in both tables comes back with the holes that are not at the end. -/
theorem ofJson?_toJson_restores_worn : worn.fits ∧ worn.Attached ∧ worn.isFinite = true ∧
    ∃ g', ofJson? worn.toJson = some g' ∧ g'.nodes.cells.toList = worn.nodes.cells.toList.take 5 ∧
      g'.edges.cells.toList = worn.edges.cells.toList.take 2 ∧ worn.Restores g' := by
  have hfits : worn.fits := by decide
  have hattached : worn.Attached := by decide
  have hfinite : worn.isFinite = true := by decide
  obtain ⟨g', hread, hrestores⟩ := (ofJson?_toJson_restores worn hfits hattached).1 hfinite
  exact ⟨hfits, hattached, hfinite, g', hread, hrestores.nodes.1, hrestores.edges.1, hrestores⟩

def undefined : Graph :=
  build {} [.addNode "Undefined" (.literal (.float .nan)) ContainerTree.root]

/-- The graph can be built, but once it is written it cannot be read. -/
theorem ofJson?_toJson_undefined : undefined.Reachable ∧ undefined.fits ∧ undefined.Attached ∧
    undefined.kind? ⟨0⟩ = some (.literal (.float .nan)) ∧ ofJson? undefined.toJson = none :=
  ⟨reachable_build _ _, by decide +kernel, by decide +kernel, by decide +kernel, by decide +kernel⟩

end Graph

end EntityFlow
