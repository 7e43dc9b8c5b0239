import EntityFlow.Codec.Graph
import EntityFlow.Proofs.Graph.Connections
import Mathlib.Data.List.Basic
import Mathlib.Data.List.Induction

/-!
# What hangs on the threads of a graph as it was read

The threads of two tables are made by taking in one connection after another.  A connection is put
in front of two threads, and the links of the connections before it stay.  So the thread of a node
in use passes exactly the connections that end at the node, the last one first.  Where an index is
vacant the link says something else, but nothing is asked of it.
-/

namespace EntityFlow

namespace Threads

variable {t : Threads} {d : Direction} {next : Option Nat} {es : List Nat} {n e : Nat}
  {used : List Bool} {joined : List (Option (Nat × Nat))}

/-- From `next` on the thread passes the connections of the list, and ends. -/
def Passes (t : Threads) (d : Direction) : Option Nat → List Nat → Prop
  | next, [] => next = none
  | next, e :: rest => next = some e ∧ e < t.edges.size ∧ Passes t d ((t.edge e).get d) rest

/-- With fuel for its length, a thread is followed to its end. -/
theorem Passes.follow_eq (h : t.Passes d next es) {fuel : Nat} (hfuel : es.length ≤ fuel) :
    t.follow d fuel next = es := by
  induction es generalizing next fuel with
  | nil =>
    obtain rfl : next = none := h
    cases fuel <;> rfl
  | cons e rest ih =>
    obtain ⟨rfl, hlt, hrest⟩ := h
    cases fuel with
    | zero => exact absurd hfuel (Nat.not_succ_le_zero _)
    | succ fuel =>
      rw [follow, if_pos hlt, ih hrest (Nat.le_of_succ_le_succ hfuel)]

/-- A thread goes on as before while connections are added behind the table. -/
theorem Passes.mono {t' : Threads} (h : t.Passes d next es) (hsize : t.edges.size ≤ t'.edges.size)
    (hedge : ∀ e < t.edges.size, t'.edge e = t.edge e) : t'.Passes d next es := by
  induction es generalizing next with
  | nil => exact h
  | cons e rest ih =>
    obtain ⟨hnext, hlt, hrest⟩ := h
    refine ⟨hnext, Nat.lt_of_lt_of_le hlt hsize, ?_⟩
    rw [hedge e hlt]
    exact ih hrest

/-! ## Indices -/

/-- The threads of a table of nodes without connections: those of a node in use are empty. -/
structure Bare (t : Threads) (used : List Bool) : Prop where
  size : t.nodes.size = used.length
  edges : t.edges = #[]
  node : ∀ n, used[n]? = some true → t.node n = {}
  vacant : ∀ v, t.vacant = some v → used[v]? = some false
  placed : t.placed = used.count true

theorem node_push (t : Threads) {links : Links} {nodes : Array Links} (n : Nat) :
    ({ t with nodes := nodes.push links } : Threads).node n =
      if n = nodes.size then links else ({ t with nodes } : Threads).node n := by
  simp only [node, Array.getElem?_push]
  split <;> rfl

theorem node_modify (t : Threads) {nodes : Array Links} (f : Links → Links) (i : Nat)
    (hn : n < nodes.size) :
    ({ t with nodes := nodes.modify i f } : Threads).node n =
      if i = n then f (({ t with nodes } : Threads).node n) else
      ({ t with nodes } : Threads).node n := by
  simp only [node, Array.getElem?_modify, Array.getElem?_eq_getElem hn]
  split <;> rfl

/-- One more index, in use or vacant, leaves the threads bare. -/
theorem Bare.addIndex (h : t.Bare used) (b : Bool) : (t.addIndex b).Bare (used ++ [b]) := by
  have hold : ∀ n, n ≠ used.length → (used ++ [b])[n]? = used[n]? := by
    intro n hn
    rw [List.getElem?_append]
    split
    · rfl
    · rw [List.getElem?_eq_none (by simp; omega), List.getElem?_eq_none (by omega)]
  have hlt : ∀ n x, used[n]? = some x → n ≠ used.length := by
    intro n x hx
    have := (List.getElem?_eq_some_iff.1 hx).1
    omega
  cases b with
  | true =>
    refine ⟨by simp [Threads.addIndex, h.size], h.edges, fun n hn => ?_, fun v hv => ?_,
      by simp [Threads.addIndex, h.placed]⟩
    · by_cases hlast : n = used.length
      · exact (node_push t n).trans (if_pos (hlast.trans h.size.symm))
      · rw [hold n hlast] at hn
        exact (node_push t n).trans ((if_neg (h.size ▸ hlast)).trans (h.node n hn))
    · rw [hold v (hlt v _ (h.vacant v hv))]
      exact h.vacant v hv
  | false =>
    refine ⟨?_, h.edges, fun n hn => ?_, fun v hv => ?_, by simp [Threads.addIndex, h.placed]⟩
    · cases hv : t.vacant <;> simp [Threads.addIndex, hv, h.size]
    · have hlast : n ≠ used.length := by
        rintro rfl
        simp at hn
      rw [hold n hlast] at hn
      have hplain := h.node n hn
      cases hv : t.vacant with
      | none =>
        simp only [Threads.addIndex, hv, Bool.false_eq_true, if_false]
        exact (node_push t n).trans ((if_neg (h.size ▸ hlast)).trans hplain)
      | some v =>
        -- The link of the vacant index before is set, which is no index of a node in use.
        have hne : v ≠ n := by
          rintro rfl
          exact absurd (hn.symm.trans (h.vacant v hv)) (by simp)
        have hin : n < t.nodes.size := by
          rw [h.size]
          exact (List.getElem?_eq_some_iff.1 hn).1
        simp only [Threads.addIndex, hv, Bool.false_eq_true, if_false]
        refine (node_push t n).trans ((if_neg ?_).trans ((node_modify t _ _ hin).trans ?_))
        · simpa [h.size] using hlast
        · rw [if_neg hne]
          exact hplain
    · obtain rfl : t.nodes.size = v := Option.some.inj hv
      simp [h.size]

/-- Threads without connections are bare. -/
theorem bare_addIndices (used : List Bool) : (used.foldl addIndex {}).Bare used := by
  induction used using List.reverseRecOn with
  | nil => exact ⟨rfl, rfl, nofun, nofun, rfl⟩
  | append_singleton used b ih =>
    rw [List.foldl_append]
    exact ih.addIndex b

/-! ## Connections -/

/-- The index at which a connection ends on that side. -/
def endAt : Direction → Nat × Nat → Nat
  | .output, ends => ends.1
  | .input, ends => ends.2

/-- The connections that end at an index on that side, ascending. -/
def hanging (joined : List (Option (Nat × Nat))) (d : Direction) (n : Nat) : List Nat :=
  (List.range joined.length).filter fun e => joined[e]?.join.any fun ends => endAt d ends = n

/-- A new connection hangs at its two ends. -/
theorem hanging_append (joined : List (Option (Nat × Nat))) (x : Option (Nat × Nat)) (d : Direction)
    (n : Nat) : hanging (joined ++ [x]) d n =
      hanging joined d n ++ if x.any fun ends => endAt d ends = n then [joined.length] else [] := by
  have hold : (List.range joined.length).filter
      (fun e => (joined ++ [x])[e]?.join.any fun ends => endAt d ends = n) =
        hanging joined d n := by
    refine List.filter_congr fun e he => ?_
    rw [List.getElem?_append_left (List.mem_range.1 he)]
  unfold hanging
  rw [List.length_append, List.length_singleton, List.range_succ, List.filter_append, hold]
  congr 1
  simp only [List.filter_cons, List.filter_nil, List.getElem?_append_right (Nat.le_refl _),
    Nat.sub_self, List.getElem?_cons_zero, Option.join_some]

/-- The thread of every node in use passes the connections that end there. -/
structure Carries (t : Threads) (used : List Bool) (joined : List (Option (Nat × Nat))) : Prop where
  nodes : t.nodes.size = used.length
  edges : t.edges.size = joined.length
  passes : ∀ n, used[n]? = some true → ∀ d,
    t.Passes d ((t.node n).get d) (hanging joined d n).reverse
  placed : t.placed = used.count true

theorem edge_push {links : Links} (h : e < t.edges.size) :
    ({ t with edges := t.edges.push links } : Threads).edge e = t.edge e := by
  simp only [edge, Array.getElem?_push, if_neg (Nat.ne_of_lt h)]

/-- A new connection comes first on its two threads, and leads to what came first before. -/
theorem link_new (t : Threads) (source target : Nat) :
    (t.link t.edges.size source target).edges =
        t.edges.push ⟨(t.node source).outward, (t.node target).inward⟩ ∧
      ∀ n < t.nodes.size, ∀ d, ((t.link t.edges.size source target).node n).get d =
        if endAt d (source, target) = n then some t.edges.size else (t.node n).get d := by
  constructor
  · simp [link]
  · intro n hn d
    have hin : n < (t.nodes.modify source (Links.set .output (some t.edges.size))).size := by
      simpa using hn
    have htarget := node_modify (t.link t.edges.size source target)
      (Links.set .input (some t.edges.size)) target hin
    have hsource := node_modify (t.link t.edges.size source target)
      (Links.set .output (some t.edges.size)) source hn
    have hsame : ({ t.link t.edges.size source target with nodes := t.nodes } : Threads).node n =
        t.node n := rfl
    rw [hsource, hsame] at htarget
    refine (congrArg (Links.get · d) htarget).trans ?_
    cases d with
    | input =>
      simp only [endAt]
      by_cases htn : target = n <;> by_cases hsn : source = n <;>
        simp [htn, hsn, Links.set, Links.get]
    | output =>
      simp only [endAt]
      by_cases htn : target = n <;> by_cases hsn : source = n <;>
        simp [htn, hsn, Links.set, Links.get]

/-- A vacant connection leaves the threads as they were. -/
theorem Carries.vacate (h : t.Carries used joined) :
    ({ t with edges := t.edges.push {} } : Threads).Carries used (joined ++ [none]) where
  nodes := h.nodes
  edges := by simp [h.edges]
  passes n hn d := by
    rw [hanging_append]
    simp only [Option.any_none, Bool.false_eq_true, if_false, List.append_nil]
    exact (h.passes n hn d).mono (by simp) fun e he => edge_push he
  placed := h.placed

/-- A connection that is linked hangs on the threads of its two nodes. -/
theorem Carries.link (h : t.Carries used joined) (source target : Nat) :
    (t.link t.edges.size source target).Carries used (joined ++ [some (source, target)]) := by
  obtain ⟨hedges, hnode⟩ := link_new t source target
  have hsize : (t.link t.edges.size source target).edges.size = t.edges.size + 1 := by
    rw [hedges, Array.size_push]
  have hmono : ∀ {d next es}, t.Passes d next es →
      (t.link t.edges.size source target).Passes d next es := by
    intro d next es hpasses
    refine hpasses.mono (by omega) fun e he => ?_
    rw [edge, hedges]
    exact edge_push he
  refine ⟨by simpa [Threads.link] using h.nodes, ?_, fun n hn d => ?_, h.placed⟩
  · rw [hsize, h.edges, List.length_append, List.length_singleton]
  have hin : n < t.nodes.size := by
    rw [h.nodes]
    exact (List.getElem?_eq_some_iff.1 hn).1
  rw [hnode n hin d, hanging_append]
  -- At its ends the connection comes first and leads on to the old thread; elsewhere the thread
  -- stays.
  by_cases hend : endAt d (source, target) = n
  · have hlinks : ((t.link t.edges.size source target).edge t.edges.size).get d =
        (t.node n).get d := by
      rw [edge, hedges, Array.getElem?_push, if_pos rfl, ← hend]
      cases d <;> rfl
    simp only [Option.any_some, hend, decide_true, if_true, List.reverse_append,
      List.reverse_singleton, List.singleton_append]
    rw [← h.edges]
    refine ⟨rfl, by omega, ?_⟩
    rw [hlinks]
    exact hmono (h.passes n hn d)
  · simp only [Option.any_some, hend, decide_false, Bool.false_eq_true, if_false, List.append_nil]
    exact hmono (h.passes n hn d)

/-- Threads that are made from tables carry the connections of the tables. -/
theorem carries_ofTables (used : List Bool) (joined : List (Option (Nat × Nat))) :
    (ofTables used joined).Carries used joined := by
  unfold ofTables
  induction joined using List.reverseRecOn with
  | nil =>
    have hbare := bare_addIndices used
    refine ⟨hbare.size, by simp [hbare.edges], fun n hn d => ?_, hbare.placed⟩
    rw [List.foldl_nil, hbare.node n hn]
    cases d <;> rfl
  | append_singleton joined x ih =>
    rw [List.foldl_append]
    cases x with
    | none => exact ih.vacate
    | some ends => exact ih.link ends.1 ends.2

/-- The thread of a node in use passes the connections that end there, the last one first. -/
theorem strand_ofTables (hn : used[n]? = some true) (d : Direction) :
    (ofTables used joined).strand d n = (hanging joined d n).reverse := by
  have h := carries_ofTables used joined
  refine (h.passes n hn d).follow_eq ?_
  rw [List.length_reverse, h.edges]
  exact Nat.le_trans (List.length_filter_le _ _) (Nat.le_of_eq List.length_range)

/-- Looked up in the table, the connections that end at an index are the entries that do. -/
theorem filterMap_hanging {α : Type} (cells : List (Option α)) (ends : α → Nat × Nat)
    (d : Direction)
    (n : Nat) : (hanging (cells.map (Option.map ends)) d n).filterMap (fun e => cells[e]?.join) =
      (cells.filterMap id).filter fun a => endAt d (ends a) = n := by
  induction cells using List.reverseRecOn with
  | nil => rfl
  | append_singleton cells x ih =>
    have hold : (hanging (cells.map (Option.map ends)) d n).filterMap
        (fun e => (cells ++ [x])[e]?.join) =
          (hanging (cells.map (Option.map ends)) d n).filterMap (fun e => cells[e]?.join) := by
      refine List.filterMap_congr fun e he => ?_
      have hlt : e < cells.length := by simpa using List.mem_range.1 (List.mem_of_mem_filter he)
      rw [List.getElem?_append_left hlt]
    rw [List.map_append, List.map_singleton, hanging_append, List.filterMap_append, hold, ih,
      List.filterMap_append, List.filter_append]
    congr 1
    cases x with
    | none => rfl
    | some a =>
      by_cases ha : endAt d (ends a) = n
      · simp [ha]
      · simp [ha]

end Threads

/-! ## Graphs -/

def Edge.ends (e : Edge) : Nat × Nat := (e.source.node.index, e.target.node.index)

namespace Graph

open Threads (endAt hanging)

variable {g : Graph} {n : NodeId} {node : Node}

/-- Every node lists exactly the live connections that join it, and every node is counted. -/
structure Listed (g : Graph) : Prop where
  inward : ∀ n node, g.node? n = some node →
    (g.edgesInto n).Perm (g.live.filter fun e => e.target.node = n)
  outward : ∀ n node, g.node? n = some node →
    (g.edgesFrom n).Perm (g.live.filter fun e => e.source.node = n)
  count : g.nodeCount = g.nodes.count

/-- Without threads, a node has the live connections that end at it. -/
theorem listed_of_threads (h : g.threads = none) : g.Listed where
  inward n node hn := by
    rw [edgesInto, h, hn]
    exact .refl _
  outward n node hn := by
    rw [edgesFrom, h, hn]
    exact .refl _
  count := by rw [nodeCount, h]

/-- The threads of a graph that is read are made from its tables. -/
theorem threadsOf?_eq_some {nodes : Slots Node} {edges : Slots Edge} {t : Threads}
    (h : threadsOf? nodes edges = some t) : t = .ofTables (nodes.cells.toList.map Option.isSome)
      (edges.cells.toList.map (Option.map Edge.ends)) := by
  unfold threadsOf? at h
  dsimp only at h
  split at h
  · exact absurd h nofun
  · exact (Option.some.inj h).symm

section Read

variable {t : Threads} (hread : threadsOf? g.nodes g.edges = some t)

include hread

/-- The thread of an existing node has the live connections that end there. -/
theorem edgesOn_perm (hn : g.node? n = some node) (d : Direction) :
    (g.edgesOn t d n).Perm (g.live.filter fun e => endAt d e.ends = n.index) := by
  obtain rfl := threadsOf?_eq_some hread
  have hused : (g.nodes.cells.toList.map Option.isSome)[n.index]? = some true := by
    have hcell : g.nodes.cells[n.index]? = some (some node) := Slots.get?_eq_some_iff.1 hn
    simp [hcell]
  have hget : g.edges.get? = fun e => g.edges.cells.toList[e]?.join := by
    funext e
    rw [Slots.get?, Array.getElem?_toList]
  rw [edgesOn, Threads.strand_ofTables hused, hget, List.filterMap_reverse,
    Threads.filterMap_hanging]
  exact List.reverse_perm _

/-- On the thread of a node, connections end at the node already. -/
theorem map_edgesOn (hn : g.node? n = some node) {d : Direction} {f : Edge → Edge}
    (hf : ∀ e, endAt d e.ends = n.index → f e = e) : (g.edgesOn t d n).map f = g.edgesOn t d n := by
  refine (List.map_congr_left fun e he => ?_).trans (List.map_id _)
  have hmem := List.of_mem_filter ((edgesOn_perm hread hn d).mem_iff.1 he)
  exact hf e (of_decide_eq_true hmem)

/-- With threads, an existing node has the live connections that end at it. -/
theorem listed_of_read (ht : g.threads = some t) : g.Listed where
  inward n node hn := by
    have hend : ∀ e : Edge, endAt .input e.ends = n.index ↔ e.target.node = n := fun e => by
      rw [NodeId.mk.injEq]
      rfl
    have hperm := edgesOn_perm hread hn .input
    simp only [hend] at hperm
    rw [edgesInto, ht, hn, Option.isSome_some, if_pos rfl]
    dsimp only
    rwa [map_edgesOn hread hn fun e he => by rw [← (hend e).1 he]]
  outward n node hn := by
    have hend : ∀ e : Edge, endAt .output e.ends = n.index ↔ e.source.node = n := fun e => by
      rw [NodeId.mk.injEq]
      rfl
    have hperm := edgesOn_perm hread hn .output
    simp only [hend] at hperm
    rw [edgesFrom, ht, hn, Option.isSome_some, if_pos rfl]
    dsimp only
    rwa [map_edgesOn hread hn fun e he => by rw [← (hend e).1 he]]
  count := by
    obtain rfl := threadsOf?_eq_some hread
    rw [nodeCount, ht]
    refine (Threads.carries_ofTables _ _).placed.trans ?_
    rw [Slots.count, Slots.toList]
    induction g.nodes.cells.toList with
    | nil => rfl
    | cons x rest ih => cases x <;> simpa using ih

end Read

/-- A graph as it was read is listed, whatever its connections refer to. -/
theorem listed_of_ofJson? {j : Json} (h : ofJson? j = some g) : g.Listed := by
  have hthreads : g.threads = threadsOf? g.nodes g.edges := by
    unfold ofJson? at h
    simp only [Option.bind_eq_bind, Option.bind_eq_some_iff] at h
    obtain ⟨fields, -, h⟩ := h
    split at h
    · simp only [Option.bind_eq_some_iff] at h
      obtain ⟨⟨nodes, edges⟩, -, containers, -, members, -, settings, -, h⟩ := h
      obtain rfl := Option.some.inj h
      rfl
    · exact absurd h nofun
  cases ht : g.threads with
  | none => exact listed_of_threads ht
  | some t => exact listed_of_read (hthreads.symm.trans ht) ht

end Graph

end EntityFlow
