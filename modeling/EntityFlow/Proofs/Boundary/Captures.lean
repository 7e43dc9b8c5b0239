import EntityFlow.Proofs.Boundary.Split
import Mathlib.Data.List.Induction
import Mathlib.Logic.ExistsUnique

/-!
# What a body reads

Every value that a body reads has exactly one origin: the boundary, the body itself, a crossing, or
nowhere.  The list of reads is strictly ascending because a value input has one connection, so
nothing is listed twice; grouping the captured reads by their source keeps each group in that order.
That no pure producer is unavailable is the saturation of the body: it would have been part of it.
-/

namespace EntityFlow

namespace Graph

variable {g : Graph} {ns : List NodeId} {i s : PortRef} {inputs : List PortRef}
  {reads : List (PortRef × PortRef)}

/-! ## Reads in order -/

def Ascending (i j : PortRef) : Prop := i.le j = true ∧ i ≠ j

/-- A value read is a connection to a value port of one of the nodes. -/
theorem mem_valueReads (h : g.Anchored) : (i, s) ∈ g.valueReads ns ↔
    i.node ∈ ns ∧ g.IsValuePort i ∧ ∃ e ∈ g.live, e.source = s ∧ e.target = i := by
  simp only [valueReads, List.mem_flatMap, List.mem_filter, h.mem_incoming, isValueInput_iff]
  constructor
  · rintro ⟨n, hn, ⟨rfl, he⟩, hi⟩
    exact ⟨hn, hi, he⟩
  · rintro ⟨hn, hi, he⟩
    exact ⟨i.node, hn, ⟨rfl, he⟩, hi⟩

/-- No two live connections share a value input. -/
theorem pairwise_live (h : g.Invariant) :
    g.live.Pairwise fun e f => e.target = f.target → ¬g.IsValuePort e.target := by
  refine Slots.pairwise_toList fun k l e f hkl hk hl ht hp => ?_
  obtain ⟨p, hport, hv⟩ := hp
  have := h.single k l e f p hk hl ht hport hv
  omega

/-- A value port has at most one incoming connection. -/
theorem pairwise_incoming_ne (h : g.Invariant) (n : NodeId) :
    (g.incoming n).Pairwise fun a b => a.1 = b.1 → ¬g.IsValuePort a.1 := by
  have hsymm : ∀ {a b : PortRef × PortRef}, (a.1 = b.1 → ¬g.IsValuePort a.1) →
      b.1 = a.1 → ¬g.IsValuePort b.1 := fun hab heq => by
    rw [heq]
    exact hab heq.symm
  rw [incoming, (List.mergeSort_perm _ _).pairwise_iff hsymm, List.pairwise_map,
    h.anchored.edgesInto]
  exact (pairwise_live h).filter _

/-- Reads are listed by input, and no input is listed twice. -/
theorem pairwise_valueReads (h : g.Invariant) (hns : ns.Pairwise fun m n => m.index < n.index) :
    (g.valueReads ns).Pairwise fun a b => Ascending a.1 b.1 := by
  rw [valueReads, List.pairwise_flatMap]
  refine ⟨fun n _ => ?_, hns.imp fun hmn a ha b hb => ?_⟩
  · rw [List.pairwise_filter]
    refine ((pairwise_incoming g n).and (pairwise_incoming_ne h n)).imp ?_
    rintro a b ⟨hle, hne⟩ ha -
    exact ⟨PortRef.le_of_pairLe hle, fun heq => hne heq (isValueInput_iff.1 ha)⟩
  · obtain ⟨hm, -⟩ := h.anchored.mem_incoming.1 (List.mem_filter.1 ha).1
    obtain ⟨hn, -⟩ := h.anchored.mem_incoming.1 (List.mem_filter.1 hb).1
    rw [← hm, ← hn] at hmn
    refine ⟨by simp [PortRef.le, hmn], fun heq => ?_⟩
    rw [heq] at hmn
    exact absurd hmn (by omega)

/-! ## Grouping -/

def inputsOf (reads : List (PortRef × PortRef)) (s : PortRef) : List PortRef :=
  (reads.filter fun r => r.2 = s).map Prod.fst

theorem mem_inputsOf : i ∈ inputsOf reads s ↔ (i, s) ∈ reads := by
  simp [inputsOf]

/-- One more read is added at the end of the inputs of its source. -/
theorem inputsOf_concat {source : PortRef} : inputsOf (reads ++ [(i, source)]) s =
    inputsOf reads s ++ if source = s then [i] else [] := by
  by_cases h : source = s <;> simp [inputsOf, h]

/-- One read more: at the end of the group of its source, which is new if there is none. -/
def addRead (groups : List (PortRef × List PortRef)) (read : PortRef × PortRef) :
    List (PortRef × List PortRef) :=
  if groups.any fun group => group.1 = read.2 then
    groups.map fun group =>
      if group.1 = read.2 then (group.1, group.2 ++ [read.1]) else (group.1, group.2)
  else groups ++ [(read.2, [read.1])]

theorem groupReads_concat {read : PortRef × PortRef} :
    groupReads (reads ++ [read]) = addRead (groupReads reads) read := by
  simp only [groupReads, List.foldl_append, List.foldl_cons, List.foldl_nil, addRead]

/-- A read from a source that has a group already joins this group. -/
theorem addRead_of_mem {groups : List (PortRef × List PortRef)} {source : PortRef}
    {old : List PortRef} (h : (source, old) ∈ groups) :
    addRead groups (i, source) = groups.map fun group =>
      if group.1 = source then (group.1, group.2 ++ [i]) else (group.1, group.2) :=
  if_pos (List.any_eq_true.2 ⟨_, h, by simp⟩)

/-- A read from a new source opens a group. -/
theorem addRead_of_notMem {groups : List (PortRef × List PortRef)} {source : PortRef}
    (h : ∀ old, (source, old) ∉ groups) :
    addRead groups (i, source) = groups ++ [(source, [i])] := by
  refine if_neg fun hany => ?_
  obtain ⟨⟨s, old⟩, hmem, hs⟩ := List.any_eq_true.1 hany
  obtain rfl : s = source := by simpa using hs
  exact h old hmem

/-- Groups of reads: one for every source that is read, with the inputs that read it. -/
structure IsGrouping (reads : List (PortRef × PortRef)) (groups : List (PortRef × List PortRef)) :
    Prop where
  nodup : (groups.map Prod.fst).Nodup
  mem_iff : ∀ s inputs, (s, inputs) ∈ groups ↔ inputs ≠ [] ∧ inputs = inputsOf reads s

section AddRead

variable {groups : List (PortRef × List PortRef)} {source : PortRef}

/-- A read of a source that has a group extends the group. -/
theorem IsGrouping.addRead_of_mem {old : List PortRef} (h : IsGrouping reads groups)
    (hold : (source, old) ∈ groups) :
    IsGrouping (reads ++ [(i, source)]) (addRead groups (i, source)) := by
  rw [Graph.addRead_of_mem hold]
  refine ⟨?_, fun s inputs => ?_⟩
  · have hkeys : ∀ group : PortRef × List PortRef, (if group.1 = source then
        (group.1, group.2 ++ [i]) else (group.1, group.2)).1 = group.1 := by
      intro group
      split <;> rfl
    simpa [List.map_map, Function.comp_def, hkeys] using h.nodup
  · rw [List.mem_map, inputsOf_concat]
    by_cases hs : source = s
    · subst hs
      constructor
      · rintro ⟨⟨s, old'⟩, hmem, heq⟩
        split at heq
        · obtain ⟨rfl, rfl⟩ := Prod.mk.inj heq
          exact ⟨by simp, by simp [← ((h.mem_iff _ _).1 hmem).2]⟩
        · rename_i hne
          exact absurd (Prod.mk.inj heq).1 hne
      · rintro ⟨-, rfl⟩
        exact ⟨(source, old), hold, by simp [((h.mem_iff _ _).1 hold).2]⟩
    · rw [if_neg hs, List.append_nil, ← h.mem_iff]
      constructor
      · rintro ⟨⟨s', old'⟩, hmem, heq⟩
        split at heq
        · rename_i hs'
          exact absurd ((Prod.mk.inj heq).1.symm.trans hs').symm hs
        · rwa [← heq]
      · exact fun hmem => ⟨(s, inputs), hmem, by simp [Ne.symm hs]⟩

/-- A read of a source that has no group opens one. -/
theorem IsGrouping.addRead_of_notMem (h : IsGrouping reads groups)
    (hnone : ∀ old, (source, old) ∉ groups) :
    IsGrouping (reads ++ [(i, source)]) (addRead groups (i, source)) := by
  have hempty : inputsOf reads source = [] := by
    by_contra hne
    exact hnone _ ((h.mem_iff _ _).2 ⟨hne, rfl⟩)
  rw [Graph.addRead_of_notMem hnone]
  refine ⟨?_, fun s inputs => ?_⟩
  · rw [List.map_append]
    refine List.nodup_append.2 ⟨h.nodup, by simp, ?_⟩
    rintro s hs s' hs' rfl
    obtain ⟨⟨s, old⟩, hmem, rfl⟩ := List.mem_map.1 hs
    obtain rfl : s = source := by simpa using hs'
    exact hnone old hmem
  · rw [List.mem_append, List.mem_singleton, Prod.mk.injEq, inputsOf_concat]
    by_cases hs : source = s
    · subst hs
      rw [hempty, if_pos rfl, List.nil_append]
      constructor
      · rintro (hmem | ⟨-, rfl⟩)
        · exact absurd hmem (hnone inputs)
        · exact ⟨by simp, rfl⟩
      · exact fun heq => .inr ⟨rfl, heq.2⟩
    · simp [hs, Ne.symm hs, h.mem_iff]

end AddRead

/-- Grouping is right after every read, by induction on how many were made. -/
theorem isGrouping_groupReads (reads : List (PortRef × PortRef)) :
    IsGrouping reads (groupReads reads) := by
  induction reads using List.reverseRecOn with
  | nil => exact ⟨by simp [groupReads], by simp [groupReads, inputsOf]⟩
  | append_singleton reads read ih =>
    rw [groupReads_concat]
    by_cases hold : ∃ old, (read.2, old) ∈ groupReads reads
    · obtain ⟨old, hold⟩ := hold
      exact ih.addRead_of_mem hold
    · exact ih.addRead_of_notMem fun old hmem => hold ⟨old, hmem⟩

end Graph

/-! ## Origins -/

/-- Where a value comes from that a body reads. -/
inductive Origin where
  /-- The boundary gives it out. -/
  | boundary
  /-- The body computes it. -/
  | body
  /-- It is captured. -/
  | crossing
  /-- It cannot be had. -/
  | nowhere
deriving DecidableEq, Repr

namespace Boundary

open EntityFlow.Graph

variable {g : Graph} {a : Boundary} {b : NodeId} {body i s : PortRef} {inputs : List PortRef}

/-- A live connection leads from output `s` to value input `i` of the body. -/
structure Reads (g : Graph) (a : Boundary) (i s : PortRef) : Prop where
  inside : i.node ∈ a.after
  output : ∃ p, g.port? s = some p ∧ p.isOutput
  input : ∃ p, g.port? i = some p ∧ p.isInput ∧ p.isValue
  live : ∃ e ∈ g.live, e.source = s ∧ e.target = i

/-- The analysis gives the value that `i` reads from `s` that origin; a read that is captured or
cannot be had is listed once. -/
def HasOrigin (a : Boundary) (i s : PortRef) : Origin → Prop
  | .boundary => s.node = a.node
  | .body => s.node ∈ a.after
  | .crossing => ∃ inputs, (s, inputs) ∈ a.crossings ∧ inputs.count i = 1
  | .nowhere => a.unavailable.count (i, s) = 1

/-- Reads of values that neither the boundary nor the body gives. -/
def outsideReads (g : Graph) (a : Boundary) : List (PortRef × PortRef) :=
  (g.valueReads a.after).filter fun r => r.2.node ≠ a.node && !a.after.contains r.2.node

def capturedReads (g : Graph) (a : Boundary) : List (PortRef × PortRef) :=
  (outsideReads g a).filter fun r => a.before.contains r.2.node

/-- Crossings and unavailable values are both cut out of the reads that leave the body. -/
theorem reads_eq (ha : analyze? g b body = some a) :
    a.crossings = groupReads (capturedReads g a) ∧
      a.unavailable = (outsideReads g a).filter fun r => !a.before.contains r.2.node := by
  simp only [analyze?] at ha
  split at ha
  · exact absurd ha (by simp)
  · rw [← Option.some.inj ha]
    exact ⟨rfl, rfl⟩

theorem mem_valueReads_iff (h : g.Invariant) : (i, s) ∈ g.valueReads a.after ↔ a.Reads g i s := by
  rw [mem_valueReads h.anchored]
  constructor
  · rintro ⟨hin, ⟨p, hp, hv⟩, e, he, rfl, rfl⟩
    obtain ⟨ps, pt, hps, hpt, hout, hinput, -⟩ := h.joins_of_mem he
    exact ⟨hin, ⟨ps, hps, hout⟩, ⟨pt, hpt, hinput, by rwa [Option.some.inj (hpt.symm.trans hp)]⟩,
      e, he, rfl, rfl⟩
  · rintro ⟨hin, -, ⟨p, hp, -, hv⟩, hlive⟩
    exact ⟨hin, ⟨p, hp, hv⟩, hlive⟩

/-- What an input of the body reads is its only source. -/
theorem sourceOf?_of_reads (h : g.Invariant) (hr : a.Reads g i s) : g.sourceOf? i = some s := by
  obtain ⟨p, hp, -, hv⟩ := hr.input
  have hsources : ∀ s', s' ∈ g.sourcesOf i → s' = s := by
    intro s' hs'
    obtain ⟨e, he, rfl, htarget⟩ := hr.live
    obtain ⟨e', he', rfl, htarget'⟩ := h.anchored.mem_sourcesOf.1 hs'
    obtain ⟨k, hk⟩ := mem_live.1 he
    obtain ⟨k', hk'⟩ := mem_live.1 he'
    obtain rfl := h.single k k' e e' p hk hk' (htarget.trans htarget'.symm) (htarget ▸ hp) hv
    rw [Option.some.inj (hk.symm.trans hk')]
  have hs : s ∈ g.sourcesOf i := h.anchored.mem_sourcesOf.2 hr.live
  have hne := mt List.head?_eq_none_iff.1 (List.ne_nil_of_mem hs)
  obtain ⟨s', hs'⟩ := Option.ne_none_iff_exists'.1 hne
  rw [sourceOf?_eq_head?, hs', hsources s' (List.mem_of_head? hs')]

/-- The reads that leave the body are those whose source is neither the boundary nor in the body. -/
theorem mem_outsideReads (h : g.Invariant) : (i, s) ∈ outsideReads g a ↔
    a.Reads g i s ∧ s.node ≠ a.node ∧ s.node ∉ a.after := by
  simp [outsideReads, mem_valueReads_iff h]

/-- A read is captured if it leaves the body and its source runs before the boundary. -/
theorem mem_capturedReads (h : g.Invariant) : (i, s) ∈ capturedReads g a ↔
    a.Reads g i s ∧ s.node ≠ a.node ∧ s.node ∉ a.after ∧ s.node ∈ a.before := by
  simp [capturedReads, mem_outsideReads h, and_assoc]

/-- A value is unavailable if its source is in no place that the analysis knows. -/
theorem mem_unavailable (h : g.Invariant) (ha : analyze? g b body = some a) :
    (i, s) ∈ a.unavailable ↔
      a.Reads g i s ∧ s.node ≠ a.node ∧ s.node ∉ a.after ∧ s.node ∉ a.before := by
  simp [(reads_eq ha).2, mem_outsideReads h, and_assoc]

/-- A crossing has all the inputs that capture its source, and at least one. -/
theorem mem_crossings (ha : analyze? g b body = some a) : (s, inputs) ∈ a.crossings ↔
    inputs ≠ [] ∧ inputs = inputsOf (capturedReads g a) s := by
  rw [(reads_eq ha).1]
  exact (isGrouping_groupReads _).mem_iff s inputs

theorem mem_capturedReads_of_mem_crossings (ha : analyze? g b body = some a)
    (hs : (s, inputs) ∈ a.crossings) (hi : i ∈ inputs) : (i, s) ∈ capturedReads g a := by
  rw [((mem_crossings ha).1 hs).2] at hi
  exact mem_inputsOf.1 hi

theorem reads_of_mem_crossings (h : g.Invariant) (ha : analyze? g b body = some a)
    (hs : (s, inputs) ∈ a.crossings) (hi : i ∈ inputs) : a.Reads g i s :=
  ((mem_capturedReads h).1 (mem_capturedReads_of_mem_crossings ha hs hi)).1

/-- The boundary does not capture its own outputs. -/
theorem node_ne_of_mem_crossings (h : g.Invariant) (ha : analyze? g b body = some a)
    (hs : (s, inputs) ∈ a.crossings) : s.node ≠ a.node := by
  obtain ⟨i, hi⟩ := List.exists_mem_of_ne_nil _ ((mem_crossings ha).1 hs).1
  exact ((mem_capturedReads h).1 (mem_capturedReads_of_mem_crossings ha hs hi)).2.1

/-- No source crosses twice. -/
theorem nodup_crossings (ha : analyze? g b body = some a) : (a.crossings.map Prod.fst).Nodup := by
  rw [(reads_eq ha).1]
  exact (isGrouping_groupReads _).nodup

/-- The reads that leave the body are in order. -/
theorem pairwise_outsideReads (h : g.Invariant) (ha : analyze? g b body = some a) :
    (outsideReads g a).Pairwise fun r r' => Ascending r.1 r'.1 := by
  refine (pairwise_valueReads h ?_).filter _
  rw [after_eq ha]
  exact pairwise_bodyNodes g b body a.before

theorem pairwise_of_mem_crossings (h : g.Invariant) (ha : analyze? g b body = some a)
    (hs : (s, inputs) ∈ a.crossings) : inputs.Pairwise Ascending := by
  rw [((mem_crossings ha).1 hs).2, inputsOf, List.pairwise_map]
  exact ((pairwise_outsideReads h ha).filter _).filter _

/-- Within a crossing no input is repeated. -/
theorem count_eq_one_of_mem_crossings (h : g.Invariant) (ha : analyze? g b body = some a)
    (hs : (s, inputs) ∈ a.crossings) (hi : i ∈ inputs) : inputs.count i = 1 := by
  have hnodup : inputs.Nodup := (pairwise_of_mem_crossings h ha hs).imp fun hij => hij.2
  rw [hnodup.count, if_pos hi]

/-- No unavailable value is reported twice. -/
theorem count_eq_one_of_mem_unavailable (h : g.Invariant) (ha : analyze? g b body = some a)
    (hs : (i, s) ∈ a.unavailable) : a.unavailable.count (i, s) = 1 := by
  have hnodup : a.unavailable.Nodup := by
    rw [(reads_eq ha).2]
    exact ((pairwise_outsideReads h ha).filter _).imp fun hij heq => hij.2 (congrArg Prod.fst heq)
  rw [hnodup.count, if_pos hs]

/-- An input reads across the boundary exactly if the read is captured. -/
theorem hasOrigin_crossing_iff (h : g.Invariant) (ha : analyze? g b body = some a) :
    a.HasOrigin i s .crossing ↔ (i, s) ∈ capturedReads g a := by
  constructor
  · rintro ⟨inputs, hs, hcount⟩
    have hi : i ∈ inputs := List.count_pos_iff.1 (by omega)
    exact mem_capturedReads_of_mem_crossings ha hs hi
  · intro hr
    have hi : i ∈ inputsOf (capturedReads g a) s := mem_inputsOf.2 hr
    have hs := (mem_crossings ha).2 ⟨List.ne_nil_of_mem hi, rfl⟩
    exact ⟨_, hs, count_eq_one_of_mem_crossings h ha hs hi⟩

/-- An input reads from nowhere exactly if the read is unavailable. -/
theorem hasOrigin_nowhere_iff (h : g.Invariant) (ha : analyze? g b body = some a) :
    a.HasOrigin i s .nowhere ↔ (i, s) ∈ a.unavailable := by
  refine ⟨fun hcount => ?_, count_eq_one_of_mem_unavailable h ha⟩
  change a.unavailable.count (i, s) = 1 at hcount
  exact List.count_pos_iff.1 (by omega)

/-- Every input of the body has its value from one place. -/
theorem existsUnique_origin (h : g.Invariant) (ha : analyze? g b body = some a)
    (hr : a.Reads g i s) : ∃! o, a.HasOrigin i s o := by
  have hb : a.node ∉ a.after := by
    rw [node_eq ha]
    exact fun hmem => ((isBody_after h.anchored ha).beside b hmem).1 rfl
  have hcross := hasOrigin_crossing_iff (i := i) (s := s) h ha
  have hnone := hasOrigin_nowhere_iff (i := i) (s := s) h ha
  rw [mem_capturedReads h] at hcross
  rw [mem_unavailable h ha] at hnone
  -- the four cases in the order in which the analysis decides them
  by_cases hnode : s.node = a.node
  · refine ⟨.boundary, hnode, fun o ho => ?_⟩
    cases o with
    | boundary => rfl
    | body => exact absurd (hnode ▸ ho : a.node ∈ a.after) hb
    | crossing => exact absurd hnode (hcross.1 ho).2.1
    | nowhere => exact absurd hnode (hnone.1 ho).2.1
  by_cases hafter : s.node ∈ a.after
  · refine ⟨.body, hafter, fun o ho => ?_⟩
    cases o with
    | boundary => exact absurd ho hnode
    | body => rfl
    | crossing => exact absurd hafter (hcross.1 ho).2.2.1
    | nowhere => exact absurd hafter (hnone.1 ho).2.2.1
  by_cases hbefore : s.node ∈ a.before
  · refine ⟨.crossing, hcross.2 ⟨hr, hnode, hafter, hbefore⟩, fun o ho => ?_⟩
    cases o with
    | boundary => exact absurd ho hnode
    | body => exact absurd ho hafter
    | crossing => rfl
    | nowhere => exact absurd hbefore (hnone.1 ho).2.2.2
  · refine ⟨.nowhere, hnone.2 ⟨hr, hnode, hafter, hbefore⟩, fun o ho => ?_⟩
    cases o with
    | boundary => exact absurd ho hnode
    | body => exact absurd ho hafter
    | crossing => exact absurd (hcross.1 ho).2.2.2 hbefore
    | nowhere => rfl

/-- The producer of a value that cannot be had sits in the flow: a pure one would be in the body. -/
theorem not_isPure_of_mem_unavailable (h : g.Invariant) (ha : analyze? g b body = some a)
    (hs : (i, s) ∈ a.unavailable) : ∃ node, g.node? s.node = some node ∧ node.isPure = false := by
  obtain ⟨hr, hnode, hafter, hbefore⟩ := (mem_unavailable h ha).1 hs
  obtain ⟨e, he, rfl, rfl⟩ := hr.live
  obtain ⟨p, hp, -, hv⟩ := hr.input
  obtain ⟨node, hn⟩ := h.anchored.source e he
  refine ⟨node, hn, Bool.eq_false_iff.2 fun hpure => hafter ?_⟩
  rw [node_eq ha] at hnode
  exact (isBody_after h.anchored ha).pure e he hr.inside ⟨p, hp, hv⟩ ⟨node, hn, hpure⟩ hnode hbefore

/-- Nothing that a body reads is lost.  Every value it reads has exactly one origin; every crossing
and every unavailable value is read by the body; each captured output is listed once, is made before
the boundary, and has the inputs that read it in ascending order; and what is unavailable is made by
a node with flow ports that lies in no part of the split. -/
theorem analyze?_reads (hg : g.Reachable) (ha : analyze? g b body = some a) :
    a.node = b ∧
    (∀ i s, a.Reads g i s → ∃! o, a.HasOrigin i s o) ∧
    (∀ s inputs, (s, inputs) ∈ a.crossings → ∀ i ∈ inputs, a.Reads g i s) ∧
    (∀ i s, (i, s) ∈ a.unavailable → a.Reads g i s) ∧
    (a.crossings.map Prod.fst).Nodup ∧
    (∀ s inputs, (s, inputs) ∈ a.crossings →
      s.node ∈ a.before ∧ inputs ≠ [] ∧ inputs.Pairwise Ascending) ∧
    ∀ i s, (i, s) ∈ a.unavailable →
      (∃ node, g.node? s.node = some node ∧ node.isPure = false) ∧
        s.node ∉ a.before ∧ s.node ∉ a.after ∧ s.node ≠ b := by
  have h := hg.invariant
  refine ⟨node_eq ha, fun i s => existsUnique_origin h ha,
    fun s inputs hs i => reads_of_mem_crossings h ha hs, fun i s hs => ?_, nodup_crossings ha,
    fun s inputs hs => ⟨?_, ((mem_crossings ha).1 hs).1, pairwise_of_mem_crossings h ha hs⟩,
    fun i s hs => ⟨not_isPure_of_mem_unavailable h ha hs, ?_⟩⟩
  · exact ((mem_unavailable h ha).1 hs).1
  · obtain ⟨i, hi⟩ := List.exists_mem_of_ne_nil _ ((mem_crossings ha).1 hs).1
    have hr := (mem_capturedReads h).1 (mem_capturedReads_of_mem_crossings ha hs hi)
    exact hr.2.2.2
  · obtain ⟨-, hnode, hafter, hbefore⟩ := (mem_unavailable h ha).1 hs
    exact ⟨hbefore, hafter, by rwa [← node_eq ha]⟩

/-- A captured value and an unavailable one, read by the same node. -/
theorem analyze?_reads_circle : ∃ a, analyze? circle ⟨2⟩ ⟨⟨2⟩, 1⟩ = some a ∧
    a.crossings = [(⟨⟨1⟩, 3⟩, [⟨⟨3⟩, 2⟩])] ∧ a.unavailable = [(⟨⟨3⟩, 1⟩, ⟨⟨4⟩, 3⟩)] ∧
    ∀ i s, a.Reads circle i s → ∃! o, a.HasOrigin i s o := by
  refine ⟨_, circle_analyze?, rfl, rfl, ?_⟩
  exact (analyze?_reads circle_reachable circle_analyze?).2.1

end Boundary

end EntityFlow
