import EntityFlow.Proofs.Graph.Containers
import Mathlib.Data.List.Chain
import Mathlib.Logic.ExistsUnique

/-!
# Trees of containers

A tree grows by one container at a time, put under one that is there.  So parents come before their
children, which is what ends every walk towards the root; and since a child is noted with its parent
when it is made, the lists of children say the same as the parents do.
-/

namespace EntityFlow.ContainerTree

variable {t t' : ContainerTree} {c p x parent : ContainerId} {kind : ContainerKind} {m : MemberId}
  {chain chain' : List ContainerId}

/-! ## Growth -/

def step (t : ContainerTree) (call : ContainerKind × ContainerId) : ContainerTree :=
  match t.add call.1 call.2 with
  | .ok (_, t') => t'
  | .error _ => t

def grow (calls : List (ContainerKind × ContainerId)) : ContainerTree := calls.foldl step empty

/-- The first positions, as many as there are containers. -/
def ids (t : ContainerTree) : List ContainerId := (List.range t.size).map ContainerId.mk

/-- What every call keeps. -/
structure Nested (t : ContainerTree) : Prop where
  /-- Containers are called by their positions. -/
  id_eq : ∀ c d, t.get? c = some d → d.id = c
  contains_root : t.contains root
  parent?_root : t.parent? root = none
  /-- Every other container has a parent that was there before it. -/
  exists_parent : ∀ c, t.contains c → c ≠ root → ∃ p, t.parent? c = some p ∧ p.index < c.index
  /-- The children of a container are those that have it as their parent, in order. -/
  children_eq : ∀ p, t.children p = t.ids.filter fun c => t.parent? c = some p

theorem mem_ids : c ∈ t.ids ↔ t.contains c := by
  obtain ⟨i⟩ := c
  rw [contains_iff_lt, ids]
  simp

theorem not_contains_iff : ¬t.contains c ↔ t.get? c = none := by
  simp [contains]

/-- A container is added within one that exists. -/
theorem contains_of_add (h : t.add kind parent = .ok (c, t')) : t.contains parent := by
  rw [add] at h
  split at h
  · assumption
  · cases h

/-- A new container gets an identity that was not in use. -/
theorem get?_of_add_eq_none (h : t.add kind parent = .ok (c, t')) : t.get? c = none := by
  rw [← not_contains_iff, contains_iff_lt, (add_eq_ok h).1]
  exact Nat.lt_irrefl _

/-- A new container is listed last. -/
theorem ids_add (h : t.add kind parent = .ok (c, t')) : t'.ids = t.ids ++ [c] := by
  obtain ⟨rfl, hsize, -⟩ := add_eq_ok h
  rw [ids, ids, hsize, List.range_succ, List.map_append]
  rfl

theorem parent?_add (h : t.add kind parent = .ok (c, t')) (x : ContainerId) :
    t'.parent? x = if x = c then some parent else t.parent? x := by
  rw [parent?, get?_add h]
  split
  · rfl
  · rw [parent?]
    cases t.get? x with
    | none => rfl
    | some d =>
      rw [Option.map_some, Option.bind_some, Option.bind_some]
      split <;> rfl

/-- A new container is the last child of its parent. -/
theorem children_add (h : t.add kind parent = .ok (c, t')) (x : ContainerId) :
    t'.children x = t.children x ++ if x = parent then [c] else [] := by
  have hparent := contains_of_add h
  have hnew := get?_of_add_eq_none h
  rw [children, children, get?_add h]
  cases hx : t.get? x with
  | none =>
    have hne : x ≠ parent := by
      rintro rfl
      exact not_contains_iff.2 hx hparent
    rw [if_neg hne]
    split <;> rfl
  | some d =>
    have hne : x ≠ c := by
      rintro rfl
      cases hx.symm.trans hnew
    rw [if_neg hne]
    split <;> simp

theorem contains_add (h : t.add kind parent = .ok (c, t')) :
    t'.contains x ↔ t.contains x ∨ x = c := by
  rw [← mem_ids, ids_add h, List.mem_append, mem_ids, List.mem_singleton]

theorem eq_root_of_contains_empty (h : empty.contains c) : c = root := by
  obtain ⟨i⟩ := c
  have hlt : i < 1 := contains_iff_lt.1 h
  obtain rfl : i = 0 := Nat.lt_one_iff.1 hlt
  rfl

theorem nested_empty : empty.Nested where
  id_eq c d h := by
    obtain rfl := eq_root_of_contains_empty (contains_iff.2 ⟨d, h⟩)
    cases h
    rfl
  contains_root := rfl
  parent?_root := rfl
  exists_parent c hc hroot := absurd (eq_root_of_contains_empty hc) hroot
  children_eq p := by
    by_cases hp : empty.contains p
    · obtain rfl := eq_root_of_contains_empty hp
      rfl
    · rw [children, not_contains_iff.1 hp]
      rfl

/-- Adding a container keeps the nesting. -/
theorem Nested.add (hn : t.Nested) (h : t.add kind parent = .ok (c, t')) : t'.Nested := by
  have hold : ∀ x, t.contains x → x ≠ c := by
    rintro x hx rfl
    exact not_contains_iff.2 (get?_of_add_eq_none h) hx
  have hparent : ∀ x, t.contains x → t'.parent? x = t.parent? x := by
    intro x hx
    rw [parent?_add h, if_neg (hold x hx)]
  constructor
  case id_eq =>
    intro x d hx
    rw [get?_add h] at hx
    split at hx
    · rename_i heq
      cases hx
      exact heq.symm
    · obtain ⟨d', hd', rfl⟩ := Option.map_eq_some_iff.1 hx
      have hid := hn.id_eq x d' hd'
      split <;> exact hid
  case contains_root => exact (contains_add h).2 (.inl hn.contains_root)
  case parent?_root => exact (hparent root hn.contains_root).trans hn.parent?_root
  case exists_parent =>
    intro x hx hroot
    rcases (contains_add h).1 hx with hx | rfl
    · rw [hparent x hx]
      exact hn.exists_parent x hx hroot
    · refine ⟨parent, by rw [parent?_add h, if_pos rfl], ?_⟩
      rw [(add_eq_ok h).1]
      exact contains_iff_lt.1 (contains_of_add h)
  case children_eq =>
    intro p
    rw [children_add h, hn.children_eq, ids_add h, List.filter_append]
    congr 1
    · apply List.filter_congr
      intro x hx
      rw [hparent x (mem_ids.1 hx)]
    · simp [parent?_add h, List.filter_singleton, eq_comm]

theorem Nested.step (hn : t.Nested) (call : ContainerKind × ContainerId) :
    (t.step call).Nested := by
  rw [ContainerTree.step]
  split
  · rename_i hadd
    exact hn.add hadd
  · exact hn

/-- However a tree was grown, its containers are nested. -/
theorem nested_grow (calls : List (ContainerKind × ContainerId)) : (grow calls).Nested :=
  List.foldlRecOn calls ContainerTree.step nested_empty fun _ hn call _ => hn.step call

/-! ## The way to the root -/

/-- The walk from a container to its parents, with no bound on its steps: it visits the containers
of `chain` and ends. -/
inductive Climbs (t : ContainerTree) : ContainerId → List ContainerId → Prop
  | unknown {c : ContainerId} (h : ¬t.contains c) : Climbs t c []
  | top {c : ContainerId} (h : t.contains c) (hp : t.parent? c = none) : Climbs t c [c]
  | up {c p : ContainerId} {rest : List ContainerId} (h : t.contains c) (hp : t.parent? c = some p)
      (hrest : Climbs t p rest) : Climbs t c (c :: rest)

/-- There is one way up from a container. -/
theorem Climbs.unique (h : t.Climbs c chain) (h' : t.Climbs c chain') : chain = chain' := by
  induction h generalizing chain' with
  | unknown hc =>
    cases h' with
    | unknown => rfl
    | top hc' | up hc' => exact absurd hc' hc
  | top hc hp =>
    cases h' with
    | unknown hc' => exact absurd hc hc'
    | top => rfl
    | up _ hp' => cases hp.symm.trans hp'
  | up hc hp _ ih =>
    cases h' with
    | unknown hc' => exact absurd hc hc'
    | top _ hp' => cases hp.symm.trans hp'
    | up _ hp' hrest =>
      obtain rfl := Option.some.inj (hp.symm.trans hp')
      rw [ih hrest]

theorem contains_of_parent? (hp : t.parent? c = some p) : t.contains c := by
  obtain ⟨d, hd, -⟩ := Option.bind_eq_some_iff.1 hp
  exact contains_iff.2 ⟨d, hd⟩

/-- A parent exists, and is older than its children. -/
theorem Nested.parent_lt (hn : t.Nested) (hp : t.parent? c = some p) :
    t.contains p ∧ p.index < c.index := by
  have hroot : c ≠ root := by
    rintro rfl
    cases hn.parent?_root.symm.trans hp
  have hc := contains_of_parent? hp
  obtain ⟨p', hp', hlt⟩ := hn.exists_parent c hc hroot
  obtain rfl := Option.some.inj (hp.symm.trans hp')
  exact ⟨contains_iff_lt.2 (Nat.lt_trans hlt (contains_iff_lt.1 hc)), hlt⟩

/-- A walk that may take more steps than there are containers before its start goes to its end. -/
theorem Nested.climbs_chain (hn : t.Nested) {fuel : Nat} (hfuel : c.index < fuel) :
    t.Climbs c (t.chain fuel c) := by
  induction fuel generalizing c with
  | zero => exact absurd hfuel (Nat.not_lt_zero _)
  | succ fuel ih =>
    rw [chain]
    cases hc : t.get? c with
    | none => exact .unknown (not_contains_iff.2 hc)
    | some d =>
      have hcontains := contains_iff.2 ⟨d, hc⟩
      have hparent : t.parent? c = d.parent := by rw [parent?, hc, Option.bind_some]
      cases hp : d.parent with
      | none =>
        simp only [hp]
        exact .top hcontains (hparent.trans hp)
      | some p =>
        simp only [hp]
        have hlt := (hn.parent_lt (hparent.trans hp)).2
        exact .up hcontains (hparent.trans hp) (ih (by omega))

/-- The ancestors of a container are those that the walk to the root visits. -/
theorem Nested.climbs_ancestors (hn : t.Nested) (c : ContainerId) : t.Climbs c (t.ancestors c) := by
  by_cases hc : t.contains c
  · exact hn.climbs_chain (contains_iff_lt.1 hc)
  · rw [ancestors_of_none (not_contains_iff.1 hc)]
    exact .unknown hc

/-- The way from a container to the root, by parents. -/
structure IsWay (t : ContainerTree) (c : ContainerId) (chain : List ContainerId) : Prop where
  head : chain.head? = some c
  last : chain.getLast? = some root
  parents : chain.IsChain fun a b => t.parent? a = some b
  descends : chain.Pairwise fun a b => b.index < a.index

/-- Parents come before their children, so a way goes down. -/
theorem Nested.descends (hn : t.Nested) (h : chain.IsChain fun a b => t.parent? a = some b) :
    chain.Pairwise fun a b => b.index < a.index := by
  let lower (a b : ContainerId) : Prop := b.index < a.index
  have : Trans lower lower lower := ⟨fun hab hbc => Nat.lt_trans hbc hab⟩
  exact List.isChain_iff_pairwise.1 (h.imp fun _ _ hp => (hn.parent_lt hp).2)

/-- The walk from an existing container is a way to the root. -/
theorem Nested.isWay (hn : t.Nested) (h : t.Climbs c chain) (hc : t.contains c) :
    t.IsWay c chain := by
  induction h with
  | unknown hunknown => exact absurd hc hunknown
  | @top c _ hp =>
    have hroot : c = root := by
      by_contra hne
      obtain ⟨p, hp', -⟩ := hn.exists_parent c hc hne
      cases hp.symm.trans hp'
    exact ⟨rfl, congrArg some hroot, List.isChain_singleton _, List.pairwise_singleton _ _⟩
  | @up c p rest _ hp _ ih =>
    have hway := ih (hn.parent_lt hp).1
    have hparents : (c :: rest).IsChain fun a b => t.parent? a = some b := by
      rw [List.isChain_cons, hway.head]
      refine ⟨fun y hy => ?_, hway.parents⟩
      rwa [← Option.mem_some.1 hy]
    exact ⟨rfl, by rw [List.getLast?_cons, hway.last, Option.getD_some], hparents,
      hn.descends hparents⟩

/-! ## The function around a container -/

def IsBody (t : ContainerTree) (c : ContainerId) (m : MemberId) : Prop :=
  ∃ d, t.get? c = some d ∧ d.kind = .function m

def functionOf? (t : ContainerTree) (c : ContainerId) : Option MemberId :=
  match t.get? c with
  | some ⟨_, .function m, _, _⟩ => some m
  | _ => none

/-- The function of a container is the one whose body it is. -/
theorem functionOf?_eq_some : t.functionOf? c = some m ↔ t.IsBody c m := by
  constructor
  · intro h
    rw [functionOf?] at h
    split at h
    · rename_i hc
      cases h
      exact ⟨_, hc, rfl⟩
    · cases h
  · rintro ⟨⟨id, kind, parent, children⟩, hc, rfl⟩
    rw [functionOf?, hc]

/-- A container without function is the body of none. -/
theorem functionOf?_eq_none : t.functionOf? c = none ↔ ∀ m, ¬t.IsBody c m := by
  simp only [← functionOf?_eq_some, Option.eq_none_iff_forall_ne_some, ne_eq]

theorem enclosingFunction?_eq (t : ContainerTree) (c : ContainerId) :
    t.enclosingFunction? c = (t.ancestors c).findSome? t.functionOf? := rfl

/-! ## Grown trees -/

/-- What the queries of a tree say about each other. -/
structure Hierarchy (t : ContainerTree) : Prop where
  /-- Containers are called by their positions. -/
  ids_eq : t.containers.map Container.id = t.ids
  contains_root : t.contains root
  parent?_root : t.parent? root = none
  exists_parent : ∀ c, t.contains c → c ≠ root → ∃ p, t.parent? c = some p ∧ p.index < c.index
  children_eq : ∀ p, t.children p = t.ids.filter fun c => t.parent? c = some p
  children_ascend : ∀ p, (t.children p).Pairwise fun a b => a.index < b.index
  /-- Every container but the root is in one list of children. -/
  existsUnique_children : ∀ c, t.contains c → c ≠ root → ∃! p, c ∈ t.children p
  /-- The walk to the root ends, and ends in one way. -/
  climbs_iff : ∀ c chain, t.Climbs c chain ↔ chain = t.ancestors c
  ancestors_unknown : ∀ c, ¬t.contains c → t.ancestors c = []
  ancestors_isWay : ∀ c, t.contains c → t.IsWay c (t.ancestors c)
  /-- The function around a container is the first one on its way. -/
  enclosing_some : ∀ c m, t.enclosingFunction? c = some m ↔
    ∃ before a after, t.ancestors c = before ++ a :: after ∧ t.IsBody a m ∧
      ∀ b ∈ before, ∀ m', ¬t.IsBody b m'
  enclosing_none : ∀ c, t.enclosingFunction? c = none ↔
    ∀ a ∈ t.ancestors c, ∀ m, ¬t.IsBody a m

/-- Containers are listed in the order of their identities. -/
theorem pairwise_ids (t : ContainerTree) : t.ids.Pairwise fun a b => a.index < b.index :=
  List.pairwise_map.2 List.pairwise_lt_range

/-- Every container has its own identity. -/
theorem Nested.ids_eq (hn : t.Nested) : t.containers.map Container.id = t.ids := by
  apply List.ext_getElem?
  intro i
  rw [ids, List.getElem?_map, List.getElem?_map]
  cases hi : t.containers[i]? with
  | none =>
    have hle : t.size ≤ i := List.getElem?_eq_none_iff.1 hi
    rw [List.getElem?_eq_none (by rwa [List.length_range])]
    rfl
  | some d =>
    have hlt : i < t.size := (List.getElem?_eq_some_iff.1 hi).1
    rw [List.getElem?_range hlt, Option.map_some, hn.id_eq ⟨i⟩ d hi]
    rfl

/-- The children of a container are those whose parent it is. -/
theorem Nested.mem_children (hn : t.Nested) : c ∈ t.children p ↔ t.parent? c = some p := by
  rw [hn.children_eq, List.mem_filter, mem_ids, decide_eq_true_eq]
  exact ⟨And.right, fun hp => ⟨contains_of_parent? hp, hp⟩⟩

/-- However a tree has grown, its containers form a hierarchy. -/
theorem grow_hierarchy (calls : List (ContainerKind × ContainerId)) : (grow calls).Hierarchy := by
  have hn := nested_grow calls
  constructor
  case ids_eq => exact hn.ids_eq
  case contains_root => exact hn.contains_root
  case parent?_root => exact hn.parent?_root
  case exists_parent => exact hn.exists_parent
  case children_eq => exact hn.children_eq
  case children_ascend =>
    intro p
    rw [hn.children_eq]
    exact (pairwise_ids _).filter _
  case existsUnique_children =>
    intro c hc hroot
    obtain ⟨p, hp, -⟩ := hn.exists_parent c hc hroot
    refine ⟨p, hn.mem_children.2 hp, fun q hq => ?_⟩
    exact Option.some.inj ((hn.mem_children.1 hq).symm.trans hp)
  case climbs_iff =>
    intro c chain
    have hclimbs := hn.climbs_ancestors c
    exact ⟨fun h => h.unique hclimbs, fun heq => heq ▸ hclimbs⟩
  case ancestors_unknown => exact fun c hc => ancestors_of_none (not_contains_iff.1 hc)
  case ancestors_isWay => exact fun c => hn.isWay (hn.climbs_ancestors c)
  case enclosing_some =>
    intro c m
    rw [enclosingFunction?_eq, List.findSome?_eq_some_iff]
    simp only [functionOf?_eq_some, functionOf?_eq_none]
  case enclosing_none =>
    intro c
    rw [enclosingFunction?_eq, List.findSome?_eq_none_iff]
    simp only [functionOf?_eq_none]

end EntityFlow.ContainerTree
