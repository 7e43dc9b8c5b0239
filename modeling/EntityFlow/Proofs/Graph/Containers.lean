import EntityFlow.Proofs.Graph.Invariant

/-!
# Containers of graphs

The bodies of functions lie directly under the graph, in every graph that can be built.  So the
function that is nearest around a container is the only one around it.
-/

namespace EntityFlow

namespace ContainerTree

variable {t t' : ContainerTree} {c x parent : ContainerId} {kind : ContainerKind} {m : MemberId}

/-- The container is the body of the function, or lies in it at any depth. -/
inductive Within (t : ContainerTree) (m : MemberId) : ContainerId → Prop
  | body {c : ContainerId} {d : Container} (hc : t.get? c = some d) (hd : d.kind = .function m) :
      Within t m c
  | inside {c p : ContainerId} {d : Container} (hc : t.get? c = some d) (hp : d.parent = some p)
      (h : Within t m p) : Within t m c

/-- Under the root there are bodies of functions, and nothing is under these. -/
structure Flat (t : ContainerTree) : Prop where
  top : ∃ d, t.get? root = some d ∧ d.kind = .graph ∧ d.parent = none
  body : ∀ c d, t.get? c = some d → c ≠ root → d.parent = some root ∧ ∃ m, d.kind = .function m

theorem flat_empty : empty.Flat where
  top := ⟨_, rfl, rfl, rfl⟩
  body c d hc hroot := by
    obtain ⟨hlt, -⟩ := List.getElem?_eq_some_iff.1 hc
    have hindex : c.index = 0 := by simpa [empty] using hlt
    exact absurd (congrArg ContainerId.mk hindex) hroot

/-- A new container is put after the others, and its parent has one child more. -/
theorem get?_add (h : t.add kind parent = .ok (c, t')) (x : ContainerId) : t'.get? x =
    if x = c then some ⟨c, kind, some parent, []⟩
    else (t.get? x).map fun d =>
      if x = parent then { d with children := d.children ++ [c] } else d := by
  simp only [add] at h
  split at h
  · obtain ⟨rfl, rfl⟩ := Prod.mk.inj (Except.ok.inj h)
    obtain ⟨i⟩ := x
    obtain ⟨j⟩ := parent
    simp only [get?, size, ContainerId.mk.injEq, List.getElem?_append, List.length_modify]
    split
    · rename_i hlt
      rw [if_neg (Nat.ne_of_lt hlt), List.getElem?_modify]
      simp only [eq_comm (a := j)]
      rfl
    · rename_i hge
      split
      · rename_i heq
        rw [heq, Nat.sub_self]
        rfl
      · rw [List.getElem?_eq_none (by rw [List.length_singleton]; omega),
          List.getElem?_eq_none (Nat.not_lt.1 hge), Option.map_none]
  · cases h

/-- A container that was there keeps its kind and its parent. -/
theorem get?_of_add (h : t.add kind parent = .ok (c, t')) {d : Container}
    (hx : t'.get? x = some d) : d = ⟨c, kind, some parent, []⟩ ∧ x = c ∨
      ∃ d', t.get? x = some d' ∧ d.kind = d'.kind ∧ d.parent = d'.parent := by
  rw [get?_add h] at hx
  split at hx
  · rename_i heq
    exact .inl ⟨(Option.some.inj hx).symm, heq⟩
  · obtain ⟨d', hd', rfl⟩ := Option.map_eq_some_iff.1 hx
    refine .inr ⟨d', hd', ?_⟩
    split <;> exact ⟨rfl, rfl⟩

/-- Adding a function at the root keeps the tree flat. -/
theorem Flat.add (h : t.Flat) (hadd : t.add (.function m) root = .ok (c, t')) : t'.Flat := by
  obtain ⟨r, hr, hgraph, hparent⟩ := h.top
  have hnew : c ≠ root := by
    intro heq
    have hlt : c.index < t.size := heq ▸ contains_iff_lt.1 (contains_iff.2 ⟨r, hr⟩)
    rw [(add_eq_ok hadd).1] at hlt
    exact absurd hlt (Nat.lt_irrefl _)
  constructor
  case top =>
    obtain ⟨d, hd, -⟩ := (add_eq_ok hadd).2.2.2 root r hr
    rcases get?_of_add hadd hd with ⟨-, heq⟩ | ⟨d', hd', hkind, hparent'⟩
    · exact absurd heq.symm hnew
    · obtain rfl := Option.some.inj (hr.symm.trans hd')
      exact ⟨d, hd, hkind.trans hgraph, hparent'.trans hparent⟩
  case body =>
    intro x d hx hroot
    rcases get?_of_add hadd hx with ⟨rfl, -⟩ | ⟨d', hd', hkind, hparent'⟩
    · exact ⟨rfl, m, rfl⟩
    · rw [hkind, hparent']
      exact h.body x d' hd' hroot

/-- The root is in no function. -/
theorem Flat.not_within_root (h : t.Flat) : ¬t.Within m root := by
  obtain ⟨r, hr, hgraph, hparent⟩ := h.top
  intro hw
  cases hw with
  | body hc hd =>
    obtain rfl := Option.some.inj (hr.symm.trans hc)
    exact absurd (hgraph.symm.trans hd) nofun
  | inside hc hp _ =>
    obtain rfl := Option.some.inj (hr.symm.trans hc)
    exact absurd (hparent.symm.trans hp) nofun

theorem ancestors_of_none (hc : t.get? c = none) : t.ancestors c = [] := by
  rw [ancestors]
  cases t.size with
  | zero => rfl
  | succ k => rw [chain, hc]

theorem ancestors_of_get? {d : Container} (hc : t.get? c = some d) :
    ∃ rest, t.ancestors c = c :: rest ∧ (d.parent = none → rest = []) := by
  have hlt : c.index < t.size := contains_iff_lt.1 (contains_iff.2 ⟨d, hc⟩)
  obtain ⟨k, hk⟩ : ∃ k, t.size = k + 1 := ⟨t.size - 1, by omega⟩
  rw [ancestors, hk, chain, hc]
  refine ⟨_, rfl, fun hparent => ?_⟩
  simp only [hparent]

/-- The walk towards the root stops at the one function that the container lies in. -/
theorem Flat.enclosingFunction?_eq_some (h : t.Flat) :
    t.enclosingFunction? c = some m ↔ t.Within m c := by
  cases hc : t.get? c with
  | none =>
    rw [enclosingFunction?, ancestors_of_none hc]
    refine ⟨nofun, fun hw => ?_⟩
    cases hw with
    | body hd _ => exact absurd (hc.symm.trans hd) nofun
    | inside hd _ _ => exact absurd (hc.symm.trans hd) nofun
  | some d =>
    obtain ⟨rest, hrest, hlast⟩ := ancestors_of_get? hc
    rw [enclosingFunction?, hrest]
    by_cases hroot : c = root
    · obtain ⟨r, hr, hgraph, hparent⟩ := h.top
      subst hroot
      obtain rfl := Option.some.inj (hr.symm.trans hc)
      obtain ⟨_, _, _, _⟩ := r
      subst hgraph
      rw [hlast hparent]
      simpa [hc] using h.not_within_root
    · obtain ⟨hparent, m', hkind⟩ := h.body c d hc hroot
      have hfirst : t.Within m c ↔ m' = m := by
        refine ⟨fun hw => ?_, fun heq => .body hc (hkind.trans (congrArg _ heq))⟩
        cases hw with
        | body hd hm =>
          obtain rfl := Option.some.inj (hc.symm.trans hd)
          exact ContainerKind.function.inj (hkind.symm.trans hm)
        | inside hd hp hw =>
          obtain rfl := Option.some.inj (hc.symm.trans hd)
          obtain rfl := Option.some.inj (hparent.symm.trans hp)
          exact absurd hw h.not_within_root
      obtain ⟨_, _, _, _⟩ := d
      subst hkind
      simp [hc, hfirst]

end ContainerTree

namespace Graph

variable {g : Graph} {n : NodeId} {m : MemberId}

/-- No call nests one function in another. -/
theorem flat_step (hi : g.Invariant) (h : g.containers.Flat) (s : BuildStep) :
    (g.step s).containers.Flat := by
  cases s with
  | addFunction name params returns isStatic =>
    refine outcome_of_ok (P := fun g => g.containers.Flat) h fun _ _ hok => ?_
    obtain ⟨-, c, t, hadd, rfl⟩ := addFunction_eq_ok hok
    exact h.add hadd
  | addVariable v => exact h
  | addProperty p =>
    refine outcome_of_ok (P := fun g => g.containers.Flat) h fun _ _ hok => ?_
    obtain ⟨-, rfl⟩ := addProperty_eq_ok hok
    exact h
  | addNode name kind container =>
    refine outcome_of_ok (P := fun g => g.containers.Flat) h fun _ _ hok => ?_
    obtain ⟨-, job, ports, -, -, -, -, rfl⟩ := addNode_eq_ok hi.threads hok
    exact h
  | connect source output target input =>
    refine outcome_of_ok (P := fun g => g.containers.Flat) h fun _ _ hok => ?_
    obtain ⟨s, t, -, -, hports⟩ := connect_eq_ok hok
    obtain ⟨-, -, -, -, -, -, -, -, rfl⟩ := connectPorts_eq_ok hi.threads hports
    exact h
  | connectPorts source target =>
    refine outcome_of_ok (P := fun g => g.containers.Flat) h fun _ _ hok => ?_
    obtain ⟨-, -, -, -, -, -, -, -, rfl⟩ := connectPorts_eq_ok hi.threads hok
    exact h
  | disconnect id =>
    refine outcome_of_ok (P := fun g => g.containers.Flat) h fun _ _ hok => ?_
    obtain ⟨-, rfl⟩ := disconnect_eq_ok hi.threads hok
    exact h

/-- In a graph that was built no function is nested in another. -/
theorem Reachable.flat (hg : g.Reachable) : g.containers.Flat := by
  have hall : g.Invariant ∧ g.containers.Flat :=
    hg.induction (P := fun g => g.Invariant ∧ g.containers.Flat)
      (fun settings => ⟨invariant_empty settings, ContainerTree.flat_empty⟩)
      fun g s hs => ⟨hs.1.step s, flat_step hs.1 hs.2 s⟩
  exact hall.2

def InBodyOf (g : Graph) (n : NodeId) (m : MemberId) : Prop :=
  ∃ node, g.node? n = some node ∧ g.containers.Within m node.container

/-- The function around a node is the one in whose container the node is placed. -/
theorem Reachable.enclosingFunction?_eq_some (hg : g.Reachable) :
    g.enclosingFunction? n = some m ↔ g.InBodyOf n m := by
  rw [enclosingFunction?, Option.bind_eq_some_iff, InBodyOf]
  simp only [hg.flat.enclosingFunction?_eq_some]

end Graph

end EntityFlow
