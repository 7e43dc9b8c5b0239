import EntityFlow.Proofs.Boundary.Split
import Mathlib.Data.List.Nodup

/-!
# The members that a body refers to

Analysis collects the members that a body refers to by what the nodes say of them.  In a reachable
graph nodes say the truth, so variables, properties and functions are told apart, and none is listed
twice.
-/

namespace EntityFlow

namespace Graph

variable {g : Graph} {m : MemberId} {ms : List MemberId} {ns : List NodeId} {n : NodeId}
  {target : MemberTarget}

/-- Members are collected in the order of their declaration. -/
theorem pairwise_memberIds (g : Graph) : g.memberIds.Pairwise fun m m' => m.index < m'.index := by
  rw [memberIds, List.pairwise_map]
  exact List.pairwise_lt_range

/-- Members are listed in the order of the graph. -/
theorem pairwise_membersAmong (g : Graph) (ms : List MemberId) :
    (g.membersAmong ms).Pairwise fun m m' => m.index < m'.index :=
  (pairwise_memberIds g).filter _

theorem pairwise_referencedFunctions (g : Graph) (ns : List NodeId) :
    (g.referencedFunctions ns).Pairwise fun m m' => m.index < m'.index :=
  (pairwise_memberIds g).sublist closure_sublist

theorem nodup_of_ascending (h : ms.Pairwise fun m m' => m.index < m'.index) : ms.Nodup := by
  refine h.imp fun {m m'} hlt => ?_
  rintro rfl
  exact Nat.lt_irrefl _ hlt

theorem mem_membersAmong : m ∈ g.membersAmong ms ↔ m.index < g.members.length ∧ m ∈ ms := by
  simp only [membersAmong, memberIds, List.mem_filter, List.mem_map, List.mem_range,
    List.contains_iff_mem]
  refine and_congr_left fun _ => ⟨?_, fun h => ⟨m.index, h, rfl⟩⟩
  rintro ⟨i, hi, rfl⟩
  exact hi

/-- A node stands for a member exactly if its kind says so. -/
theorem target?_eq_some : g.target? n = some target ↔ g.kind? n = some (.member target) := by
  unfold target?
  split
  · rename_i hkind
    simp [hkind]
  · rename_i hkind
    exact iff_of_false (by simp) (hkind target)

/-- What a node stands for is referred to by the graph. -/
theorem refers_of_target? (h : g.Invariant) (ht : g.target? n = some target) :
    g.Refers (.member target) := by
  obtain ⟨node, hnode, hkind⟩ := Option.map_eq_some_iff.1 (target?_eq_some.1 ht)
  exact hkind ▸ h.refers n node hnode

/-! ## Members of instances -/

/-- A member of the unit's instances that is a function. -/
def IsInstanceFunction (g : Graph) (m : MemberId) : Prop :=
  ∃ f, g.member? m = some (.function f) ∧ f.isStatic = false

def IsInstanceProperty (g : Graph) (m : MemberId) : Prop :=
  ∃ p, g.member? m = some (.property p) ∧ p.isStatic = false

def IsInstanceVariable (g : Graph) (m : MemberId) : Prop :=
  ∃ v, g.member? m = some (.variable v) ∧ v.isStatic = false

theorem instanceMember?_eq_some {x : Member} :
    g.instanceMember? m = some x ↔ g.member? m = some x ∧ x.isStatic = false := by
  simp [instanceMember?, Option.filter_eq_some_iff]

theorem isSome_instanceFunction :
    ((g.instanceMember? m).bind Member.asFunction).isSome ↔ g.IsInstanceFunction m := by
  simp only [Option.isSome_iff_exists, Option.bind_eq_some_iff, instanceMember?_eq_some,
    Member.asFunction_eq_some]
  constructor
  · rintro ⟨f, _, ⟨hmember, hstatic⟩, rfl⟩
    exact ⟨f, hmember, hstatic⟩
  · rintro ⟨f, hmember, hstatic⟩
    exact ⟨f, _, ⟨hmember, hstatic⟩, rfl⟩

theorem isSome_instanceProperty :
    ((g.instanceMember? m).bind Member.asProperty).isSome ↔ g.IsInstanceProperty m := by
  simp only [Option.isSome_iff_exists, Option.bind_eq_some_iff, instanceMember?_eq_some,
    Member.asProperty_eq_some]
  constructor
  · rintro ⟨p, _, ⟨hmember, hstatic⟩, rfl⟩
    exact ⟨p, hmember, hstatic⟩
  · rintro ⟨p, hmember, hstatic⟩
    exact ⟨p, _, ⟨hmember, hstatic⟩, rfl⟩

/-- Of a variable nothing else has to be known than that it is no static member. -/
theorem isSome_instanceMember? {v : Variable} (hv : g.member? m = some (.variable v)) :
    (g.instanceMember? m).isSome ↔ g.IsInstanceVariable m := by
  simp only [Option.isSome_iff_exists, instanceMember?_eq_some, IsInstanceVariable, hv]
  constructor
  · rintro ⟨_, ⟨⟩, hstatic⟩
    exact ⟨v, rfl, hstatic⟩
  · rintro ⟨_, ⟨⟩, hstatic⟩
    exact ⟨_, rfl, hstatic⟩

/-! ## What is collected -/

/-- The called functions are the instance functions that some node stands for. -/
theorem mem_calledFunctions : m ∈ g.calledFunctions ns ↔
    g.IsInstanceFunction m ∧ ∃ n ∈ ns, g.target? n = some (.function m) := by
  rw [calledFunctions, List.mem_filterMap]
  constructor
  · rintro ⟨n, hn, hm⟩
    split at hm
    · split at hm
      · obtain rfl := Option.some.inj hm
        exact ⟨isSome_instanceFunction.1 ‹_›, n, hn, ‹_›⟩
      · cases hm
    · cases hm
  · rintro ⟨hm, n, hn, htarget⟩
    exact ⟨n, hn, by simp [htarget, isSome_instanceFunction.2 hm]⟩

/-- The properties are the instance properties that some node stands for. -/
theorem mem_referencedProperties : m ∈ g.referencedProperties ns ↔
    g.IsInstanceProperty m ∧ ∃ n ∈ ns, g.target? n = some (.property m) := by
  rw [referencedProperties, mem_membersAmong, List.mem_filterMap]
  constructor
  · rintro ⟨-, n, hn, hm⟩
    split at hm
    · split at hm
      · obtain rfl := Option.some.inj hm
        exact ⟨isSome_instanceProperty.1 ‹_›, n, hn, ‹_›⟩
      · cases hm
    · cases hm
  · rintro ⟨hm, n, hn, htarget⟩
    obtain ⟨p, hp, -⟩ := id hm
    exact ⟨index_lt_of_member? hp, n, hn, by simp [htarget, isSome_instanceProperty.2 hm]⟩

/-- Nodes and properties refer to variables as such, so that one collected is a variable. -/
theorem mem_referencedVariables {properties : List MemberId} (hg : g.Invariant) :
    m ∈ g.referencedVariables ns properties ↔ g.IsInstanceVariable m ∧
      ((∃ n ∈ ns, g.target? n = some (.variable m)) ∨
        ∃ owner ∈ properties, ∃ p, g.member? owner = some (.property p) ∧ p.backing = some m) := by
  simp only [referencedVariables, mem_membersAmong, List.mem_append, List.mem_filterMap]
  constructor
  · rintro ⟨-, ⟨n, hn, hm⟩ | ⟨owner, howner, hm⟩⟩
    · split at hm
      · rename_i htarget
        split at hm
        · obtain rfl := Option.some.inj hm
          obtain ⟨v, hv⟩ := refers_of_target? hg htarget
          exact ⟨(isSome_instanceMember? hv).1 ‹_›, .inl ⟨n, hn, htarget⟩⟩
        · cases hm
      · cases hm
    · obtain ⟨hbacking, hinstance⟩ := Option.filter_eq_some_iff.1 hm
      obtain ⟨p, hview, hbacks⟩ := Option.bind_eq_some_iff.1 hbacking
      obtain ⟨_, hp, hproperty⟩ := Option.bind_eq_some_iff.1 hview
      obtain rfl := Member.asProperty_eq_some.1 hproperty
      obtain ⟨v, hv⟩ := hg.backed owner p m hp hbacks
      exact ⟨(isSome_instanceMember? hv).1 hinstance, .inr ⟨owner, howner, p, hp, hbacks⟩⟩
  · rintro ⟨hm, hsource⟩
    obtain ⟨v, hv, -⟩ := id hm
    have hinstance := (isSome_instanceMember? hv).2 hm
    refine ⟨index_lt_of_member? hv, ?_⟩
    rcases hsource with ⟨n, hn, htarget⟩ | ⟨owner, howner, p, hp, hbacks⟩
    · exact .inl ⟨n, hn, by simp [htarget, hinstance]⟩
    · exact .inr ⟨owner, howner, by simp [hp, Member.asProperty, hbacks, hinstance]⟩

theorem isInstanceFunction_of_mem_referencedFunctions (h : m ∈ g.referencedFunctions ns) :
    g.IsInstanceFunction m :=
  closure_induction (p := g.IsInstanceFunction) (fun _ hm _ => (mem_calledFunctions.1 hm).1)
    (fun _ _ _ hm _ => (mem_calledFunctions.1 hm).1) m h

end Graph

namespace Boundary

open EntityFlow.Graph

variable {g : Graph} {b : NodeId} {body : PortRef} {a : Boundary} {m : MemberId}

/-- The members of a boundary are taken from its body and from the functions that the body calls. -/
theorem members_eq (ha : analyze? g b body = some a) :
    a.functions = g.referencedFunctions a.after ∧
    a.properties = g.referencedProperties (a.after ++ g.functionNodes a.functions) ∧
    a.vars = g.referencedVariables (a.after ++ g.functionNodes a.functions) a.properties := by
  simp only [analyze?] at ha
  split at ha
  · cases ha
  · rw [← Option.some.inj ha]
    exact ⟨rfl, rfl, rfl⟩

theorem isInstanceFunction_of_mem (ha : analyze? g b body = some a) (hm : m ∈ a.functions) :
    g.IsInstanceFunction m := by
  rw [(members_eq ha).1] at hm
  exact isInstanceFunction_of_mem_referencedFunctions hm

/-- The properties of a boundary are properties of the unit. -/
theorem exists_property_of_mem (ha : analyze? g b body = some a) (hm : m ∈ a.properties) :
    ∃ p, g.member? m = some (.property p) := by
  rw [(members_eq ha).2.1] at hm
  obtain ⟨⟨p, hp, -⟩, -⟩ := mem_referencedProperties.1 hm
  exact ⟨p, hp⟩

/-- The variables of a boundary are variables of the unit, backing variables included. -/
theorem exists_variable_of_mem (hg : g.Invariant) (ha : analyze? g b body = some a)
    (hm : m ∈ a.vars) : ∃ v, g.member? m = some (.variable v) := by
  rw [(members_eq ha).2.2] at hm
  obtain ⟨⟨v, hv, -⟩, -⟩ := (mem_referencedVariables hg).1 hm
  exact ⟨v, hv⟩

theorem nodup_functions (ha : analyze? g b body = some a) : a.functions.Nodup := by
  rw [(members_eq ha).1]
  exact nodup_of_ascending (pairwise_referencedFunctions g _)

theorem nodup_properties (ha : analyze? g b body = some a) : a.properties.Nodup := by
  rw [(members_eq ha).2.1]
  exact nodup_of_ascending (pairwise_membersAmong g _)

end Boundary

end EntityFlow
