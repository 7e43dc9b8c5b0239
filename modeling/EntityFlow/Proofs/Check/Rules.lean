import EntityFlow.Check
import EntityFlow.Proofs.Generation.Successors
import EntityFlow.Proofs.Graph.Containers
import EntityFlow.Proofs.Graph.Lookup
import EntityFlow.Proofs.Graph.Views
import EntityFlow.Proofs.Planning.Names

/-!
# What authoring analysis accepts

Analysis walks over members, items and nodes with counters and lists of what it has seen.  It has
nothing to say about a graph exactly if the graph is well authored, and that is said without any
walk: by what holds of each member, of each two items, and of what is connected to a node.
-/

namespace EntityFlow

/-! ## The rules -/

/-- The type is an instance of one of the wrappers that aspects can have variables of. -/
def TypeRef.Wraps (t : TypeRef) : Prop :=
  ∃ w ∈ ["RefRO", "RefRW", "EnabledRefRO", "EnabledRefRW", "DynamicBuffer"], ∃ rest,
    t.name = w ++ "<" ++ rest

structure QueryItem.Rules (items : List QueryItem) : Prop where
  typed : ∀ x ∈ items, x.type ≠ none
  component : ∀ x ∈ items, x.access = .readOnly ∨ x.access = .readWrite →
    ∀ t, x.type = some t → t.isComponent
  distinct : items.Pairwise fun x y => ∀ s t, x.type = some s → y.type = some t → s.name ≠ t.name

namespace Graph

def FedBy (g : Graph) (n : NodeId) (name : String) (o : PortRef) : Prop :=
  ∃ e ∈ g.live, e.source = o ∧ e.target.node = n ∧ ∃ p, g.port? e.target = some p ∧ p.name = name

def Fed (g : Graph) (n : NodeId) (name : String) : Prop := ∃ o, g.FedBy n name o

/-- What is asked of an aspect and its members. -/
structure AspectRules (g : Graph) : Prop where
  modifier : g.settings.modifier.isStruct ∧ g.settings.modifier.readOnly ∧
    g.settings.modifier.isPartial
  declared : ∃ m v, g.member? m = some (.variable v)
  readOnly : ∀ m v, g.member? m = some (.variable v) → v.readOnly
  supported : ∀ m v, g.member? m = some (.variable v) →
    v.type.category = .entity ∨ v.type.category = .aspect ∨ v.type.Wraps
  single : ∀ m m' v v', g.member? m = some (.variable v) → g.member? m' = some (.variable v') →
    v.type.category = .entity → v'.type.category = .entity → m = m'
  backed : ∀ m p, g.member? m = some (.property p) → p.backing ≠ none

/-- What is asked of loops and jobs over entities.  Only what runs at once can filter by the value
of a shared component. -/
structure QueryRules (g : Graph) : Prop where
  loop : ∀ n spec, g.kind? n = some (.foreach spec) → spec.items ≠ [] ∧ QueryItem.Rules spec.items ∧
    (spec.run ≠ .run → spec.filters.withSharedComponent = [])
  job : ∀ n spec, g.kind? n = some (.jobEntity spec) →
    (spec.items ≠ [] ∨ spec.entityAccess) ∧ QueryItem.Rules spec.items ∧
      spec.filters.withSharedComponent = []

/-- What is asked of operations on entities, executors and assignments. -/
structure EntityRules (g : Graph) : Prop where
  systemApi : ∀ n e owner, g.kind? n = some (.member (.external e)) → e.receiver = none →
    e.owner = some owner → owner.name = "SystemAPI" → g.settings.flavor ≠ .aspect ∧
      ∀ m f, g.InBodyOf n m → g.member? m = some (.function f) → ¬f.isStatic
  setComponent : ∀ n component, g.kind? n = some (.setComponent component) →
    (∃ t, component = some t ∧ t.isValueType) ∧ g.Fed n PortName.entity
  setComponentEnabled : ∀ n component, g.kind? n = some (.setComponentEnabled component) →
    component ≠ none ∧ g.Fed n PortName.entity
  getComponent : ∀ n component, g.kind? n = some (.getComponent component) →
    component ≠ none ∧ g.Fed n PortName.entity
  destroyEntity : ∀ n, g.kind? n = some .destroyEntity → g.Fed n PortName.entity
  executor : ∀ n runWith job, g.kind? n = some (.executor runWith job) → job ≠ none
  setValue : ∀ n, g.kind? n = some .setValue →
    ∃ o p, g.FedBy n PortName.target o ∧ g.port? o = some p ∧
    ∃ type, p.kind = .value type .readWrite

/-- Nothing about the graph has to be reported. -/
structure WellAuthored (g : Graph) : Prop where
  aspect : g.settings.flavor = .aspect → g.AspectRules
  query : g.QueryRules
  entity : g.EntityRules

end Graph

namespace Check

/-- A requirement is silent exactly if it holds. -/
theorem require_eq_nil {holds : Bool} {d : Diagnostic} : require holds d = [] ↔ holds = true := by
  cases holds <;> simp [require]

/-! ## Aspects -/

/-- If none of those that `q` holds of has exactly one of them before it, there are not two of them
in any beginning of the list. -/
theorem length_filter_take_le {α : Type} {q : α → Bool} {l : List α}
    (h : ∀ i x, l[i]? = some x → q x → ((l.take i).filter q).length ≠ 1) (i : Nat) :
    ((l.take i).filter q).length ≤ 1 := by
  induction i with
  | zero => simp
  | succ i ih =>
    rw [List.take_add_one, List.filter_append, List.length_append]
    cases hx : l[i]? with
    | none => simpa using ih
    | some x =>
      by_cases hq : q x
      · have hfirst := h i x hx hq
        simp only [Option.toList_some, List.filter_cons_of_pos hq, List.filter_nil,
          List.length_singleton]
        omega
      · simpa [hq] using ih

/-- A check that fails at the second of two says the same as one about any two. -/
theorem forall_length_filter_take_ne_one {α : Type} {q : α → Bool} {l : List α} :
    (∀ i x, l[i]? = some x → q x → ((l.take i).filter q).length ≠ 1) ↔
      ∀ (i j : Nat) x y, l[i]? = some x → l[j]? = some y → q x → q y → i = j := by
  constructor
  · intro h
    have hlt : ∀ (i j : Nat) x y, l[i]? = some x → l[j]? = some y → q x → q y → ¬i < j := by
      intro i j x y hx hy hqx hqy hij
      have hmem : x ∈ (l.take j).filter q := by
        refine List.mem_filter.2 ⟨List.mem_of_getElem? (i := i) ?_, hqx⟩
        rw [List.getElem?_take_of_lt hij, hx]
      have hone := h j y hy hqy
      have hmost := length_filter_take_le h j
      have hsome := List.length_pos_of_mem hmem
      omega
    intro i j x y hx hy hqx hqy
    have hij := hlt i j x y hx hy hqx hqy
    have hji := hlt j i y x hy hx hqy hqx
    omega
  · intro h i x hx hqx hone
    obtain ⟨y, hy⟩ := List.length_eq_one_iff.1 hone
    have hmem : y ∈ (l.take i).filter q := by rw [hy]; exact List.mem_singleton_self y
    obtain ⟨hmem, hqy⟩ := List.mem_filter.1 hmem
    obtain ⟨j, hj⟩ := List.mem_iff_getElem?.1 hmem
    have hij : j < i := by
      obtain ⟨hlt, -⟩ := List.getElem?_eq_some_iff.1 hj
      rw [List.length_take] at hlt
      omega
    rw [List.getElem?_take_of_lt hij] at hj
    exact absurd (h j i y x hj hx hqy hqx) (Nat.ne_of_lt hij)

/-! ### Members -/

theorem isPrefixOf_iff {w text : String} :
    w.toList.isPrefixOf text.toList = true ↔ ∃ rest, text = w ++ rest := by
  rw [List.isPrefixOf_iff_prefix]
  constructor
  · rintro ⟨rest, hrest⟩
    refine ⟨String.ofList rest, String.toList_inj.1 ?_⟩
    rw [String.toList_append, String.toList_ofList, hrest]
  · rintro ⟨rest, rfl⟩
    exact ⟨rest.toList, (String.toList_append).symm⟩

/-- The supported types are entities, aspects and the wrappers of components. -/
theorem isSupported_iff {t : TypeRef} :
    isSupported t = true ↔ t.category = .entity ∨ t.category = .aspect ∨ t.Wraps := by
  have hwrappers : supportedWrappers =
      ["RefRO", "RefRW", "EnabledRefRO", "EnabledRefRW", "DynamicBuffer"].map
        (· ++ "<") := by decide
  have hwraps : (supportedWrappers.any fun w => w.toList.isPrefixOf t.name.toList) = true ↔
      t.Wraps := by
    simp only [hwrappers, List.any_map, List.any_eq_true, Function.comp_apply, isPrefixOf_iff,
      TypeRef.Wraps]
  rw [isSupported, Bool.or_eq_true, Bool.or_eq_true, beq_iff_eq, beq_iff_eq, hwraps, or_assoc]

/-- The rules for one member of an aspect, apart from the one that compares it with the others. -/
def MemberRules : Member → Prop
  | .variable v => v.readOnly ∧
    (v.type.category = .entity ∨ v.type.category = .aspect ∨ v.type.Wraps)
  | .property p => p.backing ≠ none
  | .function _ => True

/-- A member passes if it keeps the rules and is not the second entity. -/
theorem aspectMember_eq_nil {earlier : List Member} {id : MemberId} {x : Member} :
    aspectMember earlier id x = [] ↔
      MemberRules x ∧ (isEntityVariable x → (earlier.filter isEntityVariable).length ≠ 1) := by
  cases x with
  | function f => simp [aspectMember, MemberRules, isEntityVariable]
  | property p =>
    simp [aspectMember, MemberRules, isEntityVariable, require_eq_nil, Property.isAuto,
      Option.isSome_iff_ne_none]
  | «variable» v =>
    simp [aspectMember, MemberRules, isEntityVariable, require_eq_nil, isSupported_iff, and_assoc,
      imp_iff_not_or]

theorem isEntityVariable_iff {x : Member} :
    isEntityVariable x = true ↔ ∃ v, x = .variable v ∧ v.type.category = .entity := by
  cases x <;> simp [isEntityVariable]

variable {g : Graph}

/-- A statement about all listed members is one about all identities. -/
theorem forall_mem_indexedMembers {P : MemberId → Member → Prop} :
    (∀ y ∈ g.indexedMembers, P y.1 y.2) ↔ ∀ m x, g.member? m = some x → P m x := by
  constructor
  · exact fun h m x hx => h (m, x) (Graph.mem_indexedMembers.2 hx)
  · exact fun h y hy => h y.1 y.2 (Graph.mem_indexedMembers.1 hy)

/-- All members pass exactly if each keeps the rules and at most one is an entity. -/
theorem aspectMembers_eq_nil :
    (∀ y ∈ g.indexedMembers, aspectMember (g.members.take y.1.index) y.1 y.2 = []) ↔
      (∀ m x, g.member? m = some x → MemberRules x) ∧
      ∀ m m' v v', g.member? m = some (.variable v) → g.member? m' = some (.variable v') →
        v.type.category = .entity → v'.type.category = .entity → m = m' := by
  rw [forall_mem_indexedMembers (P := fun m x => aspectMember (g.members.take m.index) m x = [])]
  have hsingle := forall_length_filter_take_ne_one (q := isEntityVariable) (l := g.members)
  simp only [aspectMember_eq_nil, forall_and]
  refine and_congr_right fun _ => ?_
  constructor
  · intro h m m' v v' hv hv' hentity hentity'
    have heq := hsingle.1 (fun i x hx => h ⟨i⟩ x hx) m.index m'.index _ _ hv hv'
      (isEntityVariable_iff.2 ⟨v, rfl, hentity⟩) (isEntityVariable_iff.2 ⟨v', rfl, hentity'⟩)
    exact congrArg MemberId.mk heq
  · intro h m x hx
    refine hsingle.2 (fun i j x y hx hy hqx hqy => ?_) m.index x hx
    obtain ⟨v, rfl, hentity⟩ := isEntityVariable_iff.1 hqx
    obtain ⟨v', rfl, hentity'⟩ := isEntityVariable_iff.1 hqy
    exact congrArg MemberId.index (h ⟨i⟩ ⟨j⟩ v v' hx hy hentity hentity')

/-- Only aspects have rules for their members. -/
theorem aspect_eq_nil : aspect g = [] ↔ (g.settings.flavor = .aspect → g.AspectRules) := by
  rw [aspect]
  split
  next hflavor =>
    simp only [List.append_eq_nil_iff, List.flatMap_eq_nil_iff, require_eq_nil]
    rw [aspectMembers_eq_nil, List.any_eq_true]
    constructor
    · rintro ⟨⟨⟨⟨hstruct, hreadOnly⟩, hpartial⟩, hmembers, hsingle⟩, x, hx, hvariable⟩ -
      obtain ⟨i, hi⟩ := List.mem_iff_getElem?.1 hx
      obtain ⟨v, hv⟩ := Option.isSome_iff_exists.1 hvariable
      obtain rfl := Member.asVariable_eq_some.1 hv
      exact {
        modifier := ⟨hstruct, hreadOnly, hpartial⟩
        declared := ⟨⟨i⟩, v, hi⟩
        readOnly := fun m v hv => (hmembers m _ hv).1
        supported := fun m v hv => (hmembers m _ hv).2
        single := hsingle
        backed := fun m p hp => hmembers m _ hp }
    · intro h
      have hrules := h hflavor
      obtain ⟨m, v, hv⟩ := hrules.declared
      obtain ⟨hstruct, hreadOnly, hpartial⟩ := hrules.modifier
      refine ⟨⟨⟨⟨hstruct, hreadOnly⟩, hpartial⟩, fun m x hx => ?_, hrules.single⟩,
        .variable v, List.mem_of_getElem? hv, rfl⟩
      cases x with
      | function f => trivial
      | property p => exact hrules.backed m p hx
      | «variable» v => exact ⟨hrules.readOnly m v hx, hrules.supported m v hx⟩
  next hflavor => exact ⟨fun _ h => absurd h hflavor, fun _ => rfl⟩

/-! ## Queries -/

theorem requiresComponent_iff {a : ItemAccess} :
    a.requiresComponent = true ↔ a = .readOnly ∨ a = .readWrite := by
  cases a <;> decide

/-- An item is judged by itself and against the items after it. -/
theorem rules_cons {x : QueryItem} {rest : List QueryItem} {t : TypeRef} (htype : x.type = some t) :
    QueryItem.Rules (x :: rest) ↔ (x.access.requiresComponent = false ∨ t.isComponent) ∧
      QueryItem.Rules rest ∧ ∀ y ∈ rest, ∀ s, y.type = some s → s.name ≠ t.name := by
  constructor
  · intro h
    have hpairs := List.pairwise_cons.1 h.distinct
    refine ⟨?_, ⟨fun y hy => h.typed y (List.mem_cons_of_mem _ hy),
      fun y hy => h.component y (List.mem_cons_of_mem _ hy), hpairs.2⟩,
      fun y hy s hs => (hpairs.1 y hy t s htype hs).symm⟩
    rw [or_iff_not_imp_left, Bool.not_eq_false, requiresComponent_iff]
    exact fun haccess => h.component x List.mem_cons_self haccess t htype
  · rintro ⟨hcomponent, hrest, hdistinct⟩
    rw [or_iff_not_imp_left, Bool.not_eq_false, requiresComponent_iff] at hcomponent
    constructor
    case typed =>
      refine List.forall_mem_cons.2 ⟨?_, hrest.typed⟩
      rw [htype]
      exact Option.some_ne_none t
    case component =>
      refine List.forall_mem_cons.2 ⟨fun haccess s hs => ?_, hrest.component⟩
      rw [← Option.some.inj (htype.symm.trans hs)]
      exact hcomponent haccess
    case distinct =>
      refine List.pairwise_cons.2 ⟨fun y hy s s' hs hs' => ?_, hrest.distinct⟩
      rw [← Option.some.inj (htype.symm.trans hs)]
      exact (hdistinct y hy s' hs').symm

/-- By induction on the items: `seen` grows by the names that the later items must not have. -/
theorem items_eq_nil {n : NodeId} {seen : List String} {xs : List QueryItem} :
    items n seen xs = [] ↔
      QueryItem.Rules xs ∧ ∀ x ∈ xs, ∀ t, x.type = some t → t.name ∉ seen := by
  induction xs generalizing seen with
  | nil => exact ⟨fun _ => ⟨⟨nofun, nofun, .nil⟩, nofun⟩, fun _ => rfl⟩
  | cons x rest ih =>
    rw [items]
    split
    next htype =>
      refine ⟨nofun, fun h => absurd htype (h.1.typed x List.mem_cons_self)⟩
    next t htype =>
      rw [List.append_eq_nil_iff, List.append_eq_nil_iff, require_eq_nil, require_eq_nil, ih,
        rules_cons htype]
      simp only [List.mem_cons, not_or, Bool.or_eq_true, Bool.not_eq_true', List.contains_eq_mem,
        decide_eq_false_iff_not]
      grind

/-- A check of all nodes finds nothing exactly if it finds nothing at any node. -/
theorem forall_kind_of_flatMap {f : NodeId → NodeKind → List Diagnostic} :
    (g.nodeIds.flatMap fun n => ((g.kind? n).map (f n)).getD []) = [] ↔
      ∀ n k, g.kind? n = some k → f n k = [] := by
  rw [List.flatMap_eq_nil_iff]
  constructor
  · intro h n k hk
    obtain ⟨node, hn, -⟩ := Option.map_eq_some_iff.1 hk
    have hnil := h n (Graph.mem_nodeIds.2 ⟨node, hn⟩)
    rwa [hk] at hnil
  · intro h n _
    cases hk : g.kind? n with
    | none => rfl
    | some k => exact h n k hk

theorem isDeferred_iff {d : Discipline} : d.isDeferred = true ↔ d ≠ .run := by
  cases d <;> decide

/-- The items of a query pass exactly if they keep the rules. -/
theorem items_nil_eq_nil {n : NodeId} {xs : List QueryItem} :
    items n [] xs = [] ↔ QueryItem.Rules xs := by
  rw [items_eq_nil]
  exact and_iff_left fun _ _ _ _ => List.not_mem_nil

/-- When a loop passes. -/
theorem queryNode_foreach {n : NodeId} {spec : ForeachSpec} : queryNode n (.foreach spec) = [] ↔
    spec.items ≠ [] ∧ QueryItem.Rules spec.items ∧
      (spec.run ≠ .run → spec.filters.withSharedComponent = []) := by
  rw [queryNode, List.append_eq_nil_iff, List.append_eq_nil_iff, require_eq_nil, items_nil_eq_nil,
    and_assoc, ← isDeferred_iff]
  refine and_congr (by simp) (and_congr_right fun _ => ?_)
  split
  next hdeferred => simp [sharedFilter, require_eq_nil, hdeferred]
  next hdeferred => simp [hdeferred]

/-- When a job over entities passes. -/
theorem queryNode_jobEntity {n : NodeId} {spec : JobEntitySpec} :
    queryNode n (.jobEntity spec) = [] ↔
    (spec.items ≠ [] ∨ spec.entityAccess) ∧ QueryItem.Rules spec.items ∧
      spec.filters.withSharedComponent = [] := by
  rw [queryNode, List.append_eq_nil_iff, List.append_eq_nil_iff, require_eq_nil, items_nil_eq_nil,
    and_assoc, sharedFilter, require_eq_nil]
  simp

/-- The check of queries is silent exactly if the graph keeps the rules for queries. -/
theorem query_eq_nil : query g = [] ↔ g.QueryRules := by
  rw [query, forall_kind_of_flatMap]
  constructor
  · exact fun h => ⟨fun n spec hk => queryNode_foreach.1 (h n _ hk),
      fun n spec hk => queryNode_jobEntity.1 (h n _ hk)⟩
  · intro h n k hk
    cases k with
    | «foreach» spec => exact queryNode_foreach.2 (h.loop n spec hk)
    | jobEntity spec => exact queryNode_jobEntity.2 (h.job n spec hk)
    | _ => rfl

/-! ## Entities -/

section Inputs

variable {n : NodeId} {k : NodeKind} {ports : List Port} {name : String}

/-- The kind calls for these few ports, of different names, whatever has been declared. -/
structure Fixed (k : NodeKind) (ports : List Port) : Prop where
  layout : ∀ members job, k.layout members job = .ok ports
  distinct : (ports.map Port.name).Nodup
  few : ports.length ≤ 65536

/-- What is connected to a port of that name is connected to the one port that the name finds. -/
theorem Fixed.exists_input (hfixed : Fixed k ports) (hg : g.Reachable) (hk : g.kind? n = some k)
    (hname : name ∈ ports.map Port.name) : ∃ r p, g.portRef n name = .ok r ∧ g.port? r = some p ∧
      p ∈ ports ∧ p.name = name ∧
      ∀ o, g.FedBy n name o ↔ ∃ e ∈ g.live, e.source = o ∧ e.target = r := by
  obtain ⟨node, hn, rfl⟩ := Option.map_eq_some_iff.1 hk
  obtain ⟨job, -, hlayout⟩ := hg.laidOut hn
  obtain rfl := Except.ok.inj (hlayout.symm.trans (hfixed.layout g.members job))
  obtain ⟨q, hq, rfl⟩ := List.mem_map.1 hname
  obtain ⟨r, hr⟩ := Graph.exists_portRef hn hname
  obtain ⟨-, p, -, rfl, hp, hpname, -⟩ := Graph.exists_port_of_portRef hr
  have hsame := hpname.2 (Graph.inReach_of_length_le hn hfixed.few hq)
  have hmem : p ∈ node.ports := List.mem_of_getElem? ((Graph.port?_of_node hn).symm.trans hp)
  refine ⟨r, p, hr, hp, hmem, hsame, fun o => ⟨?_, ?_⟩⟩
  · rintro ⟨e, he, rfl, htarget, p', hp', hname'⟩
    have hfound := Graph.portRef_of_port? (htarget ▸ hn) hfixed.distinct hp'
    rw [htarget, hname', hr] at hfound
    exact ⟨e, he, rfl, (Except.ok.inj hfound).symm⟩
  · rintro ⟨e, he, rfl, rfl⟩
    exact ⟨e, he, rfl, rfl, p, hp, hsame⟩

/-- For a kind whose ports never change, a required input is one that something feeds. -/
theorem Fixed.requireInput_eq_nil (hfixed : Fixed k ports) (hg : g.Reachable)
    (hk : g.kind? n = some k)
    (hname : name ∈ ports.map Port.name) : requireInput g n name = [] ↔ g.Fed n name := by
  obtain ⟨r, -, hr, -, -, -, hfed⟩ := hfixed.exists_input hg hk hname
  rw [requireInput, Graph.portRef?_eq_some.2 hr]
  simp only [require_eq_nil, Option.isSome_iff_ne_none, Ne,
    hg.invariant.anchored.sourceOf?_eq_none_iff, Graph.Fed, hfed]
  push Not
  exact ⟨fun ⟨e, he, ht⟩ => ⟨e.source, e, he, rfl, ht⟩, fun ⟨_, e, he, _, ht⟩ => ⟨e, he, ht⟩⟩

end Inputs

theorem isWritable_iff {p : Port} :
    p.isWritable = true ↔ ∃ type, p.kind = .value type .readWrite := by
  obtain ⟨_, _, kind⟩ := p
  cases kind with
  | flow => simp [Port.isWritable]
  | value type access => cases access <;> simp [Port.isWritable]

theorem fixed_setValue : Fixed .setValue [.flowIn PortName.enter, .valueIn PortName.target none,
    .valueIn PortName.value none, .flowOut PortName.exit] where
  layout _ _ := rfl
  distinct := by decide
  few := by decide

/-- An assignment passes if its target is fed from a port that can be written. -/
theorem assignment_eq_nil (hg : g.Reachable) {n : NodeId} (hk : g.kind? n = some .setValue) :
    assignment g n = [] ↔ ∃ o p, g.FedBy n PortName.target o ∧ g.port? o = some p ∧
      ∃ type, p.kind = .value type .readWrite := by
  have hvalue : ∀ p ∈ [Port.flowIn PortName.enter, .valueIn PortName.target none,
      .valueIn PortName.value none, .flowOut PortName.exit], p.name = PortName.target →
      p.isValue := by
    decide
  have htarget : PortName.target ∈ [Port.flowIn PortName.enter, .valueIn PortName.target none,
      .valueIn PortName.value none, .flowOut PortName.exit].map Port.name := by decide
  obtain ⟨r, t, hr, ht, hmem, hname, hfed⟩ := fixed_setValue.exists_input hg hk htarget
  have hinv := hg.invariant
  rw [assignment, Graph.portRef?_eq_some.2 hr]
  simp only [hfed, ← isWritable_iff]
  cases ho : g.sourceOf? r with
  | none =>
    rw [hinv.anchored.sourceOf?_eq_none_iff] at ho
    refine ⟨nofun, ?_⟩
    rintro ⟨o, p, ⟨e, he, -, htarget⟩, -⟩
    exact absurd htarget (ho e he)
  | some o =>
    obtain ⟨⟨e, he, rfl, rfl⟩, -⟩ := hinv.anchored.sourceOf?_eq_some_iff.1 ho
    obtain ⟨p, -, hp, -⟩ := hinv.joins_of_mem he
    simp only [Option.bind_some, hp, require_eq_nil]
    refine ⟨fun hw => ⟨e.source, p, ⟨e, he, rfl, rfl⟩, hp, hw⟩, ?_⟩
    rintro ⟨-, p', ⟨e', he', rfl, htarget⟩, hp', hw⟩
    obtain ⟨k, hk⟩ := Graph.mem_live.1 he
    obtain ⟨k', hk'⟩ := Graph.mem_live.1 he'
    have hsame := hinv.single k k' e e' t hk hk' htarget.symm ht (hvalue t hmem hname)
    subst hsame
    obtain rfl := Option.some.inj (hk.symm.trans hk')
    obtain rfl := Option.some.inj (hp.symm.trans hp')
    exact hw

/-- A node in a static function is one in the body of a function that is static. -/
theorem inStaticFunction_iff (hg : g.Reachable) {n : NodeId} : inStaticFunction g n = true ↔
    ∃ m f, g.InBodyOf n m ∧ g.member? m = some (.function f) ∧ f.isStatic := by
  simp only [inStaticFunction, Option.any_eq_true, Option.bind_eq_some_iff,
    hg.enclosingFunction?_eq_some, Graph.function?, Member.asFunction_eq_some, exists_eq_right]
  constructor
  · rintro ⟨f, ⟨m, hm, hf⟩, hs⟩
    exact ⟨m, f, hm, hf, hs⟩
  · rintro ⟨m, f, hm, hf, hs⟩
    exact ⟨f, ⟨m, hm, hf⟩, hs⟩

/-- When the services of a system may be used at a node. -/
theorem systemApi_eq_nil (hg : g.Reachable) {n : NodeId} : systemApi g n = [] ↔
    g.settings.flavor ≠ .aspect ∧
      ∀ m f, g.InBodyOf n m → g.member? m = some (.function f) → ¬f.isStatic := by
  have hsystem : g.settings.flavor.isSystem = true ↔ g.settings.flavor ≠ .aspect := by
    cases g.settings.flavor <;> decide
  rw [systemApi]
  by_cases hflavor : g.settings.flavor = .aspect
  · simp [hflavor, Flavor.isSystem]
  · rw [hsystem.2 hflavor, if_neg (by decide), require_eq_nil, Bool.not_eq_true',
      ← Bool.not_eq_true, inStaticFunction_iff hg]
    push Not
    exact ⟨fun h => ⟨hflavor, fun m f hm => h m f hm⟩, fun h m f hm => h.2 m f hm⟩

theorem isOwnedBy_iff {e : External} {name : String} :
    e.isOwnedBy name = true ↔ e.receiver = none ∧ ∃ owner, e.owner = some owner ∧
    owner.name = name := by
  simp [External.isOwnedBy, Option.any_eq_true]

theorem fixed_setComponent (c : Option TypeRef) : Fixed (.setComponent c) [.flowIn PortName.enter,
    .valueIn PortName.entity (some .entity), .valueIn PortName.component c,
    .flowOut PortName.exit] where
  layout _ _ := rfl
  distinct :=
    (by decide : [PortName.enter, PortName.entity, PortName.component, PortName.exit].Nodup)
  few := (by decide : 4 ≤ 65536)

theorem fixed_setComponentEnabled (c : Option TypeRef) : Fixed (.setComponentEnabled c) [
    .flowIn PortName.enter, .valueIn PortName.entity (some .entity),
    .valueIn PortName.value (some .bool), .flowOut PortName.exit] where
  layout _ _ := rfl
  distinct := by decide
  few := by decide

theorem fixed_getComponent (c : Option TypeRef) : Fixed (.getComponent c) [
    .valueIn PortName.entity (some .entity), .valueOut PortName.out c .readOnly] where
  layout _ _ := rfl
  distinct := (by decide : [PortName.entity, PortName.out].Nodup)
  few := (by decide : 2 ≤ 65536)

theorem fixed_destroyEntity : Fixed .destroyEntity [.flowIn PortName.enter,
    .valueIn PortName.entity (some .entity), .flowOut PortName.exit] where
  layout _ _ := rfl
  distinct := by decide
  few := by decide

variable {n : NodeId} {c : Option TypeRef}

/-- A member of an outside type passes unless it is a service of the system that is out of place. -/
theorem entityNode_external (hg : g.Reachable) {e : External} :
    entityNode g n (.member (.external e)) = [] ↔ (e.isOwnedBy "SystemAPI" →
      g.settings.flavor ≠ .aspect ∧
        ∀ m f, g.InBodyOf n m → g.member? m = some (.function f) → ¬f.isStatic) := by
  rw [entityNode]
  split
  next howned => simp only [howned, systemApi_eq_nil hg, forall_const]
  next howned => exact ⟨fun _ h => absurd h howned, fun _ => rfl⟩

/-- When the writing of a component passes. -/
theorem entityNode_setComponent (hg : g.Reachable) (hk : g.kind? n = some (.setComponent c)) :
    entityNode g n (.setComponent c) = [] ↔
      (∃ t, c = some t ∧ t.isValueType) ∧ g.Fed n PortName.entity := by
  have hinput : requireInput g n PortName.entity = [] ↔ g.Fed n PortName.entity :=
    (fixed_setComponent c).requireInput_eq_nil hg hk (List.mem_cons_of_mem _ List.mem_cons_self)
  cases c with
  | none => simp [entityNode]
  | some t => simp [entityNode, require_eq_nil, hinput]

/-- When the enabling of a component passes. -/
theorem entityNode_setComponentEnabled (hg : g.Reachable)
    (hk : g.kind? n = some (.setComponentEnabled c)) :
    entityNode g n (.setComponentEnabled c) = [] ↔ c ≠ none ∧ g.Fed n PortName.entity := by
  rw [entityNode, List.append_eq_nil_iff, require_eq_nil, Option.isSome_iff_ne_none,
    (fixed_setComponentEnabled c).requireInput_eq_nil hg hk (by decide)]

/-- When the reading of a component passes. -/
theorem entityNode_getComponent (hg : g.Reachable) (hk : g.kind? n = some (.getComponent c)) :
    entityNode g n (.getComponent c) = [] ↔ c ≠ none ∧ g.Fed n PortName.entity := by
  have hinput : requireInput g n PortName.entity = [] ↔ g.Fed n PortName.entity :=
    (fixed_getComponent c).requireInput_eq_nil hg hk List.mem_cons_self
  rw [entityNode, List.append_eq_nil_iff, require_eq_nil, Option.isSome_iff_ne_none, hinput]

theorem entityNode_executor {runWith : Discipline} {job : Option NodeId} :
    entityNode g n (.executor runWith job) = [] ↔ job ≠ none := by
  cases job <;> simp [entityNode]

/-- The check of entities is silent exactly if the graph keeps the rules for entities. -/
theorem entity_eq_nil (hg : g.Reachable) : entity g = [] ↔ g.EntityRules := by
  rw [entity, forall_kind_of_flatMap]
  constructor
  · intro h
    constructor
    case systemApi =>
      intro n e owner hk hreceiver howner hname
      exact (entityNode_external hg).1 (h n _ hk)
        (isOwnedBy_iff.2 ⟨hreceiver, owner, howner, hname⟩)
    case setComponent => exact fun n c hk => (entityNode_setComponent hg hk).1 (h n _ hk)
    case setComponentEnabled => exact fun n c hk =>
      (entityNode_setComponentEnabled hg hk).1 (h n _ hk)
    case getComponent => exact fun n c hk => (entityNode_getComponent hg hk).1 (h n _ hk)
    case destroyEntity =>
      exact fun n hk => (fixed_destroyEntity.requireInput_eq_nil hg hk (by decide)).1 (h n _ hk)
    case executor => exact fun n runWith job hk => entityNode_executor.1 (h n _ hk)
    case setValue => exact fun n hk => (assignment_eq_nil hg hk).1 (h n _ hk)
  · intro h n k hk
    cases k with
    | member target =>
      cases target with
      | external e =>
        refine (entityNode_external hg).2 fun howned => ?_
        obtain ⟨hreceiver, owner, howner, hname⟩ := isOwnedBy_iff.1 howned
        exact h.systemApi n e owner hk hreceiver howner hname
      | _ => rfl
    | setComponent c => exact (entityNode_setComponent hg hk).2 (h.setComponent n c hk)
    | setComponentEnabled c =>
      exact (entityNode_setComponentEnabled hg hk).2 (h.setComponentEnabled n c hk)
    | getComponent c => exact (entityNode_getComponent hg hk).2 (h.getComponent n c hk)
    | destroyEntity =>
      exact (fixed_destroyEntity.requireInput_eq_nil hg hk (by decide)).2 (h.destroyEntity n hk)
    | executor runWith job => exact entityNode_executor.2 (h.executor n runWith job hk)
    | setValue => exact (assignment_eq_nil hg hk).2 (h.setValue n hk)
    | _ => rfl

end Check

/-- Analysis of a graph that can be built reports nothing exactly if the graph is well authored. -/
theorem Graph.Reachable.check_eq_nil_iff {g : Graph} (hg : g.Reachable) :
    g.check = [] ↔ g.WellAuthored := by
  rw [Graph.check, List.append_eq_nil_iff, List.append_eq_nil_iff, Check.aspect_eq_nil,
    Check.query_eq_nil, Check.entity_eq_nil hg]
  exact ⟨fun ⟨⟨ha, hq⟩, he⟩ => ⟨ha, hq, he⟩, fun h => ⟨⟨h.aspect, h.query⟩, h.entity⟩⟩

namespace Check

/-- A loop that adds to the speed of all entities what a function of the system knows. -/
def speeding : Graph := Graph.build {} [
  .addFunction "Elapsed" [] none false,
  .addNode "Update" (.event .update) ContainerTree.root,
  .addNode "Each" (.foreach { items := [⟨"speed", some (.component "Speed"), .readWrite⟩,
    ⟨"mass", some (.component "Mass"), .readOnly⟩], run := .run, entityAccess := true })
      ContainerTree.root,
  .addNode "Set" .setValue ContainerTree.root,
  .addNode "Get" (.getComponent (some (.component "Push"))) ContainerTree.root,
  .addNode "Destroy" .destroyEntity ContainerTree.root,
  .addNode "Time" (.member (.external (.staticMethod (.struct "SystemAPI") "Time" [] none))) ⟨1⟩,
  .connect ⟨0⟩ PortName.exit ⟨1⟩ PortName.enter,
  .connect ⟨1⟩ PortName.body ⟨2⟩ PortName.enter,
  .connect ⟨1⟩ "speed" ⟨2⟩ PortName.target,
  .connect ⟨1⟩ PortName.entity ⟨3⟩ PortName.entity,
  .connect ⟨3⟩ PortName.out ⟨2⟩ PortName.value,
  .connect ⟨1⟩ PortName.entity ⟨4⟩ PortName.entity]

def twofold : Graph := Graph.build { flavor := .aspect, modifier := ⟨true, true, true⟩ } [
  .addVariable { name := "self", type := .entity, readOnly := true },
  .addVariable { name := "speed", type := ⟨"RefRW<Speed>", .struct⟩, readOnly := true },
  .addVariable { name := "other", type := .entity, readOnly := true }]

/-- A graph that passes, and one with two entities that does not. -/
theorem check_eq_nil_iff_speeding :
    (speeding.Reachable ∧ speeding.kind? ⟨2⟩ = some .setValue ∧ speeding.check = [] ∧
      speeding.WellAuthored) ∧
    twofold.Reachable ∧ twofold.check = [.of (.member ⟨2⟩) .multipleAspectEntities] ∧
      ¬twofold.WellAuthored := by
  have hspeeding : speeding.Reachable := Graph.reachable_build _ _
  have htwofold : twofold.Reachable := Graph.reachable_build _ _
  have haccepted : speeding.check = [] := by cbv
  have hrefused : twofold.check = [.of (.member ⟨2⟩) .multipleAspectEntities] := by cbv
  refine ⟨⟨hspeeding, by cbv, haccepted, hspeeding.check_eq_nil_iff.1 haccepted⟩,
    htwofold, hrefused, fun h => ?_⟩
  rw [htwofold.check_eq_nil_iff.2 h] at hrefused
  cases hrefused

end Check

end EntityFlow
