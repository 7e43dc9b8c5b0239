import EntityFlow.Proofs.Generation.Cuts
import EntityFlow.Proofs.Generation.Handles
import EntityFlow.Proofs.Planning.Holdings
import EntityFlow.Proofs.Unit.Source

/-!
# The members of a unit

A unit declares every member of its graph once, under the name that the symbol table gives it, and
the table never gives a name twice.  Code is put into methods by name, so this is also why the
statements that start at a node end up in one method only: that of its event, or that of its
function.
-/

namespace EntityFlow

open Declaration (Method Part Field)

/-! ## Members in order -/

namespace Graph

variable {α β : Type} {g : Graph} {view : Member → Option α}

/-- The members that `view` takes, in the order they were declared. -/
def declared (g : Graph) (view : Member → Option α) : List (MemberId × α) :=
  g.memberIds.filterMap fun id => ((g.member? id).bind view).map (id, ·)

theorem mem_declared {x : MemberId × α} :
    x ∈ g.declared view ↔ ∃ m, g.member? x.1 = some m ∧ view m = some x.2 := by
  obtain ⟨id, a⟩ := x
  simp only [declared, List.mem_filterMap, Option.map_eq_some_iff, Prod.mk.injEq,
    Option.bind_eq_some_iff]
  constructor
  · rintro ⟨id, -, x, ⟨m, hm, hx⟩, rfl, rfl⟩
    exact ⟨m, hm, hx⟩
  · rintro ⟨m, hm, hx⟩
    have hid : id ∈ g.memberIds :=
      List.mem_map.2 ⟨id.index, List.mem_range.2 (index_lt_of_member? hm), rfl⟩
    exact ⟨id, hid, a, ⟨m, hm, hx⟩, rfl, rfl⟩

/-- Members of one kind are listed in the order of the graph. -/
theorem pairwise_declared (g : Graph) (view : Member → Option α) :
    (g.declared view).Pairwise fun x y => x.1.index < y.1.index := by
  have hids : g.memberIds.Pairwise fun i j => i.index < j.index :=
    List.pairwise_map.2 List.pairwise_lt_range
  refine hids.filterMap _ fun i j hij x hx y hy => ?_
  obtain ⟨-, -, rfl⟩ := Option.map_eq_some_iff.1 hx
  obtain ⟨-, -, rfl⟩ := Option.map_eq_some_iff.1 hy
  exact hij

theorem indexedMembers_eq (g : Graph) :
    g.indexedMembers = g.memberIds.filterMap fun id => (g.member? id).map (id, ·) := by
  unfold indexedMembers memberIds member?
  rw [List.filterMap_map]
  induction g.members using List.reverseRecOn with
  | nil => rfl
  | append_singleton ms m ih =>
    rw [List.mapIdx_concat, ih, List.length_append, List.length_singleton, List.range_succ,
      List.filterMap_append]
    congr 1
    · refine List.filterMap_congr fun i hi => ?_
      rw [Function.comp_apply, Function.comp_apply, List.getElem?_append_left (List.mem_range.1 hi)]
    · simp

theorem filterMap_indexedMembers (f : MemberId → α → β) :
    (g.indexedMembers.filterMap fun (id, m) => (view m).map (f id)) =
      (g.declared view).map fun x => f x.1 x.2 := by
  rw [indexedMembers_eq, declared, List.map_filterMap, List.filterMap_filterMap]
  refine List.filterMap_congr fun id _ => ?_
  cases g.member? id with
  | none => rfl
  | some m => simp [Function.comp_def]

/-- Functions, then variables, then properties. -/
def groupedIds (g : Graph) : List MemberId :=
  (g.declared Member.asFunction).map Prod.fst ++ (g.declared Member.asVariable).map Prod.fst ++
    (g.declared Member.asProperty).map Prod.fst

theorem mem_map_fst_declared {id : MemberId} :
    id ∈ (g.declared view).map Prod.fst ↔ ∃ m, g.member? id = some m ∧ (view m).isSome := by
  simp only [List.mem_map, mem_declared, Option.isSome_iff_exists]
  constructor
  · rintro ⟨x, ⟨m, hm, hx⟩, rfl⟩
    exact ⟨m, hm, x.2, hx⟩
  · rintro ⟨m, hm, x, hx⟩
    exact ⟨(id, x), ⟨m, hm, hx⟩, rfl⟩

/-- Every identity of a group denotes a member. -/
theorem exists_member_of_mem {id : MemberId} (h : id ∈ g.groupedIds) :
    ∃ m, g.member? id = some m := by
  simp only [groupedIds, List.mem_append, mem_map_fst_declared] at h
  rcases h with (⟨m, hm, -⟩ | ⟨m, hm, -⟩) | ⟨m, hm, -⟩ <;> exact ⟨m, hm⟩

theorem nodup_declared (g : Graph) (view : Member → Option α) :
    ((g.declared view).map Prod.fst).Nodup :=
  List.pairwise_map.2 ((pairwise_declared g view).imp fun hlt heq => absurd hlt (by simp [heq]))

/-- Groups of different kinds have no member in common. -/
theorem disjoint_declared {view' : Member → Option β}
    (h : ∀ m, (view m).isSome → ¬(view' m).isSome) :
    List.Disjoint ((g.declared view).map Prod.fst) ((g.declared view').map Prod.fst) := by
  intro id hid hid'
  obtain ⟨m, hm, hview⟩ := mem_map_fst_declared.1 hid
  obtain ⟨m', hm', hview'⟩ := mem_map_fst_declared.1 hid'
  obtain rfl := Option.some.inj (hm.symm.trans hm')
  exact h m hview hview'

/-- No member is in two groups. -/
theorem nodup_groupedIds (g : Graph) : g.groupedIds.Nodup := by
  -- a member is seen in one way only
  have hfv : ∀ m : Member, m.asFunction.isSome → ¬m.asVariable.isSome := by
    intro m
    cases m <;> simp [Member.asFunction, Member.asVariable]
  have hfp : ∀ m : Member, m.asFunction.isSome → ¬m.asProperty.isSome := by
    intro m
    cases m <;> simp [Member.asFunction, Member.asProperty]
  have hvp : ∀ m : Member, m.asVariable.isSome → ¬m.asProperty.isSome := by
    intro m
    cases m <;> simp [Member.asVariable, Member.asProperty]
  have hfirst := (nodup_declared g _).append (nodup_declared g _) (disjoint_declared hfv)
  exact hfirst.append (nodup_declared g _)
    (List.disjoint_append_left.2 ⟨disjoint_declared hfp, disjoint_declared hvp⟩)

end Graph

/-! ## Where bodies start -/

namespace Generation

/-- A value that was found while noting no more than `N` is found again wherever the step is run. -/
theorem Cuts.noted {α : Type} {m : Generation α} {ns : List NodeId} {N : Ledger} (h : Cuts m ns) :
    Noted N m fun a => ∃ new, Adds m (.ok a) new ∧ ∀ x ∈ new, N.Shows x := by
  obtain ⟨r, new, hadds, -⟩ := h
  intro l
  rw [hadds]
  refine ⟨Ledger.le_enter l new, fun hle a ha => ?_⟩
  subst ha
  exact ⟨new, hadds, fun x hx => (Ledger.shows_enter hx).mono hle⟩

end Generation

/-- Following the exit of `n` gives the statements `ss`, and all that is noted shows in `N`. -/
def Site.Generates (s : Site) (N : Ledger) (n : NodeId) (ss : List Stmt) : Prop :=
  ∃ new, Generation.Adds (s.follow n PortName.exit) (.ok ss) new ∧ ∀ x ∈ new, N.Shows x

namespace Draft

open Generation

variable {g : Graph} {p : Plan} {N : Ledger} {n : NodeId} {x : String × List Stmt}

/-- The method, and the statements for it, that start at a node. -/
inductive Starts (g : Graph) (p : Plan) (N : Ledger) (n : NodeId) : String × List Stmt → Prop
  | event {e : Lifecycle} {ss : List Stmt} (hn : g.kind? n = some (.event e))
      (hss : Site.Generates ⟨g, p, .unit⟩ N n ss) : Starts g p N n (e.methodName, ss)
  | function {f : MemberId} {name : String} {ss : List Stmt}
      (hn : g.kind? n = some (.functionEntry f))
      (hname : p.symbols.get? (.member f) = some name)
      (hss : Site.Generates ⟨g, p, .function name⟩ N n ss) : Starts g p N n (name, ss)

/-- An entry gives the code of its own method. -/
theorem noted_entryBody_starts (hg : g.Reachable) (hp : Planning.Complete g p)
    (hn : n ∈ g.nodesWith .entry) :
    Noted N (entryBody g p n) fun o => ∃ x, o = some x ∧ Starts g p N n x := by
  have hfollow : ∀ scope, Noted N (Site.follow ⟨g, p, scope⟩ n PortName.exit)
      (Site.Generates ⟨g, p, scope⟩ N n) :=
    fun scope => (Site.cuts_follow (s := ⟨g, p, scope⟩) hg n _).noted
  obtain ⟨e, he⟩ | ⟨f, hf⟩ := Graph.mem_nodesWith_entry.1 hn
  · rw [entryBody_event he]
    refine noted_bind (hfollow _) fun body => ?_
    split
    · exact noted_pure fun hbody => ⟨_, rfl, .event he hbody⟩
    · exact noted_throw
  · obtain ⟨name, hname⟩ := exists_methodName hg hp hf
    rw [entryBody_function hg hf hname]
    exact noted_bind (hfollow _) fun body => noted_pure fun hbody =>
      ⟨_, rfl, .function hf hname hbody⟩

theorem forall₂_filterMap_id {ns : List NodeId} {os : List (Option (String × List Stmt))}
    (h : List.Forall₂ (fun n o => ∃ x, o = some x ∧ Starts g p N n x) ns os) :
    List.Forall₂ (Starts g p N) ns (os.filterMap id) := by
  induction h with
  | nil => exact .nil
  | cons hx _ ih =>
    obtain ⟨x, rfl, hstarts⟩ := hx
    exact .cons hstarts ih

/-- The bodies of a draft are those of the entries, in order. -/
theorem noted_generate_starts (hg : g.Reachable) (hp : Planning.Complete g p) :
    Noted N (generate g p) fun d => List.Forall₂ (Starts g p N) (g.nodesWith .entry) d.bodies := by
  refine noted_bind (noted_mapM_forall₂ fun n hn => noted_entryBody_starts hg hp hn)
    fun bodies => ?_
  refine noted_bind (noted_mapM (R := fun _ => True) fun b _ =>
    (noted_jobBody? b.node).imp fun _ _ => trivial) fun jobs => noted_pure ?_
  exact fun _ hbodies => forall₂_filterMap_id hbodies

end Draft

/-- The bodies of a draft, node by node. -/
theorem Graph.starts_draft {g : Graph} {o : Options} {a : Assembly} (hg : g.Reachable)
    (ha : g.assemble o = .ok a) :
    List.Forall₂ (Draft.Starts g a.plan a.ledger) (g.nodesWith .entry) a.draft.bodies := by
  obtain ⟨-, hp, hrun⟩ := assemble_eq_ok ha
  have hnoted := (Draft.noted_generate_starts (N := a.ledger) hg (Planning.complete_make hg hp)
    (.ofPlan a.plan)).2
  rw [hrun] at hnoted
  exact hnoted (Ledger.le_refl _) a.draft rfl

/-! ## Code of methods -/

namespace Draft

open Planning

variable {g : Graph} {p : Plan} {N : Ledger} {n : NodeId} {x : String × List Stmt}

/-- Code goes to a lifecycle method exactly from the nodes of its event. -/
theorem Starts.fst_eq_methodName (h : Starts g p N n x) (hp : Sound g p) (e : Lifecycle) :
    x.1 = e.methodName ↔ g.kind? n = some (.event e) := by
  cases h with
  | @event e' ss hn =>
    rw [hn, Lifecycle.methodName_injective.eq_iff]
    simp
  | @function f name ss hn hname =>
    have hown : name ≠ e.methodName := fun h =>
      hp.names.get?_ne e.methodName_mem_ownNames (h ▸ hname)
    rw [hn]
    exact iff_of_false hown (by simp)

/-- Code goes to the method of a function exactly from the nodes that enter it. -/
theorem Starts.fst_eq_symbol (h : Starts g p N n x) (hp : Plan.make g = .ok p) {f : MemberId}
    {name : String} (hname : p.symbols.get? (.member f) = some name) :
    x.1 = name ↔ g.kind? n = some (.functionEntry f) := by
  cases h with
  | @event e ss hn =>
    have hown : e.methodName ≠ name := fun h =>
      (sound_make hp).names.get?_ne e.methodName_mem_ownNames (h ▸ hname)
    rw [hn]
    exact iff_of_false hown (by simp)
  | @function f' name' ss hn hname' =>
    rw [hn]
    constructor
    · rintro rfl
      have hkeys := (tidy_make hp).key_eq hname' hname
      simpa using hkeys
    · intro hf
      have hf : f' = f := by simpa using hf
      exact Option.some.inj (hname'.symm.trans (hf ▸ hname))

/-- The code of an event is generated for the unit. -/
theorem Starts.generates_unit {e : Lifecycle} (h : Starts g p N n x)
    (hn : g.kind? n = some (.event e)) : Site.Generates ⟨g, p, .unit⟩ N n x.2 := by
  cases h with
  | event _ hss => exact hss
  | function hf =>
    rw [hf] at hn
    cases hn

/-- The code of a function is generated for that function. -/
theorem Starts.generates_function {f : MemberId} (h : Starts g p N n x)
    (hn : g.kind? n = some (.functionEntry f)) : Site.Generates ⟨g, p, .function x.1⟩ N n x.2 := by
  cases h with
  | event he =>
    rw [he] at hn
    cases hn
  | function _ _ hss => exact hss

end Draft

namespace Graph

variable {g : Graph}

theorem filter_entry_event (g : Graph) (e : Lifecycle) :
    (g.nodesWith .entry).filter (fun n => g.kind? n = some (.event e)) =
      g.nodesWhere fun k => k = .event e := by
  unfold nodesWith nodesWhere
  rw [List.filter_filter]
  refine List.filter_congr fun n _ => ?_
  unfold capabilities
  cases g.kind? n with
  | none => rfl
  | some kind =>
    by_cases hkind : kind = .event e
    · simp [hkind, kindCapabilities]
    · simp [hkind]

/-- A list without repetitions of what an option holds is the option. -/
theorem eq_toList_of_nodup {α : Type} {xs : List α} {o : Option α} (hnodup : xs.Nodup)
    (hmem : ∀ x, x ∈ xs ↔ o = some x) : xs = o.toList := by
  cases o with
  | none => exact List.eq_nil_iff_forall_not_mem.2 fun x hx => by cases (hmem x).1 hx
  | some y =>
    have hperm : xs.Perm [y] := by
      refine (List.perm_ext_iff_of_nodup hnodup (List.nodup_singleton y)).2 fun x => ?_
      rw [hmem, List.mem_singleton, Option.some.injEq, eq_comm]
    exact List.perm_singleton.1 hperm

/-- Of the nodes that start a method, one at most enters a function. -/
theorem filter_entry_function (hg : g.Reachable) (f : MemberId) :
    (g.nodesWith .entry).filter (fun n => g.kind? n = some (.functionEntry f)) =
      ((g.function? f).bind Function.entry).toList := by
  have hnodup : (g.nodesWith .entry).Nodup :=
      (Planning.pairwise_nodesWith g .entry).imp fun hlt heq =>
    absurd hlt (by simp [heq])
  refine eq_toList_of_nodup (hnodup.filter _) fun n => ?_
  rw [List.mem_filter, decide_eq_true_iff, hg.entry_eq_some, mem_nodesWith_entry]
  exact ⟨And.right, fun hn => ⟨.inr ⟨f, hn⟩, hn⟩⟩

end Graph

namespace Assembly

open Planning Naming

variable {g : Graph} {o : Options} {a : Assembly} {m : Method} {ns : List NodeId}

def bodyPart (a : Assembly) (ss : List Stmt) : Part := ⟨0, Stmt.renderBody a.unit ss⟩

/-- The code of a method is that of the bodies with its name. -/
theorem bodyParts_eq (a : Assembly) (method : String) : a.bodyParts method =
    ((a.draft.bodies.filter fun x => x.1 = method).map Prod.snd).map a.bodyPart := by
  unfold bodyParts
  induction a.draft.bodies with
  | nil => rfl
  | cons x rest ih =>
    by_cases hx : x.1 = method
    · simp [hx, ih, bodyPart]
    · simp [hx, ih]

def declarationParts (a : Assembly) (m : String) : List Part := a.ledger.wanted a.graph a.plan m

def openingParts (a : Assembly) : Lifecycle → List Part
  | .create => a.createParts
  | .update => a.declarationParts updateMethod ++ a.plan.timeParts
  | .destroy | .startRunning | .stopRunning => []

/-- The code of a method: what it begins with, in some order, then for each of the nodes `ns` the
statements generated from it.  Code without text is left out. -/
def Filled (a : Assembly) (m : Method) (scope : Scope) (first : List Part)
    (ns : List NodeId) : Prop :=
  ∃ opening bodies, opening.Perm first ∧
    List.Forall₂ (Site.Generates ⟨a.graph, a.plan, scope⟩ a.ledger) ns bodies ∧
    m.parts = (opening ++ bodies.map a.bodyPart).filter fun part => !part.code.isEmpty

/-- A method gets its bodies by name, which are those of the nodes that satisfy `q`. -/
theorem filled_addParts {scope : Scope} {q : NodeId → Bool} {opening first : List Part}
    (head : Method) (hopening : opening.Perm first)
    (hstarts : List.Forall₂ (Draft.Starts a.graph a.plan a.ledger) ns a.draft.bodies)
    (hhead : head.parts = [])
    (hname : ∀ n x, Draft.Starts a.graph a.plan a.ledger n x → (x.1 = head.name ↔ q n))
    (hscope : ∀ n x, Draft.Starts a.graph a.plan a.ledger n x → q n →
      Site.Generates ⟨a.graph, a.plan, scope⟩ a.ledger n x.2) :
    a.Filled (addParts head (opening ++ a.bodyParts head.name)) scope first (ns.filter q) := by
  have hfiltered : List.Forall₂ (Draft.Starts a.graph a.plan a.ledger) (ns.filter q)
      (a.draft.bodies.filter fun x => x.1 = head.name) :=
    List.rel_filter (fun n x h => (hname n x h).symm.trans decide_eq_true_iff.symm) hstarts
  refine ⟨opening, _, hopening, List.forall₂_map_right_iff.2 ?_,
    by rw [addParts_eq, hhead, List.nil_append, bodyParts_eq]⟩
  have hall := (List.forall₂_and_left (p := fun n => q n) _ _).2
    ⟨fun n hn => (List.mem_filter.1 hn).2, hfiltered⟩
  exact hall.imp fun n x hx => hscope n x hx.2 hx.1

section Methods

variable (hp : Plan.make a.graph = .ok a.plan) (hl : a.ledger.Settled a.graph a.plan)
  (hstarts : List.Forall₂ (Draft.Starts a.graph a.plan a.ledger) (a.graph.nodesWith .entry)
    a.draft.bodies)

include hp hl

/-- Only the update declares handles. -/
theorem declarationParts_eq_nil {e : Lifecycle} (he : e ≠ .update) :
    a.declarationParts e.methodName = [] := by
  refine List.map_eq_nil_iff.2 (List.filter_eq_nil_iff.2 fun h _ hwants => ?_)
  exact he ((wants_methodName hl (sound_make hp)).1 (of_decide_eq_true hwants)).1

theorem perm_openingParts (e : Lifecycle) :
    (a.lifecycleParts e ++ a.ledger.partsOf e.methodName).Perm (a.openingParts e) := by
  have hparts := hl.perm_partsOf e.methodName
  by_cases he : e = .update
  · subst he
    exact hparts
  · have hname : e.methodName ≠ updateMethod := mt (Lifecycle.methodName_injective ·) he
    have hnone : a.ledger.wanted a.graph a.plan e.methodName = [] :=
      declarationParts_eq_nil hp hl he
    rw [hnone, if_neg hname, List.append_nil] at hparts
    rw [hparts.eq_nil, List.append_nil]
    cases e with
    | update => exact absurd rfl he
    | create | destroy | startRunning | stopRunning => exact .refl _

/-- A function begins with its declarations of handles. -/
theorem perm_partsOf_function {id : MemberId} :
    (a.ledger.partsOf (a.symbol (.member id))).Perm
      (a.declarationParts (a.symbol (.member id))) := by
  have hother : a.symbol (.member id) ≠ updateMethod := by
    intro heq
    have hown := symbol_not_mem_ownNames (sound_make hp) (.member id)
    rw [heq] at hown
    exact hown (Lifecycle.methodName_mem_ownNames .update)
  have hparts := hl.perm_partsOf (a.symbol (.member id))
  rwa [if_neg hother, List.append_nil] at hparts

include hstarts

/-- The method of an event is filled from the nodes of the event. -/
theorem filled_lifecycleMethod (e : Lifecycle) : a.Filled (a.lifecycleMethod e) .unit
    (a.openingParts e) (a.graph.nodesWhere fun k => k = .event e) := by
  have hhead : (a.lifecycleHead e).name = e.methodName ∧ (a.lifecycleHead e).parts = [] := by
    unfold lifecycleHead
    split <;> exact ⟨rfl, rfl⟩
  rw [← Graph.filter_entry_event, lifecycleMethod, ← hhead.1]
  refine filled_addParts _ ?_ hstarts hhead.2 (fun n x h => ?_) fun n x h hn =>
    h.generates_unit (of_decide_eq_true hn)
  · rw [hhead.1]
    exact perm_openingParts hp hl e
  · rw [hhead.1, h.fst_eq_methodName (sound_make hp), decide_eq_true_iff]

/-- The method of a function is filled from its entry. -/
theorem filled_functionMethod (hg : a.graph.Reachable) {id : MemberId} {f : Function}
    (hf : a.graph.member? id = some (.function f))
    (hname : a.plan.symbols.get? (.member id) = some (a.symbol (.member id))) :
    a.Filled (a.functionMethod id f) (.function (a.symbol (.member id)))
      (a.declarationParts (a.symbol (.member id))) f.entry.toList := by
  have hentry : f.entry = (a.graph.function? id).bind Function.entry := by
    rw [Graph.function?_eq_some.2 hf, Option.bind_some]
  rw [hentry, ← Graph.filter_entry_function hg]
  refine filled_addParts (a.functionHead id f) (perm_partsOf_function hp hl) hstarts rfl
    (fun n x h => ?_) fun n x h hn => ?_
  · rw [decide_eq_true_iff]
    exact h.fst_eq_symbol hp hname
  · have hx : x.1 = a.symbol (.member id) := (h.fst_eq_symbol hp hname).2 (of_decide_eq_true hn)
    exact hx ▸ h.generates_function (of_decide_eq_true hn)

end Methods

/-! ## Names -/

/-- There is a field for each variable. -/
theorem fields_eq (a : Assembly) : a.declaration.fields =
    (a.graph.declared Member.asVariable).map fun x => a.field x.1 x.2 :=
  Graph.filterMap_indexedMembers _

/-- There is a property for each property. -/
theorem properties_eq (a : Assembly) : a.declaration.properties =
    (a.graph.declared Member.asProperty).map fun x => a.property x.1 x.2 :=
  Graph.filterMap_indexedMembers _

/-- There is a method for each function. -/
theorem functionMethods_eq (a : Assembly) : a.functionMethods =
    (a.graph.declared Member.asFunction).map fun x => a.functionMethod x.1 x.2 :=
  Graph.filterMap_indexedMembers _

def events (a : Assembly) : List Lifecycle := if a.flavor.isSystem then a.lifecycle else []

theorem lifecycleMethods_eq (a : Assembly) :
    a.lifecycleMethods = a.events.map a.lifecycleMethod := by
  unfold lifecycleMethods events
  split <;> rfl

def names (a : Assembly) : List String :=
  a.declaration.methods.map Method.name ++ a.declaration.fields.map Field.name ++
    a.declaration.properties.map Declaration.Property.name

/-- The names in a unit are those of its events, and the symbols of its members. -/
theorem names_eq (a : Assembly) : a.names = a.events.map Lifecycle.methodName ++
    a.graph.groupedIds.map fun id => a.symbol (.member id) := by
  have hmethods : a.declaration.methods.map Method.name = a.events.map Lifecycle.methodName ++
      (a.graph.declared Member.asFunction).map fun x => a.symbol (.member x.1) := by
    change (a.lifecycleMethods ++ a.functionMethods).map Method.name = _
    rw [lifecycleMethods_eq, functionMethods_eq, List.map_append, List.map_map, List.map_map]
    simp [Function.comp_def]
  rw [names, hmethods, fields_eq, properties_eq, Graph.groupedIds]
  simp [Function.comp_def, field, property]

/-- The unit has its name from the table. -/
theorem get?_unit (hp : Plan.make g = .ok a.plan) :
    a.plan.symbols.get? unitKey = some a.declaration.name := by
  obtain ⟨name, hname⟩ := exists_unitName hp
  simp [declaration, symbol, hname]

/-- Every member has its name from the table. -/
theorem get?_symbol (hg : g.Reachable) (hp : Plan.make g = .ok a.plan) {id : MemberId} {m : Member}
    (hm : g.member? id = some m) :
    a.plan.symbols.get? (.member id) = some (a.symbol (.member id)) := by
  obtain ⟨name, hname⟩ := (complete_make hg hp).members id m hm
  simp [symbol, hname]

/-- All that a unit declares has a name of its own, and none is that of the unit. -/
theorem nodup_names (hg : a.graph.Reachable) (hp : Plan.make a.graph = .ok a.plan) :
    (a.declaration.name :: a.names).Nodup := by
  have hsymbol : ∀ id ∈ a.graph.groupedIds,
      a.plan.symbols.get? (.member id) = some (a.symbol (.member id)) := by
    intro id hid
    obtain ⟨m, hm⟩ := Graph.exists_member_of_mem hid
    exact get?_symbol hg hp hm
  have hunit : a.plan.symbols.get? unitKey = some a.declaration.name := get?_unit hp
  have hown : ∀ key, a.symbol key ∉ ownNames := symbol_not_mem_ownNames (sound_make hp)
  have htidy := tidy_make hp
  rw [names_eq, List.nodup_cons, List.mem_append, not_or]
  refine ⟨⟨fun hmem => ?_, fun hmem => ?_⟩, .append ?_ ?_ fun name hevent hmember => ?_⟩
  · obtain ⟨e, -, he⟩ := List.mem_map.1 hmem
    have he : e.methodName = a.symbol unitKey := he
    exact hown unitKey (he ▸ e.methodName_mem_ownNames)
  · obtain ⟨id, hid, hname⟩ := List.mem_map.1 hmem
    have hkeys := htidy.key_eq (hname ▸ hsymbol id hid) hunit
    cases hkeys
  · refine List.Nodup.map Lifecycle.methodName_injective ?_
    unfold events
    split
    · exact List.Nodup.filter _ (by decide)
    · exact List.nodup_nil
  · refine List.Nodup.map_on (fun id hid id' hid' hname => ?_) (Graph.nodup_groupedIds a.graph)
    have hkeys := htidy.key_eq (hsymbol id hid) (hname ▸ hsymbol id' hid')
    simpa using hkeys
  · obtain ⟨e, -, rfl⟩ := List.mem_map.1 hevent
    obtain ⟨id, -, hname⟩ := List.mem_map.1 hmember
    exact hown (.member id) (hname ▸ e.methodName_mem_ownNames)

/-! ## Units -/

/-- The methods after one more is put among them, in place of the one of its name if there is
one. -/
def put (ms : List Method) (m : Method) : List Method :=
  if m.name ∈ ms.map Method.name then
    ms.map fun x => if x.name = m.name then m else x
  else ms ++ [m]

/-- Two functions called like a lifecycle method, two members called like the unit, and a
keyword. -/
def Crowded.graph : Graph := Graph.build { name := "spawner" } [
  .addFunction "OnUpdate" [] none false,
  .addVariable ⟨"Spawner", .float, none, false, false⟩,
  .addProperty ⟨"Spawner", .float, false, none⟩,
  .addFunction "OnUpdate" [] none false,
  .addVariable ⟨"class", .float, none, false, false⟩,
  .addNode "Update" (.event .update) ContainerTree.root,
  .addNode "First" (.functionEntry ⟨0⟩) ⟨1⟩,
  .addNode "Second" (.functionEntry ⟨3⟩) ⟨2⟩,
  .addNode "Count" (.localVar "count" .float) ⟨2⟩,
  .connect ⟨2⟩ "exit" ⟨3⟩ "enter"]

end Assembly

end EntityFlow
