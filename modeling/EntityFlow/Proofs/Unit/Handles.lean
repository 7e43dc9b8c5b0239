import EntityFlow.Proofs.Planning.Requests
import EntityFlow.Proofs.Unit.Lifecycle

/-!
# One declaration for each handle

Whoever asks for a handle, and at whatever time, gets the same name, and a method declares the
handle once at most.  In the update method handles come before times and times before the code of
events.  Priorities alone see to that: the order in which the parts are added does not matter.
-/

namespace EntityFlow

namespace Assembly

open Declaration (Method Part)
open Planning

variable {g : Graph} {a : Assembly} {m : Method}

/-! ## Parts that declare handles -/

/-- A method has one declaration of each handle that it wants, and none of the others. -/
theorem filter_declarationParts (name : String) (h : Handle) :
    (a.declarationParts name).filter (fun x => x.priority = h.priority) =
      if a.ledger.Wants a.graph name h then [a.handlePart h] else [] := by
  by_cases hbuffer : a.ledger.Wants a.graph name .commandBuffer <;>
    by_cases hmanager : a.ledger.Wants a.graph name .entityManager <;> cases h <;>
    simp [declarationParts, Ledger.wanted, Handle.all, hbuffer, hmanager, handlePart,
      flavor, settings, Handle.priority_inj]

/-- Only declarations of handles have their priorities. -/
theorem filter_parts_of_perm {name : String} {rest : List Part}
    (hperm : m.parts.Perm ((a.declarationParts name ++ rest).filter fun part => !part.code.isEmpty))
    (hrest : ∀ x ∈ rest, -900 ≤ x.priority ∨ x.priority = -2000) (h : Handle) :
    m.parts.filter (fun x => x.priority = h.priority) =
      if a.ledger.Wants a.graph name h then [a.handlePart h] else [] := by
  have hnone : rest.filter (fun x => x.priority = h.priority) = [] := by
    refine Declaration.filter_eq_nil fun x hx heq => ?_
    have hpriority := a.priority_handlePart h
    have hx := hrest x hx
    change h.priority = -1000 ∨ h.priority = -999 at hpriority
    omega
  have hfiltered := hperm.filter fun x => x.priority = h.priority
  rw [List.filter_comm, List.filter_append, filter_declarationParts, hnone,
    List.append_nil] at hfiltered
  split at hfiltered
  · rw [List.filter_cons_of_pos (by rw [isEmpty_handlePart]; rfl), List.filter_nil] at hfiltered
    rw [List.perm_singleton.1 hfiltered, if_pos ‹_›]
  · rw [hfiltered.eq_nil, if_neg ‹_›]

section Methods

variable (hp : Plan.make a.graph = .ok a.plan) (hl : a.ledger.Settled a.graph a.plan)

include hp hl

/-- The method of an event has its opening and the code of its nodes, in some order. -/
theorem perm_parts_lifecycle (e : Lifecycle) : (a.lifecycleMethod e).parts.Perm
    ((a.openingParts e ++ a.bodyParts e.methodName).filter fun part => !part.code.isEmpty) := by
  rw [lifecycleMethod, addParts_eq, parts_lifecycleHead, List.nil_append]
  exact ((perm_openingParts hp hl e).append_right _).filter _

/-- The method of a function has its declarations and the code of its nodes, in some order. -/
theorem perm_parts_function (id : MemberId) (f : Function) : (a.functionMethod id f).parts.Perm
    ((a.declarationParts (a.symbol (.member id)) ++ a.bodyParts (a.symbol (.member id))).filter
      fun part => !part.code.isEmpty) := by
  rw [functionMethod, addParts_eq]
  exact ((perm_partsOf_function hp hl).append_right _).filter _

/-- The method of an event declares each handle that it wants once. -/
theorem filter_parts_lifecycle (e : Lifecycle) (h : Handle) :
    (a.lifecycleMethod e).parts.filter (fun x => x.priority = h.priority) =
      if a.ledger.Wants a.graph e.methodName h then [a.handlePart h] else [] := by
  have hperm := perm_parts_lifecycle hp hl e
  have hbodies : ∀ x ∈ a.bodyParts e.methodName, -900 ≤ x.priority ∨ x.priority = -2000 := by
    intro x hx
    rw [priority_bodyParts hx]
    decide
  by_cases he : e = .update
  · subst he
    rw [openingParts, List.append_assoc] at hperm
    refine filter_parts_of_perm hperm (List.forall_mem_append.2 ⟨fun x hx => ?_, hbodies⟩) h
    exact .inl (priority_timeParts hx).ge
  · rw [← List.nil_append (a.openingParts e), ← declarationParts_eq_nil hp hl he,
      List.append_assoc] at hperm
    refine filter_parts_of_perm hperm (List.forall_mem_append.2 ⟨fun x hx => ?_, hbodies⟩) h
    cases e with
    | create =>
      have hcreate := priority_createParts hx
      omega
    | update => exact absurd rfl he
    | destroy | startRunning | stopRunning => exact absurd hx List.not_mem_nil

/-- A method has one declaration of a handle that it is to declare, and none of any other. -/
theorem filter_parts_of_mem (hm : m ∈ a.declaration.methods) (h : Handle) :
    m.parts.filter (fun x => x.priority = h.priority) =
      if a.ledger.Wants a.graph m.name h then [a.handlePart h] else [] := by
  rcases mem_methods hm with ⟨e, rfl⟩ | ⟨id, f, rfl⟩
  · rw [name_lifecycleMethod]
    exact filter_parts_lifecycle hp hl e h
  · rw [name_functionMethod]
    refine filter_parts_of_perm (perm_parts_function hp hl id f) (fun x hx => ?_) h
    rw [priority_bodyParts hx]
    decide

/-! ## The update method -/

variable (hperm : m.parts.Perm (a.lifecycleMethod .update).parts)

include hperm

theorem perm_parts_update : m.parts.Perm ((a.declarationParts updateMethod ++ (a.plan.timeParts ++
    a.bodyParts updateMethod)).filter fun part => !part.code.isEmpty) := by
  rw [← List.append_assoc]
  exact hperm.trans (perm_parts_lifecycle hp hl .update)

/-- The update method has parts of four priorities. -/
theorem priority_mem_of_perm {x : Part} (hx : x ∈ m.parts) :
    x.priority ∈ [Handle.commandBuffer.priority, Handle.entityManager.priority, -900, 0] := by
  have hupdate := (perm_parts_update hp hl hperm).mem_iff.1 hx
  rcases List.mem_append.1 (List.mem_filter.1 hupdate).1 with hhandle | hrest
  · rcases priority_declarationParts hhandle with hpriority | hpriority <;>
      simp [Handle.priority, hpriority]
  · rcases List.mem_append.1 hrest with htime | hbody
    · simp [priority_timeParts htime]
    · simp [priority_bodyParts hbody]

/-- Whatever order its parts are added in, handles come first, then times, then the code of
events. -/
theorem ordered_of_perm : m.ordered =
    (Handle.all.filter fun h => a.ledger.Wants a.graph updateMethod h).map a.handlePart ++
      m.parts.filter (fun x => x.priority = -900) ++ m.parts.filter fun x => x.priority = 0 := by
  have hparts : ∀ h : Handle, m.parts.filter (fun x => x.priority = h.priority) =
      if a.ledger.Wants a.graph updateMethod h then [a.handlePart h] else [] := by
    refine filter_parts_of_perm (perm_parts_update hp hl hperm)
      (List.forall_mem_append.2 ⟨fun x hx => ?_, fun x hx => ?_⟩)
    · exact .inl (priority_timeParts hx).ge
    · rw [priority_bodyParts hx]
      decide
  have hhandles :
      (Handle.all.filter fun h => a.ledger.Wants a.graph updateMethod h).map a.handlePart =
      (m.parts.filter fun x => x.priority = Handle.commandBuffer.priority) ++
        m.parts.filter fun x => x.priority = Handle.entityManager.priority := by
    rw [hparts, hparts]
    by_cases hbuffer : a.ledger.Wants a.graph updateMethod .commandBuffer <;>
      by_cases hmanager : a.ledger.Wants a.graph updateMethod .entityManager <;>
      simp [Handle.all, hbuffer, hmanager]
  rw [Declaration.ordered_eq_flatMap (by decide) fun x =>
    priority_mem_of_perm hp hl hperm, hhandles]
  simp only [List.flatMap_cons, List.flatMap_nil, List.append_nil, List.append_assoc]

theorem filter_parts_times : (m.parts.filter fun x => x.priority = -900).Perm
    (a.plan.timeParts.filter fun part => !part.code.isEmpty) := by
  have hhandles : (a.declarationParts updateMethod).filter (fun x => x.priority = -900) = [] := by
    refine Declaration.filter_eq_nil fun x hx heq => ?_
    have hpriority := priority_declarationParts hx
    omega
  have htimes := Declaration.filter_eq_self fun x hx => priority_timeParts (a := a) hx
  have hbodies : (a.bodyParts updateMethod).filter (fun x => x.priority = -900) = [] :=
    Declaration.filter_eq_nil fun x hx heq =>
      absurd ((priority_bodyParts hx).symm.trans heq) (by decide)
  have hfiltered := (perm_parts_update hp hl hperm).filter fun x => x.priority = -900
  rw [List.filter_comm] at hfiltered
  simpa only [List.filter_append, hhandles, htimes, hbodies, List.nil_append, List.append_nil]
    using hfiltered

theorem filter_parts_bodies : (m.parts.filter fun x => x.priority = 0).Perm
    ((a.bodyParts updateMethod).filter fun part => !part.code.isEmpty) := by
  have hfirst : (a.openingParts .update).filter (fun x => x.priority = 0) = [] :=
    Declaration.filter_eq_nil fun x hx => (priority_openingParts hx).ne
  have hbodies : (a.bodyParts updateMethod).filter (fun x => x.priority = 0) =
      a.bodyParts updateMethod :=
    Declaration.filter_eq_self fun x hx => priority_bodyParts hx
  have hfiltered :=
    (hperm.trans (perm_parts_lifecycle hp hl .update)).filter fun x => x.priority = 0
  rwa [List.filter_comm, List.filter_append, hfirst, List.nil_append, ← updateMethod, hbodies]
    at hfiltered

end Methods

/-! ## Units -/

/-- Each handle has one name, and one declaration in a method at most. -/
structure DeclaresOnce (a : Assembly) : Prop where
  /-- All that planning asks for is answered with the name in the plan, which therefore does not
  depend on any other answer. -/
  answered : ∀ ask, Answers a.graph a.plan ask →
    (planWith ask a.graph).run (.start a.graph) = .ok (⟨⟩, a.plan)
  /-- So is all that generation asks for, unless the request fails.  It makes one note, which asks
  for that handle where the code stands. -/
  generated : ∀ scope n h,
    (∃ e, Generation.Adds (Site.handle ⟨a.graph, a.plan, scope⟩ n h) (.error e) []) ∨
    ∃ x, Generation.Adds (Site.handle ⟨a.graph, a.plan, scope⟩ n h)
        (.ok (.handle h (a.plan.handleName h) (.node n))) [x] ∧
      ∀ method k, x.Asks method k ↔ scope.method? = method ∧ h = k
  /-- A request that is made again changes nothing, neither in a plan nor after it. -/
  again : (∀ h p name r, h ∈ p.handles → (rootHandle a.graph h).run p = .ok (name, r) →
      r.handles = p.handles ∧ r.parts = p.parts) ∧
    ∀ (l : Ledger) (x : Note) method h, x.Asks method h → l.Asks method h → l.add x = l
  /-- Declarations are added by the notes, one after the other, to those of the plan.  After each of
  them a method has one declaration of every handle that it was asked for until then, and no
  other. -/
  entered : ∃ notes, a.ledger = (Ledger.ofPlan a.plan).enter notes ∧
    ∀ before, before <+: notes → ∀ m h,
      ((Ledger.ofPlan a.plan).enter before).declarations m h =
        if ((Ledger.ofPlan a.plan).enter before).Wants a.graph m h then [a.handlePart h] else []
  used : a.draft.All a.plan fun _ _ x =>
    ∀ h name use, x = .handle h name use → name = a.plan.handleName h
  /-- Only declarations of a handle have its priority. -/
  once : ∀ m ∈ a.declaration.methods, ∀ h, m.parts.filter (fun x => x.priority = h.priority) =
    if a.ledger.Wants a.graph m.name h then [a.handlePart h] else []
  /-- Methods of jobs have no parts but their code. -/
  jobs : ∀ b ∈ a.draft.jobs, ∀ m ∈ (a.jobType b).methods, ∀ x ∈ m.parts, x.priority = 0
  /-- The update method in order, even if its parts had been added in another order. -/
  ordered : ∀ m ∈ a.declaration.methods, m.name = updateMethod → ∀ m' : Method,
    m'.parts.Perm m.parts →
    ∃ (hs : List Handle) (times bodies : List Part),
    m'.ordered = hs.map a.handlePart ++ times ++ bodies ∧
      hs.Sublist Handle.all ∧ (∀ h, h ∈ hs ↔ a.ledger.Asks none h) ∧
      times.Sublist m'.parts ∧ times.Perm (a.plan.timeParts.filter fun part => !part.code.isEmpty) ∧
      bodies.Sublist m'.parts ∧
      bodies.Perm ((a.bodyParts updateMethod).filter fun part => !part.code.isEmpty)

/-- A request asks for its own handle, where the code stands. -/
theorem asks_request {s : Site} {n : NodeId} {h : Handle} {x : Note} (hx : s.request n h = .ok x)
    (method : Option String) (k : Handle) : x.Asks method k ↔ s.scope.method? = method ∧ h = k := by
  unfold Site.request at hx
  cases hscope : s.scope.method? with
  | none =>
    rw [hscope] at hx
    dsimp only at hx
    split at hx
    · obtain rfl := Except.ok.inj hx
      exact .rfl
    · exact absurd hx nofun
  | some m =>
    rw [hscope] at hx
    obtain rfl := Except.ok.inj hx
    split <;> exact .rfl

/-- Asking for a handle makes one note, or fails without any. -/
theorem adds_handle (s : Site) (n : NodeId) (h : Handle) :
    (∃ e, Generation.Adds (s.handle n h) (.error e) []) ∨
    ∃ x, s.request n h = .ok x ∧
      Generation.Adds (s.handle n h) (.ok (.handle h (s.plan.handleName h) (.node n))) [x] := by
  unfold Site.handle
  cases s.request n h with
  | error e => exact .inl ⟨e, fun l => rfl⟩
  | ok x => exact .inr ⟨x, rfl, fun l => rfl⟩

/-- A second request for a handle adds nothing to the plan. -/
theorem ensures_rootHandle_again {h : Handle} {p : Plan} (hh : h ∈ p.handles) :
    Ensures p (rootHandle g h) fun _ r => r.handles = p.handles ∧ r.parts = p.parts := by
  refine ensures_bind.2 (ensures_get.2 ?_)
  rw [if_pos (List.contains_iff_mem.2 hh)]
  simp only [register, ensures_bind, ensures_get, ensures_set, ensures_pure]
  exact ⟨trivial, trivial⟩

theorem priority_addCode {code : String} (hm : m.parts = []) :
    ∀ x ∈ (m.addCode 0 code).parts, x.priority = 0 := by
  intro x hx
  simp only [Method.addCode_eq, hm, List.nil_append] at hx
  rw [List.mem_singleton.1 (List.mem_of_mem_filter hx)]

theorem priority_jobType {b : JobBody} (hm : m ∈ (a.jobType b).methods) :
    ∀ x ∈ m.parts, x.priority = 0 := by
  rcases List.mem_cons.1 hm with rfl | hcopied
  · exact priority_addCode rfl
  · obtain ⟨x, -, hsome⟩ := List.mem_filterMap.1 hcopied
    obtain ⟨f, -, rfl⟩ := Option.map_eq_some_iff.1 hsome
    exact priority_addCode rfl

/-- What is declared when a unit is assembled, and in which order. -/
theorem declaresOnce {o : Options} (ha : g.assemble o = .ok a) : a.DeclaresOnce := by
  have hl := Graph.settled_ledger ha
  obtain ⟨notes, hledger, -, hsettled⟩ := Graph.exists_notes ha
  have hused := Graph.all_draft ha fun scope => Site.grounds_rests (Graph.assemble_eq_ok ha).2.1
  obtain ⟨rfl, hp, -⟩ := Graph.assemble_eq_ok ha
  constructor
  case answered => exact fun ask hask => run_planWith hask hp
  case generated =>
    intro scope n h
    refine (adds_handle ⟨a.graph, a.plan, scope⟩ n h).imp_right ?_
    rintro ⟨x, hx, hadds⟩
    exact ⟨x, hadds, asks_request hx⟩
  case again =>
    exact ⟨fun h p name r hh => ensures_rootHandle_again hh name r,
      fun l x method h => Ledger.add_eq_self⟩
  case entered =>
    refine ⟨notes, hledger, fun before hbefore m h => ?_⟩
    split
    · exact (hsettled before hbefore).once m h ‹_›
    · exact (hsettled before hbefore).none m h ‹_›
  case used => exact hused.imp fun scope job x hx h name use heq => (hx h name use heq).1
  case once => exact fun m hm h => filter_parts_of_mem hp hl hm h
  case jobs => exact fun b _ m hm => priority_jobType hm
  case ordered =>
    intro m hm hname m' hperm
    obtain rfl := (eq_lifecycleMethod hp hm hname).1
    refine ⟨_, _, _, ordered_of_perm hp hl hperm, List.filter_sublist, fun h => ?_,
      List.filter_sublist, filter_parts_times hp hl hperm, List.filter_sublist,
      filter_parts_bodies hp hl hperm⟩
    rw [List.mem_filter, decide_eq_true_iff, Ledger.Wants, if_pos rfl]
    exact and_iff_right (Handle.mem_all h)

end Assembly

/-- Of every unit that is made: whoever asks for a handle gets one name, and a method declares it
once. -/
theorem Graph.compile_declaresOnce {g : Graph} {options : Options} {u : CompiledUnit}
    (hu : g.compile options = .ok u) :
    ∃ a, g.assemble options = .ok a ∧ a.graph = g ∧ u.source = a.source ∧ a.DeclaresOnce := by
  obtain ⟨a, ha, hsource, -⟩ := Graph.compile_eq_ok hu
  exact ⟨a, ha, (Graph.assemble_eq_ok ha).1, hsource, Assembly.declaresOnce ha⟩

namespace Asking

/-- A managed system that creates entities in an update and in a function, and has a variable that
is called like the command buffer. -/
def graph : Graph := Graph.build { flavor := .managedSystem } [
  .addFunction "Spawn" [] none false,
  .addVariable { name := "ecb", type := .float },
  .addNode "Update" (.event .update) ContainerTree.root,
  .addNode "First" .createEntity ContainerTree.root,
  .addNode "Time" (.localVar "time" .float) ContainerTree.root,
  .addNode "Entry" (.functionEntry ⟨0⟩) ⟨1⟩,
  .addNode "Last" .createEntity ⟨1⟩,
  .connect ⟨0⟩ "exit" ⟨1⟩ "enter", .connect ⟨1⟩ "exit" ⟨2⟩ "enter",
  .connect ⟨0⟩ "deltaTime" ⟨2⟩ "value", .connect ⟨3⟩ "exit" ⟨4⟩ "enter"]

/-- In the update method the command buffer was asked for after the time, and comes first in the
code. -/
theorem compile_declaresOnce_spawn : ∃ u a, graph.compile {} = .ok u ∧ graph.assemble {} = .ok a ∧
    u.source = a.source ∧ a.plan.handleName .commandBuffer = "ecb1" ∧
    a.declaration.methods.map (fun m => (m.name, m.parts.map Declaration.Part.priority)) =
      [("OnCreate", []), ("OnUpdate", [-900, -1000, 0]), ("OnDestroy", []), ("Spawn", [-1000, 0])] ∧
    a.DeclaresOnce := by
  obtain ⟨a, ha, hcheck⟩ := exists_ok_of_any (x := graph.assemble {})
    (c := fun a => a.plan.handleName .commandBuffer = "ecb1" ∧
      a.declaration.methods.map (fun m => (m.name, m.parts.map Declaration.Part.priority)) =
        [("OnCreate", []), ("OnUpdate", [-900, -1000, 0]), ("OnDestroy", []),
        ("Spawn", [-1000, 0])])
    (by decide +kernel)
  obtain ⟨hname, hparts⟩ := of_decide_eq_true hcheck
  obtain ⟨u, hu⟩ := Graph.exists_compile ha
  obtain ⟨a', ha', -, hsource, honce⟩ := Graph.compile_declaresOnce hu
  obtain rfl := Except.ok.inj (ha.symm.trans ha')
  exact ⟨u, a, hu, ha, hsource, hname, hparts, honce⟩

end Asking

end EntityFlow
