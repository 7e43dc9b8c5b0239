import EntityFlow.Proofs.Generation.Composed
import EntityFlow.Proofs.Generation.Drafts
import EntityFlow.Proofs.Methods

/-!
# Where handles are declared

Code refers to the command buffer and the entity manager by name.  The update method declares every
handle that a plan asks for or that code outside functions uses, and a function of a managed system
declares those that its own statements use.  Other functions cannot, which is reported.  Nothing is
declared or reported where another lifecycle method uses a handle, nor where a function passes the
command buffer on to a job or reads the entity manager from the update event: in these cases the
name is that of a local of the update method.
-/

namespace EntityFlow

open Declaration (Method Part)
open Planning Naming

variable {g : Graph} {p : Plan} {scope : Scope} {N : Ledger} {ds : List Diagnostic}

/-! ## Handles in plans -/

namespace Planning

/-- What a plan adds to the update method: one declaration for each handle that was asked for, and
otherwise time values only. -/
structure DeclaresHandles (g : Graph) (p : Plan) : Prop where
  once : ∀ h ∈ p.handles, ∃ name, p.symbols.get? h.key = some name ∧
    p.parts.filter (fun x => x.priority = h.priority) = [h.part g.settings.flavor name]
  none : ∀ h, h ∉ p.handles → p.parts.filter (fun x => x.priority = h.priority) = []
  rest : ∀ x ∈ p.parts, Handle.isDeclaration x = true ∨ x.priority = -900

variable {q : Plan}

/-- A step that touches neither handles nor parts declares nothing. -/
theorem DeclaresHandles.keeps (hp : DeclaresHandles g p) (hhandles : q.handles = p.handles)
    (hparts : q.parts = p.parts) (hsymbols : p.symbols.Keeps q.symbols) : DeclaresHandles g q where
  once h hh := by
    obtain ⟨name, hname, honce⟩ := hp.once h (hhandles ▸ hh)
    exact ⟨name, hsymbols _ _ hname, hparts ▸ honce⟩
  none h hh := hparts ▸ hp.none h (hhandles ▸ hh)
  rest := hparts ▸ hp.rest

/-- A handle is declared when it is asked for the first time. -/
theorem DeclaresHandles.handle {h : Handle} {name : String} (hp : DeclaresHandles g p)
    (hnew : h ∉ p.handles) (hname : p.symbols.get? h.key = some name) :
    DeclaresHandles g { p with
      handles := p.handles ++ [h], parts := p.parts ++ [h.part g.settings.flavor name] } where
  once k hk := by
    rcases List.mem_append.1 hk with hold | hthis
    · obtain ⟨name', hname', honce⟩ := hp.once k hold
      have hother : h ≠ k := fun heq => hnew (heq ▸ hold)
      exact ⟨name', hname', by simp [honce, Handle.priority_inj, hother]⟩
    · obtain rfl := List.mem_singleton.1 hthis
      exact ⟨name, hname, by simp [hp.none k hnew]⟩
  none k hk := by
    have hother : h ≠ k := fun heq => hk (by simp [heq])
    simp [hp.none k (fun hold => hk (List.mem_append_left _ hold)), Handle.priority_inj, hother]
  rest := List.forall_mem_append.2 ⟨hp.rest, List.forall_mem_singleton.2 (.inl (by simp))⟩

/-- The time is declared with a priority of its own, and is no handle. -/
theorem DeclaresHandles.time (hp : DeclaresHandles g p) (code : String) :
    DeclaresHandles g { p with parts := p.parts ++ [⟨-900, code⟩] } := by
  have hother : ∀ h : Handle, -900 ≠ h.priority := fun h => by cases h <;> decide
  constructor
  · intro h hh
    obtain ⟨name, hname, honce⟩ := hp.once h hh
    exact ⟨name, hname, by simp [honce, hother h]⟩
  · intro h hh
    simp [hp.none h hh, hother h]
  · exact List.forall_mem_append.2 ⟨hp.rest, List.forall_mem_singleton.2 (.inr rfl)⟩

/-- Every step of planning declares the handles that it adds. -/
theorem lasting_declaresHandles (g : Graph) :
    Lasting g fun p q => DeclaresHandles g p → DeclaresHandles g q where
  refl _ := id
  trans hpq hqr := hqr ∘ hpq
  symbols_register p key hint hp := hp.keeps rfl rfl (SymbolTable.keeps_register p.symbols key hint)
  symbols_fresh p hint hp := hp.keeps rfl rfl (SymbolTable.keeps_fresh p.symbols hint)
  diagnostics _ _ _ _ hp := { hp with }
  bindings _ _ _ _ hp := { hp with }
  handles _ _ _ hnew hname hp := hp.handle hnew hname
  times _ _ _ hp := hp.time _
  unavailable _ _ _ hp := { hp with }
  manager _ _ _ _ _ hp := { hp with }
  boundaries _ _ hp := { hp with }
  redirects _ _ hp := { hp with }
  usings _ _ hp := { hp with }
  jobs _ _ hp := { hp with }

/-- In a plan the update method has a declaration of every handle, and one only. -/
theorem declaresHandles_make (hmake : Plan.make g = .ok p) : DeclaresHandles g p :=
  (lasting_declaresHandles g).make hmake ⟨nofun, fun _ _ => rfl, nofun⟩

/-- A handle is declared under the name that the plan has for it. -/
theorem Declares.name_eq {h : Handle} {name : String} (hd : Declares p h name) :
    name = p.handleName h := by
  rw [Plan.handleName, Plan.nameOf, SymbolTable.register_of_get? hd.2]

end Planning

theorem Lifecycle.methodName_mem_ownNames (e : Lifecycle) : e.methodName ∈ ownNames := by
  cases e <;> decide

/-- Different events have different methods. -/
theorem Lifecycle.methodName_injective : Function.Injective Lifecycle.methodName := by
  intro e e' h
  cases e <;> cases e' <;> simp_all [methodName]

/-- Functions are not called like lifecycle methods. -/
theorem Planning.Sound.methodName_not_mem (hp : Sound g p) (e : Lifecycle) :
    e.methodName ∉ functionNames g p.symbols := by
  intro hmem
  obtain ⟨f, hf⟩ := mem_functionNames.1 hmem
  obtain ⟨-, hname⟩ := functionName_eq_ok.1 hf
  exact hp.names.get?_ne e.methodName_mem_ownNames hname

/-! ## Handles in ledgers -/

namespace Ledger

/-- A ledger that is opened for a plan has its parts in the update method. -/
theorem partsOf_ofPlan (p : Plan) (m : String) :
    (ofPlan p).partsOf m = if m = updateMethod then p.parts else [] := by
  unfold partsOf ofPlan
  dsimp only
  rw [List.filterMap_map]
  split
  · rename_i hm
    simp [hm]
  · rename_i hm
    simp [Ne.symm hm]

/-- Generation begins with what the plan declares. -/
theorem settled_ofPlan (hp : DeclaresHandles g p) : (ofPlan p).Settled g p := by
  have hfunctions : ∀ m h, ¬(ofPlan p).Asks (some m) h := fun m h hasks => List.not_mem_nil hasks
  constructor
  case once =>
    intro m h hwants
    rw [Wants] at hwants
    split at hwants
    · obtain ⟨name, hname, honce⟩ := hp.once h hwants
      rw [declarations, partsOf_ofPlan, if_pos ‹_›, honce, Declares.name_eq ⟨hwants, hname⟩]
    · exact absurd hwants.2 (hfunctions m h)
  case none =>
    intro m h hwants
    rw [declarations, partsOf_ofPlan]
    split
    · rw [Wants, if_pos ‹_›] at hwants
      exact hp.none h hwants
    · rfl
  case times =>
    intro m
    rw [others, partsOf_ofPlan]
    split
    · refine List.filter_congr fun x hx => ?_
      rcases hp.rest x hx with hdeclaration | htime
      · obtain ⟨h, -, hpriority⟩ := List.any_eq_true.1 hdeclaration
        have hother : h.priority ≠ -900 := by cases h <;> decide
        simp [hdeclaration, of_decide_eq_true hpriority, hother]
      · simp [Handle.isDeclaration, Handle.all, Handle.priority, htime]
    · rfl
  case functions => exact fun _ m h hasks => absurd hasks (hfunctions m h)
  case reported => exact fun _ m h hasks => absurd hasks (hfunctions m h)

end Ledger

/-- All that is entered while a unit is drafted keeps to the plan, and so the ledger is settled
throughout. -/
theorem Graph.exists_notes {options : Options} {a : Assembly} (ha : g.assemble options = .ok a) :
    ∃ notes, a.ledger = (Ledger.ofPlan a.plan).enter notes ∧ (∀ x ∈ notes, Ledger.Fits g a.plan x) ∧
      ∀ before, before <+: notes → ((Ledger.ofPlan a.plan).enter before).Settled g a.plan := by
  obtain ⟨-, hp, hrun⟩ := assemble_eq_ok ha
  obtain ⟨r, notes, hadds, hfits, -⟩ := (Draft.composed_generate g a.plan).exists_adds
  rw [hadds] at hrun
  refine ⟨notes, (congrArg Prod.snd hrun).symm, hfits, fun before hbefore => ?_⟩
  refine (Ledger.settled_ofPlan (declaresHandles_make hp)).enter
    ((sound_make hp).methodName_not_mem .update) fun x hx => hfits x (hbefore.subset hx)

/-- After drafting the ledger has a declaration for every request, and no other. -/
theorem Graph.settled_ledger {options : Options} {a : Assembly} (ha : g.assemble options = .ok a) :
    a.ledger.Settled g a.plan := by
  obtain ⟨notes, hledger, -, hsettled⟩ := exists_notes ha
  rw [hledger]
  exact hsettled notes (List.prefix_refl _)

/-! ## Parts of methods -/

namespace Assembly

variable {a : Assembly} {h : Handle}

def handlePart (a : Assembly) (h : Handle) : Part := h.part a.flavor (a.plan.handleName h)

@[simp] theorem parts_lifecycleHead (e : Lifecycle) : (a.lifecycleHead e).parts = [] := by
  unfold lifecycleHead
  split <;> rfl

@[simp] theorem name_lifecycleMethod (e : Lifecycle) :
    (a.lifecycleMethod e).name = e.methodName := by
  unfold lifecycleMethod lifecycleHead
  rw [name_addParts]
  split <;> rfl

@[simp] theorem name_functionMethod (id : MemberId) (f : Function) :
    (a.functionMethod id f).name = a.symbol (.member id) :=
  name_addParts _ _

theorem isEmpty_handlePart (h : Handle) : (a.handlePart h).code.isEmpty = false := by
  simp [handlePart, Handle.part, Code.declare, String.isEmpty_eq_false_iff]

/-- The declaration of a handle has one of two priorities, both below that of times. -/
theorem priority_handlePart (h : Handle) :
    (a.handlePart h).priority = -1000 ∨ (a.handlePart h).priority = -999 := by
  cases h
  · exact .inl rfl
  · exact .inr rfl

/-- The code of nodes has priority zero. -/
theorem priority_bodyParts {method : String} {x : Part} (hx : x ∈ a.bodyParts method) :
    x.priority = 0 := by
  obtain ⟨⟨m, body⟩, -, hsome⟩ := List.mem_filterMap.1 hx
  dsimp only at hsome
  split at hsome
  · obtain rfl := Option.some.inj hsome
    rfl
  · exact absurd hsome nofun

/-- What the method of creation begins with has a priority below that of the code of nodes. -/
theorem priority_createParts {x : Part} (hx : x ∈ a.createParts) :
    x.priority = -2000 ∨ x.priority = -500 := by
  rcases List.mem_append.1 hx with hrequired | hdefault
  · obtain ⟨t, -, rfl⟩ := List.mem_map.1 hrequired
    exact .inl rfl
  · obtain ⟨⟨id, m⟩, -, hsome⟩ := List.mem_filterMap.1 hdefault
    obtain ⟨v, -, hsome⟩ := Option.bind_eq_some_iff.1 hsome
    obtain ⟨value, -, hsome⟩ := Option.bind_eq_some_iff.1 hsome
    split at hsome
    · obtain rfl := Option.some.inj hsome
      exact .inr rfl
    · exact absurd hsome nofun

theorem handlePart_not_mem_bodyParts (method : String) : a.handlePart h ∉ a.bodyParts method := by
  intro hbody
  have hpriority := a.priority_handlePart h
  have hzero := priority_bodyParts hbody
  omega

theorem handlePart_not_mem_lifecycleParts (e : Lifecycle) :
    a.handlePart h ∉ a.lifecycleParts e := by
  intro hown
  have hpriority := a.priority_handlePart h
  cases e with
  | create =>
    have hcreate := priority_createParts hown
    omega
  | update | destroy | startRunning | stopRunning => exact absurd hown List.not_mem_nil

/-- A method is that of an event or that of a function. -/
theorem mem_methods {M : Method} (hM : M ∈ a.declaration.methods) :
    (∃ e, M = a.lifecycleMethod e) ∨ ∃ id f, M = a.functionMethod id f := by
  rcases List.mem_append.1 hM with hlifecycle | hfunction
  · unfold lifecycleMethods at hlifecycle
    split at hlifecycle
    · obtain ⟨e, -, rfl⟩ := List.mem_map.1 hlifecycle
      exact .inl ⟨e, rfl⟩
    · exact absurd hlifecycle List.not_mem_nil
  · obtain ⟨⟨id, m⟩, -, hsome⟩ := List.mem_filterMap.1 hfunction
    obtain ⟨f, -, rfl⟩ := Option.map_eq_some_iff.1 hsome
    exact .inr ⟨id, f, rfl⟩

/-- No symbol is called like a lifecycle method. -/
theorem symbol_not_mem_ownNames (hp : Sound g a.plan) (key : SymbolKey) :
    a.symbol key ∉ ownNames := by
  unfold symbol
  cases hkey : a.plan.symbols.get? key with
  | none => decide
  | some name => exact hp.names.bound (key, name) (SymbolTable.mem_bound_of_get? hkey)

section Settled

variable (hl : a.ledger.Settled a.graph a.plan)

include hl

/-- A ledger has the declaration of a handle in a method exactly if the method wants it. -/
theorem handlePart_mem_partsOf {m : String} :
    a.handlePart h ∈ a.ledger.partsOf m ↔ a.ledger.Wants a.graph m h := by
  have hdeclarations : a.handlePart h ∈ a.ledger.partsOf m ↔
      a.handlePart h ∈ a.ledger.declarations m h := by
    simp [Ledger.declarations, handlePart]
  rw [hdeclarations]
  by_cases hwants : a.ledger.Wants a.graph m h
  · rw [hl.once m h hwants]
    exact iff_of_true List.mem_cons_self hwants
  · rw [hl.none m h hwants]
    exact iff_of_false List.not_mem_nil hwants

/-- A lifecycle method declares a handle exactly if it is the update method and was asked for it. -/
theorem wants_methodName (hp : Sound a.graph a.plan) {e : Lifecycle} :
    a.ledger.Wants a.graph e.methodName h ↔ e = .update ∧ a.ledger.Asks none h := by
  by_cases he : e = .update
  · subst he
    simp [Ledger.Wants, updateMethod]
  · have hname : e.methodName ≠ updateMethod := mt (Lifecycle.methodName_injective ·) he
    rw [Ledger.Wants, if_neg hname]
    refine iff_of_false (fun hasks => ?_) fun hupdate => he hupdate.1
    exact hp.methodName_not_mem e (hl.functions hasks.1 _ h hasks.2)

/-- Of the lifecycle methods only the update declares handles, and only those asked for. -/
theorem handlePart_mem_lifecycleMethod (hp : Sound a.graph a.plan) {e : Lifecycle} :
    a.handlePart h ∈ (a.lifecycleMethod e).parts ↔ e = .update ∧ a.ledger.Asks none h := by
  rw [lifecycleMethod, mem_parts_addParts, parts_lifecycleHead, List.mem_append, List.mem_append,
    handlePart_mem_partsOf hl, wants_methodName hl hp]
  simp [isEmpty_handlePart, handlePart_not_mem_bodyParts, handlePart_not_mem_lifecycleParts]

/-- The method of a function declares the handles that it was asked for. -/
theorem handlePart_mem_functionMethod {id : MemberId} {f : Function} :
    a.handlePart h ∈ (a.functionMethod id f).parts ↔
      a.ledger.Wants a.graph (a.symbol (.member id)) h := by
  rw [functionMethod, mem_parts_addParts, List.mem_append, ← handlePart_mem_partsOf hl]
  simp [isEmpty_handlePart, handlePart_not_mem_bodyParts, functionHead]

end Settled

end Assembly

/-! ## Methods and scopes -/

namespace Draft

/-- Code that lands in a lifecycle method is made for the unit. -/
theorem Lands.of_lifecycle (hp : Sound g p) {e : Lifecycle} (h : Lands p e.methodName scope) :
    scope = .unit := by
  generalize hmethod : e.methodName = method at h
  cases h with
  | event => rfl
  | function f hf => exact absurd hf (hp.names.get?_ne (hmethod ▸ e.methodName_mem_ownNames))

/-- Code that lands in any other method is made for the function of that name. -/
theorem Lands.of_not_mem_ownNames {method : String} (h : Lands p method scope)
    (hmethod : method ∉ ownNames) : scope = .function method := by
  cases h with
  | event e he => exact absurd (he ▸ e.methodName_mem_ownNames) hmethod
  | function f _ => rfl

end Draft

/-! ## What a handle in code rests on -/

/-- Why a handle is there to be used.  Only a node that uses it asks for it where the use stands.
An event gives the entity manager out, and a job is passed the command buffer that it holds,
wherever it is constructed: for these the plan has the update method declare the handle. -/
inductive Rests (g : Graph) (p : Plan) (N : Ledger) (scope : Scope) (job : Option NodeId) :
    Handle → HandleUse → Prop
  | asked (n : NodeId) (h : Handle) (hasks : N.Asks scope.method? h) :
      Rests g p N scope job h (.node n)
  | given (output : PortRef) (houtput : IsManager g output) (hplan : .entityManager ∈ p.handles) :
      Rests g p N scope job .entityManager (.output output)
  | passed (j : Job) (hjob : job = some j.node) (hj : j ∈ p.jobs)
    (hbuffer : .commandBuffer ∈ j.owners)
      (hplan : .commandBuffer ∈ p.handles) : Rests g p N scope job .commandBuffer (.job j.node)

/-- A handle is used under its name, and where the code has one to rest on. -/
theorem Site.grounds_rests (hp : Plan.make g = .ok p) :
    Grounds ⟨g, p, scope⟩ N fun job x => ∀ h name use, x = .handle h name use →
      name = p.handleName h ∧ Rests g p N scope job h use := by
  apply grounds_of_make hp
  · rintro job x ⟨hx, -⟩ h name use heq
    exact absurd heq (hx h name use)
  -- What is passed to a job was used outside one.
  · intro job x hx h name use heq
    obtain ⟨hname, hrests⟩ := hx h name use heq
    refine ⟨hname, ?_⟩
    cases hrests with
    | asked n h hasks => exact .asked n h hasks
    | given output houtput hplan => exact .given output houtput hplan
    | passed j hjob => exact absurd hjob nofun
  · rintro n h hasks _ _ _ ⟨⟩
    exact ⟨rfl, .asked n h hasks⟩
  · exact fun _ _ _ _ _ => nofun
  · rintro output name houtput hdeclared _ _ _ ⟨⟩
    exact ⟨hdeclared.name_eq, .given output houtput hdeclared.1⟩
  · rintro j hj hbuffer name hdeclared _ _ _ ⟨⟩
    exact ⟨hdeclared.name_eq, .passed j rfl hj hbuffer hdeclared.1⟩

/-! ## Units -/

namespace Assembly

variable {a : Assembly} {job : Option NodeId} {h : Handle} {use : HandleUse}

/-- The code of the method uses the handle under that name; `job` is the job it is passed to, if it
is passed to one, and `use` says for what the expression was made: at a node, for an output or for a
job. -/
def Uses (a : Assembly) (M : Method) (job : Option NodeId) (h : Handle) (name : String)
    (use : HandleUse) : Prop :=
  ∃ body, (M.name, body) ∈ a.draft.bodies ∧ (job, .handle h name use) ∈ Stmt.leavesOf body

/-- Where the handle is declared that a method uses, or what says that it is not. -/
inductive Placed (g : Graph) (a : Assembly) (ds : List Diagnostic) (job : Option NodeId) :
    Handle → HandleUse → Method → Prop
  /-- The update method declares it, and no other lifecycle method does. -/
  | lifecycle (e : Lifecycle) (h : Handle) (use : HandleUse)
      (hupdate : a.handlePart h ∈ (a.lifecycleMethod .update).parts)
      (honly : a.handlePart h ∈ (a.lifecycleMethod e).parts ↔ e = .update) :
      Placed g a ds job h use (a.lifecycleMethod e)
  /-- A function of a managed system in which a node uses it declares it, and any other is
  reported. -/
  | function (id : MemberId) (f : Function) (h : Handle) (n : NodeId)
      (hown : if g.settings.flavor = .managedSystem then
          a.handlePart h ∈ (a.functionMethod id f).parts
        else ∃ n, .atNode n (.handleOutsideUpdate (a.functionMethod id f).name) ∈ ds) :
      Placed g a ds job h (.node n) (a.functionMethod id f)
  /-- The update method declares the entity manager that the function reads from its event. -/
  | given (id : MemberId) (f : Function) (output : PortRef) (houtput : IsManager g output)
      (hupdate : a.handlePart .entityManager ∈ (a.lifecycleMethod .update).parts) :
      Placed g a ds job .entityManager (.output output) (a.functionMethod id f)
  /-- The update method declares the command buffer for the job that the function constructs. -/
  | passed (id : MemberId) (f : Function) (j : Job) (hjob : job = some j.node)
    (hj : j ∈ a.plan.jobs)
      (hbuffer : .commandBuffer ∈ j.owners)
      (hupdate : a.handlePart .commandBuffer ∈ (a.lifecycleMethod .update).parts) :
      Placed g a ds job .commandBuffer (.job j.node) (a.functionMethod id f)

section Placed

variable (hp : Sound a.graph a.plan) (hl : a.ledger.Settled a.graph a.plan)
  (hplan : Ledger.ofPlan a.plan ≤ a.ledger)

include hp hl hplan

/-- A handle of the plan is declared in the update method. -/
theorem handlePart_mem_update (hh : h ∈ a.plan.handles ∨ a.ledger.Asks none h) :
    a.handlePart h ∈ (a.lifecycleMethod .update).parts :=
  (handlePart_mem_lifecycleMethod hl hp).2 ⟨rfl, hh.elim (hplan.asks none h) id⟩

/-- Where a handle comes from that is used in a lifecycle method. -/
theorem placed_lifecycle {e : Lifecycle} (hrests : Rests a.graph a.plan a.ledger .unit job h use) :
    Placed a.graph a ds job h use (a.lifecycleMethod e) := by
  have hasks : h ∈ a.plan.handles ∨ a.ledger.Asks none h := by
    cases hrests with
    | asked n h hasks => exact .inr hasks
    | given output _ hplan => exact .inl hplan
    | passed j _ _ _ hplan => exact .inl hplan
  have hupdate := handlePart_mem_update hp hl hplan hasks
  refine .lifecycle e h use hupdate ⟨fun hmem => ?_, ?_⟩
  · exact ((handlePart_mem_lifecycleMethod hl hp).1 hmem).1
  · rintro rfl
    exact hupdate

/-- Where a handle comes from that is used in a function. -/
theorem placed_function {id : MemberId} {f : Function} (hds : a.ledger.diagnostics ⊆ ds)
    (hrests : Rests a.graph a.plan a.ledger (.function (a.symbol (.member id))) job h use) :
    Placed a.graph a ds job h use (a.functionMethod id f) := by
  cases hrests with
  | asked n h hasks =>
    refine .function id f h n ?_
    split
    · rename_i hflavor
      refine (handlePart_mem_functionMethod hl).2 ?_
      rw [Ledger.Wants, if_neg fun hname => ?_]
      · exact ⟨hflavor, hasks⟩
      · have hown := symbol_not_mem_ownNames hp (.member id)
        rw [hname] at hown
        exact hown (Lifecycle.methodName_mem_ownNames .update)
    · rename_i hflavor
      obtain ⟨n', hn'⟩ := hl.reported hflavor _ h hasks
      exact ⟨n', hds (by rwa [name_functionMethod])⟩
  | given output houtput hdeclared =>
    exact .given id f output houtput (handlePart_mem_update hp hl hplan (.inl hdeclared))
  | passed j hjob hj hbuffer hdeclared =>
    exact .passed id f j hjob hj hbuffer (handlePart_mem_update hp hl hplan (.inl hdeclared))

end Placed

end Assembly

/-- In every unit of a system that is made, whatever handle a method uses is placed: declared in
that method, reported, or else declared in the update method. -/
theorem Graph.compile_places_handles {options : Options} {u : CompiledUnit}
    (hsystem : g.settings.flavor.isSystem = true) (hu : g.compile options = .ok u) :
    ∃ a, g.assemble options = .ok a ∧ u.source = a.source ∧
      a.lifecycleMethod .update ∈ a.declaration.methods ∧
      ∀ M ∈ a.declaration.methods, ∀ job h name use, a.Uses M job h name use →
        name = a.plan.handleName h ∧ a.Placed g u.diagnostics job h use M := by
  obtain ⟨a, ha, hsource, hdiagnostics⟩ := Graph.compile_eq_ok hu
  have hl := Graph.settled_ledger ha
  have hplan := Graph.ofPlan_le ha
  have hall := Graph.all_draft ha fun scope => Site.grounds_rests (Graph.assemble_eq_ok ha).2.1
  obtain ⟨rfl, hp, -⟩ := Graph.assemble_eq_ok ha
  have hds : a.ledger.diagnostics ⊆ u.diagnostics := by
    rw [hdiagnostics]
    exact List.subset_append_right _ _
  refine ⟨a, ha, hsource, ?_, ?_⟩
  · have hflavor : a.flavor.isSystem = true := hsystem
    apply List.mem_append_left
    rw [Assembly.lifecycleMethods, if_pos hflavor]
    exact List.mem_map_of_mem (List.mem_filter.2 ⟨by decide, rfl⟩)
  · rintro M hM job h name use ⟨body, hbody, hleaf⟩
    obtain ⟨scope, hlands, hleaves⟩ := hall.bodies _ hbody
    obtain ⟨hname, hrests⟩ := hleaves _ hleaf h name use rfl
    refine ⟨hname, ?_⟩
    rcases Assembly.mem_methods hM with ⟨e, rfl⟩ | ⟨id, f, rfl⟩
    · rw [Assembly.name_lifecycleMethod] at hlands
      obtain rfl := hlands.of_lifecycle (sound_make hp)
      exact Assembly.placed_lifecycle (sound_make hp) hl hplan hrests
    · rw [Assembly.name_functionMethod] at hlands
      obtain rfl := hlands.of_not_mem_ownNames (Assembly.symbol_not_mem_ownNames (sound_make hp) _)
      exact Assembly.placed_function (sound_make hp) hl hplan hds hrests

namespace Leak

open Assembly

/-- Entities are created when the system is created, when it is updated, and in a job that a
function constructs. -/
def graph : Graph := Graph.build {} [
  .addFunction "Spawn" [] none false,
  .addNode "Create" (.event .create) ContainerTree.root,
  .addNode "First" .createEntity ContainerTree.root,
  .addNode "Update" (.event .update) ContainerTree.root,
  .addNode "More" .createEntity ContainerTree.root,
  .addNode "Entry" (.functionEntry ⟨0⟩) ⟨1⟩,
  .addNode "Each" (.foreach { items := [⟨"a", some (.component "A"), .readOnly⟩]
                              run := .schedule }) ⟨1⟩,
  .addNode "Last" .createEntity ⟨1⟩,
  .connect ⟨0⟩ "exit" ⟨1⟩ "enter", .connect ⟨2⟩ "exit" ⟨3⟩ "enter",
  .connect ⟨4⟩ "exit" ⟨5⟩ "enter", .connect ⟨5⟩ "body" ⟨6⟩ "enter"]

def hasBuffer (name : String) (ss : List Stmt) : Bool :=
  (Stmt.leavesOf ss).any fun u =>
    match u.2 with
    | .handle .commandBuffer n _ => n == name
    | _ => false

/-- Whether a method of that name uses the command buffer as `ecb`, and whether it declares it. -/
def usesBuffer (a : Assembly) (declared : Bool) (method : String) : Bool :=
  a.declaration.methods.any fun M => M.name == method &&
    a.draft.bodies.any (fun x => x.1 == M.name && hasBuffer "ecb" x.2) &&
    M.parts.contains (a.handlePart .commandBuffer) == declared

/-- How the use of the command buffer is seen in the methods of a unit. -/
theorem uses_of_usesBuffer {a : Assembly} {declared : Bool} {method : String}
    (h : usesBuffer a declared method = true) : ∃ M ∈ a.declaration.methods, M.name = method ∧
      (∃ job use, a.Uses M job .commandBuffer "ecb" use) ∧
      (a.handlePart .commandBuffer ∈ M.parts ↔ declared = true) := by
  obtain ⟨M, hM, hall⟩ := List.any_eq_true.1 h
  simp only [Bool.and_eq_true, beq_iff_eq] at hall
  obtain ⟨⟨hname, hbodies⟩, hdeclared⟩ := hall
  obtain ⟨x, hx, hbody⟩ := List.any_eq_true.1 hbodies
  simp only [Bool.and_eq_true, beq_iff_eq] at hbody
  obtain ⟨hmethod, hleaf⟩ := hbody
  obtain ⟨⟨job, e⟩, he, hmatch⟩ := List.any_eq_true.1 hleaf
  refine ⟨M, hM, hname, ?_, ?_⟩
  · dsimp only at hmatch
    split at hmatch
    · obtain rfl := beq_iff_eq.1 hmatch
      exact ⟨job, _, x.2, hmethod ▸ hx, he⟩
    · exact absurd hmatch nofun
  · rw [← hdeclared, List.contains_iff_mem]

/-- A unit that compiles without a word, and uses a command buffer that two of its methods lack. -/
theorem exists_unit : ∃ u, graph.compile {} = .ok u ∧ u.diagnostics = [] ∧
    ∃ a, graph.assemble {} = .ok a ∧ u.source = a.source ∧ usesBuffer a false "OnCreate" = true ∧
      usesBuffer a true "OnUpdate" = true ∧ usesBuffer a false "Spawn" = true := by
  obtain ⟨u, hu, hclean⟩ := exists_ok_of_any (x := graph.compile {})
    (c := fun u => u.diagnostics.isEmpty) (by decide +kernel)
  obtain ⟨a, ha, huses⟩ := exists_ok_of_any (x := graph.assemble {})
    (c := fun a => usesBuffer a false "OnCreate" && (usesBuffer a true "OnUpdate" &&
      usesBuffer a false "Spawn")) (by decide +kernel)
  obtain ⟨a', ha', hsource, -⟩ := Graph.compile_eq_ok hu
  obtain rfl : a = a' := Except.ok.inj (ha.symm.trans ha')
  simp only [Bool.and_eq_true] at huses
  exact ⟨u, hu, List.isEmpty_iff.1 hclean, a, ha, hsource, huses⟩

/-- The unit is made.  All three methods use the command buffer, and the update method declares
it. -/
theorem compile_places_handles_spawn : ∃ u, graph.compile {} = .ok u ∧
    ∃ a, graph.assemble {} = .ok a ∧ u.source = a.source ∧
    ∀ method ∈ ["OnCreate", "OnUpdate", "Spawn"], ∃ M ∈ a.declaration.methods, M.name = method ∧
      ∃ job use, a.Uses M job .commandBuffer "ecb" use ∧
        a.Placed graph u.diagnostics job .commandBuffer use M := by
  obtain ⟨u, hu, -, a, ha, hsource, hcreate, hupdate, hspawn⟩ := exists_unit
  obtain ⟨a', ha', -, -, hplaced⟩ := Graph.compile_places_handles (by cbv) hu
  obtain rfl : a = a' := Except.ok.inj (ha.symm.trans ha')
  refine ⟨u, hu, a, ha, hsource, fun method hmethod => ?_⟩
  have huse : ∃ declared, usesBuffer a declared method = true := by
    simp only [List.mem_cons, List.not_mem_nil, or_false] at hmethod
    rcases hmethod with rfl | rfl | rfl
    · exact ⟨_, hcreate⟩
    · exact ⟨_, hupdate⟩
    · exact ⟨_, hspawn⟩
  obtain ⟨declared, hdeclared⟩ := huse
  obtain ⟨M, hM, hname, ⟨job, use, huse⟩, -⟩ := uses_of_usesBuffer hdeclared
  exact ⟨M, hM, hname, job, use, huse, (hplaced M hM job _ _ use huse).2⟩

/-- Neither the creation of the system nor the function declares the command buffer, and nothing is
reported. -/
theorem buffer_undeclared : ∃ u, graph.compile {} = .ok u ∧ u.diagnostics = [] ∧
    ∃ a, graph.assemble {} = .ok a ∧ u.source = a.source ∧
    ∀ method ∈ ["OnCreate", "Spawn"], ∃ M ∈ a.declaration.methods, M.name = method ∧
      (∃ job use, a.Uses M job .commandBuffer "ecb" use) ∧
      a.handlePart .commandBuffer ∉ M.parts := by
  obtain ⟨u, hu, hclean, a, ha, hsource, hcreate, -, hspawn⟩ := exists_unit
  refine ⟨u, hu, hclean, a, ha, hsource, fun method hmethod => ?_⟩
  have huse : usesBuffer a false method = true := by
    simp only [List.mem_cons, List.not_mem_nil, or_false] at hmethod
    rcases hmethod with rfl | rfl
    · exact hcreate
    · exact hspawn
  obtain ⟨M, hM, hname, hjob, hdeclared⟩ := uses_of_usesBuffer huse
  exact ⟨M, hM, hname, hjob, fun hmem => absurd (hdeclared.1 hmem) nofun⟩

end Leak

end EntityFlow
