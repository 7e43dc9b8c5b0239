import EntityFlow.Proofs.Generation.Runs
import EntityFlow.Proofs.Planning.Runs

/-!
# What generation is composed of

Every step of generation is put together from few: values, errors of generation and notes, one step
after another, and an error that is handled.  So what is noted before a step has no effect on it:
from any ledger it ends alike and enters the same notes.  `Composed N m` says that `m` is put
together in this way, with notes that satisfy `N`.  All notes fit the plan, and reading values and
making single statements never notes that flow was cut.
-/

namespace EntityFlow

/-- The node at which a problem says that flow was cut. -/
def Diagnostic.cut? (d : Diagnostic) : Option NodeId :=
  match d.problem with
  | .flowCycle n => some n
  | _ => none

def Note.cut? : Note → Option NodeId
  | .problem d => d.cut?
  | .root _ _ | .own _ _ _ | .foreign _ _ _ => none

/-- What is entered while code is generated at the site: in a function, handles are asked for by its
method. -/
def Site.Enters (s : Site) : Note → Prop
  | .problem _ => True
  | .root h part => part = h.part s.graph.settings.flavor (s.plan.handleName h)
  | .own method h part => s.scope.method? = some method ∧ s.graph.settings.flavor = .managedSystem ∧
      part = h.part s.graph.settings.flavor (s.plan.handleName h)
  | .foreign method _ _ =>
      s.scope.method? = some method ∧ s.graph.settings.flavor ≠ .managedSystem

/-- A note from a body is one that the ledger can take. -/
theorem Site.Enters.fits {s : Site} {x : Note} (h : s.Enters x) (hs : ∀ method,
    s.scope.method? = some method → method ∈ Naming.functionNames s.graph s.plan.symbols) :
    Ledger.Fits s.graph s.plan x := by
  cases x with
  | problem d => trivial
  | root k part => exact h
  | own method k part => exact ⟨h.2.1, hs method h.1, h.2.2⟩
  | foreign method n k => exact h.2

/-- The note is entered at the site and is not about flow that was cut. -/
def Site.Quiet (s : Site) (x : Note) : Prop := x.cut? = none ∧ s.Enters x

/-- An error of planning or of generation, not of what comes before or after them. -/
def CompileError.isGenerated : CompileError → Bool
  | .analysisFailed _ | .ioFailure => false
  | _ => true

namespace Generation

variable {α β : Type} {N N' : Note → Prop} {m : Generation α} {f : α → Generation β}

/-- A run of `m` enters the notes `new` and ends in `r`, whatever was noted before. -/
def Adds (m : Generation α) (r : Except CompileError α) (new : List Note) : Prop :=
  ∀ l, m.run.run l = (r, Ledger.enter l new)

/-- How steps are put together. -/
inductive Composed (N : Note → Prop) : {α : Type} → Generation α → Prop
  | value {α : Type} (a : α) : Composed N (pure a : Generation α)
  | error {α : Type} (e : CompileError)
    (h : e.isGenerated = true) : Composed N (throw e : Generation α)
  | noted (x : Note) (h : N x) : Composed N (note x)
  | seq {α β : Type} {m : Generation α} {f : α → Generation β} (hm : Composed N m)
      (hf : ∀ a, Composed N (f a)) : Composed N (m >>= f)
  | caught {α : Type} {m : Generation α} {handler : CompileError → Generation α} (hm : Composed N m)
      (hh : ∀ e, e.isGenerated = true → Composed N (handler e)) : Composed N (tryCatch m handler)

/-! ## Rules -/

theorem Composed.mono (h : Composed N m) (hN : ∀ x, N x → N' x) : Composed N' m := by
  induction h with
  | value a => exact .value a
  | error e he => exact .error e he
  | noted x hx => exact .noted x (hN x hx)
  | seq _ _ ihm ihf => exact .seq ihm ihf
  | caught _ _ ihm ihh => exact .caught ihm ihh

/-- What is noted before a step does not change it, nor can the step change that. -/
theorem Composed.exists_adds (h : Composed N m) : ∃ r new, Adds m r new ∧ (∀ x ∈ new, N x) ∧
    ∀ e, r = .error e → e.isGenerated = true := by
  induction h with
  | value a => exact ⟨.ok a, [], fun l => rfl, by simp, by simp⟩
  | error e he =>
    refine ⟨.error e, [], fun l => rfl, by simp, ?_⟩
    rintro _ ⟨⟩
    exact he
  | noted x hx => exact ⟨.ok ⟨⟩, [x], fun l => rfl, by simpa using hx, by simp⟩
  | seq _ _ ihm ihf =>
    obtain ⟨r, new, hadds, hnew, hr⟩ := ihm
    cases r with
    | error e =>
      refine ⟨.error e, new, fun l => by rw [run_bind, hadds], hnew, ?_⟩
      rintro _ ⟨⟩
      exact hr e rfl
    | ok a =>
      obtain ⟨r', new', hadds', hnew', hr'⟩ := ihf a
      refine ⟨r', new ++ new', fun l => ?_, List.forall_mem_append.2 ⟨hnew, hnew'⟩, hr'⟩
      rw [run_bind, hadds, Ledger.enter_append]
      exact hadds' _
  | caught _ _ ihm ihh =>
    obtain ⟨r, new, hadds, hnew, hr⟩ := ihm
    cases r with
    | ok a => exact ⟨.ok a, new, fun l => by rw [run_tryCatch, hadds], hnew, by simp⟩
    | error e =>
      obtain ⟨r', new', hadds', hnew', hr'⟩ := ihh e (hr e rfl)
      refine ⟨r', new ++ new', fun l => ?_, List.forall_mem_append.2 ⟨hnew, hnew'⟩, hr'⟩
      rw [run_tryCatch, hadds, Ledger.enter_append]
      exact hadds' _

theorem composed_report {problem : Problem} (n : NodeId) (h : N (.problem (.atNode n problem))) :
    Composed N (report n problem) := .noted _ h

theorem composed_map (h : α → β) (hm : Composed N m) : Composed N (h <$> m) := by
  rw [map_eq_pure_bind]
  exact .seq hm fun a => .value (h a)

theorem composed_ofGraph (x : Except GraphError α) : Composed N (ofGraph x) := by
  cases x with
  | ok a => exact .value a
  | error e => exact .error _ rfl

theorem composed_attempt_seq {x : Except CompileError α}
    (hx : ∀ e, x = .error e → e.isGenerated = true) (hf : ∀ a, x = .ok a → Composed N (f a)) :
    Composed N (attempt x >>= f) := by
  cases x with
  | ok a =>
    change Composed N (pure a >>= f)
    rw [pure_bind]
    exact hf a rfl
  | error e =>
    change Composed N (throw e)
    exact .error e (hx e rfl)

theorem composed_mapM {xs : List α} (h : ∀ x, Composed N (f x)) : Composed N (xs.mapM f) := by
  induction xs with
  | nil => exact .value []
  | cons x xs ih =>
    rw [List.mapM_cons]
    exact .seq (h x) fun y => .seq ih fun ys => .value _

theorem composed_when_seq {c : Prop} [Decidable c] {m : Generation PUnit} {f : PUnit → Generation β}
    (hm : Composed N m) (hf : Composed N (f ⟨⟩)) : Composed N (if c then m >>= f else f ⟨⟩) := by
  split
  · exact .seq hm fun _ => hf
  · exact hf

theorem composed_ite_seq {c : Prop} [Decidable c] {m' : Generation α} (hm : Composed N m)
    (hm' : Composed N m') (hf : ∀ a, Composed N (f a)) :
    Composed N (if c then m >>= f else m' >>= f) := by
  split
  · exact .seq hm hf
  · exact .seq hm' hf

end Generation

namespace Site

open Generation

variable {s : Site} {resolve : Resolve} {next : Follow} {n : NodeId}

/-! ## Values -/

/-- What a request enters is no cut. -/
theorem quiet_request {h : Handle} {x : Note} (hx : s.request n h = .ok x) : s.Quiet x := by
  unfold request at hx
  cases hmethod : s.scope.method? with
  | none =>
    simp only [hmethod] at hx
    split at hx
    · obtain rfl := Except.ok.inj hx
      exact ⟨rfl, rfl⟩
    · cases hx
  | some method =>
    simp only [hmethod] at hx
    obtain rfl := Except.ok.inj hx
    split
    · rename_i hflavor
      exact ⟨rfl, hmethod, hflavor, rfl⟩
    · rename_i hflavor
      exact ⟨rfl, hmethod, hflavor⟩

theorem composed_handle (n : NodeId) (h : Handle) : Composed s.Quiet (s.handle n h) := by
  refine composed_attempt_seq (fun e he => (request_eq_error he).1 ▸ rfl) fun x hx => ?_
  exact .seq (.noted x (quiet_request hx)) fun _ => .value _

theorem composed_memberName (m : MemberId) : Composed s.Quiet (s.memberName m) := by
  unfold memberName
  split
  · exact .value _
  · exact .error _ rfl

section Values

variable (hresolve : ∀ access output, Composed s.Quiet (resolve access output))

include hresolve

theorem composed_inputWith (access : Access) (input : PortRef) :
    Composed s.Quiet (s.inputWith resolve access input) := by
  unfold inputWith
  split
  · exact .value _
  · split
    · exact .value _
    · split
      · exact hresolve _ _
      · exact .seq (composed_report _ ⟨rfl, trivial⟩) fun _ => .value _

theorem composed_readWith (n : NodeId) (port : String) :
    Composed s.Quiet (s.readWith resolve n port) :=
  .seq (composed_ofGraph _) fun input => composed_inputWith hresolve _ input

theorem composed_argumentsWith (n : NodeId) (params : List String) :
    Composed s.Quiet (s.argumentsWith resolve n params) :=
  composed_mapM fun param => composed_readWith hresolve n param

theorem composed_receiverWith (n : NodeId) (e : External) (access : Access) :
    Composed s.Quiet (s.receiverWith resolve n e access) := by
  unfold receiverWith
  split
  · refine .seq (composed_ofGraph _) fun input => ?_
    exact .seq (composed_inputWith hresolve access input) fun _ => .value _
  · exact .value _

theorem composed_memberWith (n : NodeId) (target : MemberTarget) (access : Access) :
    Composed s.Quiet (s.memberWith resolve n target access) := by
  have hmember : ∀ m, Composed s.Quiet (do
      let name ← s.memberName m
      return Expr.member m (s.qualifier? m) name) :=
    fun m => .seq (composed_memberName m) fun _ => .value _
  unfold memberWith
  cases target with
  | «variable» m => exact hmember m
  | property m => exact hmember m
  | function m =>
    refine .seq (composed_memberName m) fun name => ?_
    exact .seq (composed_argumentsWith hresolve n _) fun _ => .value _
  | external e =>
    refine .seq (composed_receiverWith hresolve n e access) fun receiver => ?_
    split
    · exact .value _
    · exact .value _
    · exact .seq (composed_argumentsWith hresolve n _) fun _ => .value _

theorem composed_componentWith (n : NodeId) (component : Option TypeRef) :
    Composed s.Quiet (s.componentWith resolve n component) := by
  refine .seq (composed_readWith hresolve n _) fun entity => ?_
  split
  · exact .value _
  · exact .seq (composed_handle n _) fun _ => .value _

theorem composed_computeWith (access : Access) (output : PortRef) :
    Composed s.Quiet (s.computeWith resolve access output) := by
  refine .seq (composed_ofGraph _) fun node => ?_
  split
  · exact .value _
  · refine .seq (composed_readWith hresolve _ _) fun left => ?_
    exact .seq (composed_readWith hresolve _ _) fun _ => .value _
  · exact composed_memberWith hresolve _ _ _
  · exact composed_componentWith hresolve _ _
  · exact .seq (composed_report _ ⟨rfl, trivial⟩) fun _ => .value _

end Values

/-- Whatever the fuel, the code of a value notes nothing but requests for handles. -/
theorem composed_valueWithin (fuel : ℕ) (access : Access) (output : PortRef) :
    Composed s.Quiet (s.valueWithin fuel access output) := by
  induction fuel generalizing access output with
  | zero => exact .error _ rfl
  | succ fuel ih =>
    rw [valueWithin]
    split
    · exact .value _
    · exact composed_computeWith ih access output

theorem composed_value (access : Access) (output : PortRef) :
    Composed s.Quiet (s.value access output) :=
  composed_valueWithin _ access output

theorem composed_read (n : NodeId) (port : String) : Composed s.Quiet (s.read n port) :=
  composed_readWith composed_value n port

theorem composed_target (n : NodeId) (port : String) : Composed s.Quiet (s.target n port) :=
  .seq (composed_ofGraph _) fun input => composed_inputWith composed_value _ input

theorem composed_readOptional (n : NodeId) (port : String) :
    Composed s.Quiet (s.readOptional n port) := by
  unfold readOptional
  split
  · exact .value _
  · split
    · exact .value _
    · exact composed_map _ (composed_inputWith composed_value _ _)

/-! ## Statements -/

theorem composed_localStatement (n : NodeId) (type : TypeRef) :
    Composed s.Quiet (s.localStatement n type) := by
  refine .seq (composed_ofGraph _) fun out => ?_
  split
  · exact .error _ rfl
  · exact .seq (composed_readOptional n _) fun _ => .value _

theorem composed_bufferCall (n : NodeId) (method : String) (generics : List String)
    (args : List Expr) : Composed s.Quiet (s.bufferCall n method generics args) := by
  unfold bufferCall
  split
  · exact .value _
  · exact .seq (composed_handle n _) fun _ => .value _

theorem composed_createStatement (n : NodeId) : Composed s.Quiet (s.createStatement n) := by
  refine .seq (composed_ofGraph _) fun port => ?_
  exact .seq (composed_bufferCall n _ _ _) fun _ => .value _

theorem composed_destroyStatement (n : NodeId) : Composed s.Quiet (s.destroyStatement n) := by
  refine .seq (composed_read n _) fun entity => ?_
  exact .seq (composed_bufferCall n _ _ _) fun _ => .value _

theorem composed_setComponentStatement (n : NodeId) :
    Composed s.Quiet (s.setComponentStatement n) := by
  refine .seq (composed_read n _) fun entity => .seq (composed_read n _) fun value => ?_
  exact .seq (composed_bufferCall n _ _ _) fun _ => .value _

theorem composed_setEnabledStatement (n : NodeId) (component : Option TypeRef) :
    Composed s.Quiet (s.setEnabledStatement n component) := by
  refine .seq (composed_read n _) fun entity => .seq (composed_read n _) fun value => ?_
  exact .seq (composed_bufferCall n _ _ _) fun _ => .value _

theorem composed_fieldValue (executor : Option NodeId) (vars : List JobVariable)
    (source : CaptureSource) : Composed s.Quiet (s.fieldValue executor vars source) := by
  unfold fieldValue
  split
  · exact composed_map _ (composed_value _ _)
  · exact .value _
  · split
    · exact composed_readOptional _ _
    · exact .value _

theorem composed_constructionFields (j : Job) (executor : Option NodeId) :
    Composed s.Quiet (s.constructionFields j executor) := by
  refine .seq (composed_ofGraph _) fun node => ?_
  refine .seq (composed_mapM fun f => ?_) fun _ => .value _
  exact .seq (composed_fieldValue _ _ _) fun _ => .value _

theorem composed_scheduleLoop (n : NodeId) (spec : ForeachSpec) :
    Composed s.Quiet (s.scheduleLoop n spec) := by
  unfold scheduleLoop
  split
  · exact .value _
  · exact .seq (composed_constructionFields _ _) fun _ => .value _

theorem composed_execute (n : NodeId) (runWith : Discipline) (j : Job) :
    Composed s.Quiet (s.execute n runWith j) := by
  refine .seq (composed_readOptional n _) fun query => ?_
  refine composed_when_seq (composed_report _ ⟨rfl, trivial⟩) ?_
  refine .seq (composed_constructionFields _ _) fun fields => ?_
  refine composed_ite_seq (composed_readOptional _ _) (.value _) fun dependsOn => ?_
  refine composed_ite_seq (composed_readOptional _ _) (.value _) fun baseIndices => ?_
  exact .seq (composed_ofGraph _) fun handle => .value _

/-! ## Flow -/

theorem composed_loopName? {N : Note → Prop} (n : NodeId) (name : String) :
    Composed N (s.loopName? n name) :=
  .seq (composed_ofGraph _) fun _ => .value _

theorem composed_inlineLoop {N : Note → Prop} (hN : ∀ x, s.Quiet x → N x)
    (hfollow : ∀ name, Composed N (s.followWith next n name)) (spec : ForeachSpec) :
    Composed N (s.inlineLoop next n spec) := by
  refine .seq (composed_mapM fun i => (composed_read n _).mono hN) fun shared => ?_
  refine .seq (composed_mapM fun item => composed_loopName? n _) fun items => ?_
  refine composed_ite_seq (composed_loopName? n _) (.value _) fun entity => ?_
  exact .seq (hfollow _) fun body => .value _

theorem composed_statementsWith {N : Note → Prop} (hN : ∀ x, s.Quiet x → N x)
    (hfollow : ∀ name, Composed N (s.followWith next n name)) :
    Composed N (s.statementsWith next n) := by
  have hexit : ∀ ss, Composed N (s.thenExit next n ss) := fun ss => composed_map _ (hfollow _)
  have hsingle : ∀ m : Generation Stmt, Composed s.Quiet m →
      Composed N (m >>= fun x => s.thenExit next n [x]) :=
    fun m hm => .seq (hm.mono hN) fun x => hexit [x]
  refine .seq (composed_ofGraph _) fun node => ?_
  cases node.kind with
  | ret => exact .seq ((composed_readOptional n _).mono hN) fun _ => .value _
  | setValue =>
    refine .seq ((composed_target n _).mono hN) fun target => ?_
    exact .seq ((composed_read n _).mono hN) fun value => hexit _
  | branch =>
    refine .seq ((composed_read n _).mono hN) fun condition => ?_
    exact .seq (hfollow _) fun onTrue => .seq (hfollow _) fun onFalse => hexit _
  | localVar name type => exact hsingle _ (composed_localStatement n type)
  | member target =>
    exact .seq ((composed_memberWith composed_value n target _).mono hN) fun call => hexit _
  | «foreach» spec =>
    dsimp only
    split
    · exact .seq ((composed_scheduleLoop n spec).mono hN) fun _ => hexit _
    · exact .seq (composed_inlineLoop hN hfollow spec) fun _ => hexit _
  | executor runWith job =>
    dsimp only
    split
    · exact .seq ((composed_execute n runWith _).mono hN) fun _ => hexit _
    · exact hexit _
  | createEntity => exact hsingle _ (composed_createStatement n)
  | destroyEntity => exact hsingle _ (composed_destroyStatement n)
  | setComponent _ => exact hsingle _ (composed_setComponentStatement n)
  | setComponentEnabled component => exact hsingle _ (composed_setEnabledStatement n component)
  | event _ | functionEntry _ | literal _ | operator _ _ | jobEntity _ | jobChunk _
  | getComponent _ =>
    exact .value _

theorem composed_targets {N : Note → Prop} {step : NodeId → Generation (List Stmt)}
    (hstep : ∀ n, Composed N (step n)) (output : PortRef) : Composed N (do
      let parts ← (s.graph.targetsOf output).mapM fun t => step t.node
      return parts.flatten) :=
  .seq (composed_mapM fun t => hstep t.node) fun _ => .value _

/-- By induction on the fuel: a node that is on the path is reported, and any other is generated
from what goes on from it. -/
theorem composed_nodeFlowWithin (fuel : ℕ) (path : List NodeId) (n : NodeId) :
    Composed s.Enters (s.nodeFlowWithin fuel path n) := by
  induction fuel generalizing path n with
  | zero => exact .value _
  | succ fuel ih =>
    rw [nodeFlowWithin]
    split
    · exact .seq (composed_report n trivial) fun _ => .value _
    · refine .seq (composed_statementsWith (fun _ hx => hx.2) fun name => ?_) fun ss => .value _
      exact .seq (composed_ofGraph _) fun output => composed_targets (ih (n :: path)) output

/-- Code that follows a flow output notes requests and cuts. -/
theorem composed_flow (output : PortRef) : Composed s.Enters (s.flow output) :=
  composed_targets (fun n => composed_nodeFlowWithin _ _ n) output

theorem composed_follow (n : NodeId) (name : String) :
    Composed s.Enters (s.follow n name) :=
  .seq (composed_ofGraph _) fun output => composed_flow output

end Site

/-! ## Drafts -/

namespace Draft

open Generation Naming

variable (g : Graph) (p : Plan)

/-- Finding the name of a function fails with an error of generation. -/
theorem isGenerated_of_functionName {t : SymbolTable} {f : MemberId} {e : CompileError}
    (he : functionName g t f = .error e) : e.isGenerated = true := by
  rcases functionName_eq_error he with ⟨rfl, -⟩ | ⟨rfl, -⟩ <;> rfl

theorem composed_entryBody (n : NodeId) : Composed (Ledger.Fits g p) (entryBody g p n) := by
  refine .seq (composed_ofGraph _) fun node => ?_
  split
  · refine .seq ((Site.composed_follow (s := ⟨g, p, .unit⟩) n _).mono fun x hx => hx.fits nofun)
      fun body => ?_
    split
    · exact .value _
    · exact .error _ rfl
  · split
    · refine composed_attempt_seq (fun e => isGenerated_of_functionName g) fun method hmethod => ?_
      refine .seq ((Site.composed_follow (s := ⟨g, p, .function method⟩) n _).mono fun x hx =>
        hx.fits ?_) fun body => ?_
      · rintro _ ⟨⟩
        exact mem_functionNames.2 ⟨_, hmethod⟩
      · split
        · exact .value _
        · exact .error _ rfl
    · exact .value _
  · exact .value _

theorem composed_jobBody (n : NodeId) : Composed (Ledger.Fits g p) (jobBody g p n) := by
  unfold jobBody
  split
  · rename_i j _
    refine .seq ((Site.composed_flow (s := ⟨g, p, .job j.node⟩) _).mono fun x hx => hx.fits nofun)
      fun execute => ?_
    refine .seq (composed_mapM fun f => ?_) fun functions => .value _
    refine composed_attempt_seq (fun e => isGenerated_of_functionName g) fun _ _ => ?_
    split
    · refine composed_map _ ((Site.composed_follow (s := ⟨g, p, .job j.node⟩) _ _).mono ?_)
      exact fun x hx => hx.fits nofun
    · exact .value _
  · exact .error _ rfl

theorem composed_jobBody? (n : NodeId) : Composed (Ledger.Fits g p) (jobBody? g p n) := by
  refine .caught (composed_map _ (composed_jobBody g p n)) fun e he => ?_
  split
  · exact .seq (composed_report _ trivial) fun _ => .value _
  · exact .error e he

/-- Drafts are made by steps of generation alone. -/
theorem composed_generate : Composed (Ledger.Fits g p) (generate g p) := by
  refine .seq (composed_mapM fun n => composed_entryBody g p n) fun bodies => ?_
  exact .seq (composed_mapM fun b => composed_jobBody? g p b.node) fun jobs => .value _

end Draft

end EntityFlow
