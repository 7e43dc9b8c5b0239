import EntityFlow.Proofs.Generation.Runs
import EntityFlow.Proofs.Graph.Layouts
import EntityFlow.Proofs.Planning.Jobs

/-!
# The forms of generated code

Generation walks through the graph and puts code together as it goes.  Much of what is asked of the
code is not a matter of the walk but of the forms that it puts together, and of what was noted on
the way.  `Makes` and `Emits` list these forms with the conditions under which they arise, and
`noted_flow` says that the walk makes no others.  What holds of every form then holds of all code.
-/

namespace EntityFlow

/-! ## What code is made from -/

/-- A method of the command buffer: its name, its type arguments, and the inputs it takes. -/
structure BufferMethod where
  name : String
  generics : List String
  inputs : List String
deriving DecidableEq, Repr

/-- What a node that writes to entities calls. -/
def NodeKind.bufferMethod? : NodeKind → Option BufferMethod
  | .createEntity => some ⟨"CreateEntity", [], []⟩
  | .destroyEntity => some ⟨"DestroyEntity", [], [PortName.entity]⟩
  | .setComponent _ => some ⟨"SetComponent", [], [PortName.entity, PortName.component]⟩
  | .setComponentEnabled c =>
      some ⟨"SetComponentEnabled", [TypeRef.nameOrObject c], [PortName.entity, PortName.value]⟩
  | _ => none

/-- Nodes whose outputs are computed where they are read. -/
def NodeKind.isComputed : NodeKind → Bool
  | .literal _ | .operator _ _ | .member _ | .getComponent _ => true
  | _ => false

/-- The node constructs the job and runs it in that way.  A loop does so with its own job, and only
an executor gives a job its variables. -/
inductive Plan.Constructs (p : Plan) (g : Graph) (n : NodeId) (j : Job) :
    Option NodeId → Discipline → Prop
  | loop {spec : ForeachSpec} (hn : g.kind? n = some (.foreach spec)) (hrun : spec.run.isDeferred)
      (hj : p.job? n = some j) : Constructs p g n j none spec.run
  | executor {runWith : Discipline} {job : NodeId}
      (hn : g.kind? n = some (.executor runWith (some job))) (hj : p.job? job = some j) :
      Constructs p g n j (some n) runWith

/-- A job that is constructed is one of the plan. -/
theorem Plan.Constructs.mem_jobs {p : Plan} {g : Graph} {n : NodeId} {j : Job}
    {executor : Option NodeId}
    {runWith : Discipline} (h : p.Constructs g n j executor runWith) : j ∈ p.jobs := by
  cases h with
  | loop hn hrun hj => exact List.mem_of_find?_eq_some hj
  | executor hn hj => exact List.mem_of_find?_eq_some hj

namespace Site

open Generation

/-- Why a placeholder stands for a port of that name. -/
inductive Gap (s : Site) (N : Ledger) : String → Prop
  /-- The input cannot be read in a job. -/
  | unavailable (input : PortRef) (h : s.isUnavailable input = true) :
      Gap s N (s.graph.portLabel input)
  /-- Nothing feeds the input, which was noted at its node. -/
  | unconnected (input : PortRef) (h : s.graph.sourceOf? input = none)
      (hN : .atNode input.node (.unresolvedValue (s.graph.portLabel input)) ∈ N.diagnostics) :
      Gap s N (s.graph.portLabel input)
  /-- The output reads as nothing, which was noted at its node. -/
  | missing (output : PortRef) (hbinding : s.plan.binding? output = none)
      (hkind : ∀ kind, s.graph.kind? output.node = some kind → kind.isComputed = false)
      (hN : .atNode output.node (.unresolvedValue (s.graph.portLabel output)) ∈ N.diagnostics) :
      Gap s N (s.graph.portLabel output)

/-- The node has an input of that name, and something feeds it. -/
def Feeds (s : Site) (n : NodeId) (name : String) (input : PortRef) : Prop :=
  s.graph.portRef? n name = some input ∧
    ((s.graph.sourceOf? input).isSome ∨ (s.redirect? input).isSome)

/-! ## Forms -/

/-- Expressions that are made at the site, if all that is noted is in `N`. -/
inductive Makes (s : Site) (N : Ledger) : Expr → Prop
  | ident (text : String) : Makes s N (.ident text)
  | literal (value : Literal) : Makes s N (.literal value)
  /-- The field that an input is redirected to. -/
  | captured {input : PortRef} {field : String} (h : s.redirect? input = some field) :
      Makes s N (.capture field)
  | gap {port : String} (h : s.Gap N port) : Makes s N (.unresolved port)
  | handle {n : NodeId} {h : Handle} (hN : N.Asks s.scope.method? h) :
      Makes s N (.handle h (s.plan.handleName h) (.node n))
  | bound {output : PortRef} {b : Binding} {e : Expr} (access : Access)
      (hb : s.plan.binding? output = some b) (he : b.expr access = e) : Makes s N e
  | member {m : MemberId} {name : String} (hname : s.plan.symbols.get? (.member m) = some name) :
      Makes s N (.member m (s.qualifier? m) name)
  | binary (op : BinaryOp) {left right : Expr} (hleft : Makes s N left)
      (hright : Makes s N right) : Makes s N (.binary op left right)
  /-- An argument for each parameter, and the sort key if the job has a copy of the function. -/
  | call {n : NodeId} {m : MemberId} {name : String} {args : List Expr}
      (hn : s.graph.kind? n = some (.member (.function m)))
      (hname : s.plan.symbols.get? (.member m) = some name)
      (hlength : args.length = (s.functionParams m).length) (hargs : ∀ e ∈ args, Makes s N e) :
      Makes s N (.call m (s.qualifier? m) name
        (args ++ (s.forwardedSortKey? m).toList.map Expr.ident))
  | access (name : String) {target : Expr} (h : Makes s N target) : Makes s N (.access target name)
  | invoke (method : String) (generics : List String) {args : List Expr}
      (hargs : ∀ e ∈ args, Makes s N e) : Makes s N (.invoke method generics args)
  | invokeOn (method : String) (generics : List String) {target : Expr} {args : List Expr}
      (h : Makes s N target) (hargs : ∀ e ∈ args, Makes s N e) :
      Makes s N (.invokeOn target method generics args)
  /-- A component, through the lookup of the job. -/
  | lookup {type : String} {f : CaptureField} {entity : Expr}
      (hf : s.field? (.lookup type) = some f) (h : Makes s N entity) :
      Makes s N (.index (.capture f.name) entity)
  /-- A write to entities, through the command buffer of the job. -/
  | write {n : NodeId} {kind : NodeKind} {method : BufferMethod} {f : CaptureField}
      {args : List Expr} (hkind : s.graph.kind? n = some kind)
      (hmethod : kind.bufferMethod? = some method) (hf : s.field? .commandBuffer = some f)
      (hlength : args.length = method.inputs.length) (hargs : ∀ e ∈ args, Makes s N e) :
      Makes s N (.invokeOn (.capture f.name) method.name method.generics
        (s.sortKey?.toList.map Expr.ident ++ args))

/-- What a field is set to where its job is constructed.  A variable is set by an executor that has
an input for it, if something feeds the input. -/
inductive Given (s : Site) (N : Ledger) (executor : Option NodeId) (vars : List JobVariable)
    (f : CaptureField) : Expr → Prop
  | captured {source : PortRef} {e : Expr} (hsource : f.source = .port source)
      (he : s.Makes N e) : Given s N executor vars f e
  | copied {e : Expr} (hsource : f.source = .expression e) : Given s N executor vars f e
  | fed {i : Nat} {v : JobVariable} {n : NodeId} {input : PortRef} {e : Expr}
      (hsource : f.source = .jobVariable i) (hv : vars[i]? = some v) (hn : executor = some n)
      (hinput : s.Feeds n v.name input) (he : s.Makes N e) : Given s N executor vars f e

/-- Fields of a job and what some of them are set to, in the same order. -/
inductive Initializes (s : Site) (N : Ledger) (executor : Option NodeId)
    (vars : List JobVariable) : List CaptureField → List (String × Expr) → Prop
  | nil : Initializes s N executor vars [] []
  | set {f : CaptureField} {e : Expr} {fs : List CaptureField} {xs : List (String × Expr)}
      (h : s.Given N executor vars f e) (hrest : Initializes s N executor vars fs xs) :
      Initializes s N executor vars (f :: fs) ((f.name, e) :: xs)
  /-- A variable is left out if nothing feeds an input for it. -/
  | skip {f : CaptureField} {i : Nat} {fs : List CaptureField} {xs : List (String × Expr)}
      (hsource : f.source = .jobVariable i)
      (hunfed : ∀ v n input, vars[i]? = some v → executor = some n → ¬s.Feeds n v.name input)
      (hrest : Initializes s N executor vars fs xs) : Initializes s N executor vars (f :: fs) xs

/-- Statements that are made at the site, if all that is noted is in `N`. -/
inductive Emits (s : Site) (N : Ledger) : List Stmt → Prop
  | nil : Emits s N []
  | append {ss ts : List Stmt} (hss : Emits s N ss) (hts : Emits s N ts) : Emits s N (ss ++ ts)
  | declare (type : Option String) (name : String) {value : Expr} (h : s.Makes N value) :
      Emits s N [.declare type name value]
  | assign {target value : Expr} (htarget : s.Makes N target) (hvalue : s.Makes N value) :
      Emits s N [.assign target value]
  | eval {e : Expr} (h : s.Makes N e) : Emits s N [.eval e]
  | ret {value : Option Expr} (h : ∀ e ∈ value, s.Makes N e) : Emits s N [.ret value]
  | branch {condition : Expr} {onTrue onFalse : List Stmt} (hcondition : s.Makes N condition)
      (htrue : Emits s N onTrue) (hfalse : Emits s N onFalse) :
      Emits s N [.branch condition onTrue onFalse]
  | loop (binding : String) {query : Expr} {body : List Stmt} (hquery : s.Makes N query)
      (hbody : Emits s N body) : Emits s N [.loop binding query body]
  /-- A job is constructed and run, in a statement of its own if nothing holds its handle. -/
  | run {n : NodeId} {j : Job} {executor : Option NodeId} {runWith : Discipline} {args : List Expr}
      {fields : List (String × Expr)} {run : Stmt}
        (hj : s.plan.Constructs s.graph n j executor runWith)
      (hfields : s.Initializes N executor (s.graph.jobVariables j.node) j.fields fields)
      (hargs : ∀ e ∈ args, s.Makes N e)
      (hrun : run = .eval (runJob (s.jobLocal n j) runWith args) ∨
        ∃ handle, run = .declare none handle (runJob (s.jobLocal n j) runWith args)) :
      Emits s N [.construct j.node (s.jobLocal n j) j.typeName fields, run]
  | ofNode (n : NodeId) {body : List Stmt} (h : Emits s N body) : Emits s N [.ofNode n body]

theorem makes_runJob {s : Site} {N : Ledger} (name : String) (runWith : Discipline)
    {args : List Expr} (hargs : ∀ e ∈ args, s.Makes N e) : s.Makes N (runJob name runWith args) :=
  .invokeOn _ _ (.ident name) hargs

/-- Statements that are made part after part are made as a whole. -/
theorem Emits.flatten {s : Site} {N : Ledger} {parts : List (List Stmt)}
    (h : ∀ part ∈ parts, s.Emits N part) : s.Emits N parts.flatten := by
  induction parts with
  | nil => exact .nil
  | cons part rest ih =>
    rw [List.flatten_cons]
    exact .append (h part List.mem_cons_self) (ih fun x hx => h x (List.mem_cons_of_mem part hx))

/-! ## The walk -/

section Walk

variable {s : Site} {N : Ledger} {resolve : Resolve} {next : Follow} {n : NodeId} {node : Node}

/-- A request is entered where it is made. -/
theorem asks_of_request {h : Handle} {x : Note} (hx : s.request n h = .ok x) :
    x.Asks s.scope.method? h := by
  unfold request at hx
  cases hmethod : s.scope.method? with
  | none =>
    simp only [hmethod] at hx
    split at hx
    · obtain rfl := Except.ok.inj hx
      exact ⟨rfl, rfl⟩
    · cases hx
  | some method =>
    simp only [hmethod] at hx
    obtain rfl := Except.ok.inj hx
    split
    · exact ⟨rfl, rfl⟩
    · exact ⟨rfl, rfl⟩

/-- A request for a handle is answered with the handle, and noted. -/
theorem noted_handle (n : NodeId) (h : Handle) : Noted N (s.handle n h) (s.Makes N) := by
  refine noted_attempt_bind fun x hx => ?_
  refine noted_bind (noted_note x) fun _ => noted_pure fun hshown => ?_
  exact .handle (hshown.asks _ _ (asks_of_request hx))

theorem noted_memberName (m : MemberId) :
    Noted N (s.memberName m) fun name => s.plan.symbols.get? (.member m) = some name := by
  unfold memberName
  split
  · exact noted_pure ‹_›
  · exact noted_throw

/-! ### Values -/

section Values

variable (hresolve : ∀ access output, Noted N (resolve access output) (s.Makes N))

include hresolve

theorem noted_inputWith (access : Access) (input : PortRef) :
    Noted N (s.inputWith resolve access input) (s.Makes N) := by
  unfold inputWith
  split
  · exact noted_pure (.captured ‹_›)
  · split
    · rename_i hunavailable
      exact noted_pure (.gap (.unavailable input hunavailable))
    · split
      · exact hresolve _ _
      · rename_i hsource
        refine noted_bind (noted_report _ _) fun _ => noted_pure fun hN => ?_
        exact .gap (.unconnected input hsource hN)

theorem noted_readWith (n : NodeId) (port : String) :
    Noted N (s.readWith resolve n port) (s.Makes N) :=
  noted_ofGraph_then fun input => noted_inputWith hresolve _ input

theorem noted_argumentsWith (n : NodeId) (params : List String) :
    Noted N (s.argumentsWith resolve n params) fun args =>
      args.length = params.length ∧ ∀ e ∈ args, s.Makes N e :=
  noted_mapM_length fun param _ => noted_readWith hresolve n param

theorem noted_receiverWith (n : NodeId) (e : External) (access : Access) :
    Noted N (s.receiverWith resolve n e access) fun o => ∀ x ∈ o, s.Makes N x := by
  unfold receiverWith
  split
  · refine noted_ofGraph_then fun input => ?_
    exact noted_bind (noted_inputWith hresolve access input) fun x => noted_pure (by simp)
  · refine noted_pure fun x hx => ?_
    obtain ⟨owner, -, rfl⟩ := Option.map_eq_some_iff.1 hx
    exact .ident _

/-- The code of a member is made by the rule for its kind. -/
theorem noted_memberWith {target : MemberTarget} (hn : s.graph.kind? n = some (.member target))
    (access : Access) : Noted N (s.memberWith resolve n target access) (s.Makes N) := by
  have hmember : ∀ m, Noted N (do
      let name ← s.memberName m
      return Expr.member m (s.qualifier? m) name) (s.Makes N) :=
    fun m => noted_bind (noted_memberName m) fun name => noted_pure .member
  unfold memberWith
  cases target with
  | «variable» m => exact hmember m
  | property m => exact hmember m
  | function m =>
    refine noted_bind (noted_memberName m) fun name => ?_
    refine noted_bind (noted_argumentsWith hresolve n _) fun args => noted_pure ?_
    rintro ⟨hlength, hargs⟩ hname
    exact .call hn hname hlength hargs
  | external e =>
    refine noted_bind (noted_receiverWith hresolve n e access) fun receiver => ?_
    have hargs := noted_argumentsWith (N := N) hresolve n
    cases receiver with
    | none =>
      dsimp only
      split
      · exact noted_pure fun _ => .ident _
      · exact noted_pure fun _ => .ident _
      · exact noted_bind (hargs _) fun args => noted_pure fun h _ => .invoke _ _ h.2
    | some target =>
      have haccess : (∀ x ∈ some target, s.Makes N x) → s.Makes N (.access target e.name) :=
        fun hreceiver => .access _ (hreceiver target rfl)
      dsimp only
      split
      · exact noted_pure haccess
      · exact noted_pure haccess
      · refine noted_bind (hargs _) fun args => noted_pure fun h hreceiver => ?_
        exact .invokeOn _ _ (hreceiver target rfl) h.2

theorem noted_componentWith (n : NodeId) (component : Option TypeRef) :
    Noted N (s.componentWith resolve n component) (s.Makes N) := by
  refine noted_bind (noted_readWith hresolve n _) fun entity => ?_
  split
  · exact noted_pure (.lookup ‹_›)
  · refine noted_bind (noted_handle n _) fun manager => noted_pure ?_
    intro hmanager hentity
    exact .invokeOn _ _ hmanager (List.forall_mem_singleton.2 hentity)

/-- The code of an output that has no binding is made by the rule for its node. -/
theorem noted_computeWith (access : Access) {output : PortRef}
    (hbinding : s.plan.binding? output = none) :
    Noted N (s.computeWith resolve access output) (s.Makes N) := by
  refine noted_ofGraph_bind fun node hnode => ?_
  have hn : s.graph.kind? output.node = some node.kind := by
    simp [Graph.kind?, Graph.node_eq_ok.1 hnode]
  split
  · exact noted_pure (.literal _)
  · refine noted_bind (noted_readWith hresolve _ _) fun left => ?_
    refine noted_bind (noted_readWith hresolve _ _) fun right => noted_pure ?_
    intro hright hleft
    exact .binary _ hleft hright
  · rename_i target hkind
    exact noted_memberWith hresolve (hkind ▸ hn) access
  · exact noted_componentWith hresolve _ _
  · rename_i hliteral hoperator hmember hcomponent
    refine noted_bind (noted_report _ _) fun _ => noted_pure fun hN => ?_
    refine .gap (.missing output hbinding (fun kind hkind => ?_) hN)
    obtain rfl := Option.some.inj (hn.symm.trans hkind)
    unfold NodeKind.isComputed
    split
    · exact absurd ‹_› (hliteral _)
    · exact absurd ‹_› (hoperator _ _)
    · exact absurd ‹_› (hmember _)
    · exact absurd ‹_› (hcomponent _)
    · rfl

end Values

/-- By induction on the fuel: a value is a binding, or is computed from values with less fuel. -/
theorem noted_valueWithin (fuel : Nat) (access : Access) (output : PortRef) :
    Noted N (s.valueWithin fuel access output) (s.Makes N) := by
  induction fuel generalizing access output with
  | zero => exact noted_throw
  | succ fuel ih =>
    unfold valueWithin
    split
    · rename_i b hb
      exact noted_pure (.bound access hb rfl)
    · rename_i hb
      exact noted_computeWith ih access hb

/-- Every value is made by the rules. -/
theorem noted_value (access : Access) (output : PortRef) :
    Noted N (s.value access output) (s.Makes N) := noted_valueWithin _ access output

theorem noted_read (n : NodeId) (port : String) : Noted N (s.read n port) (s.Makes N) :=
  noted_readWith noted_value n port

theorem noted_target (n : NodeId) (port : String) : Noted N (s.target n port) (s.Makes N) :=
  noted_ofGraph_then fun input => noted_inputWith noted_value _ input

/-- What is read from an input that may not be there. -/
theorem noted_readOptional (n : NodeId) (port : String) :
    Noted N (s.readOptional n port) fun o => (∀ x ∈ o, s.Makes N x) ∧
      (o.isSome ↔ ∃ input, s.Feeds n port input) := by
  unfold readOptional
  split
  · rename_i hport
    exact noted_pure (by simp [Feeds, hport])
  · rename_i input hport
    split
    · rename_i hunfed
      refine noted_pure ⟨nofun, iff_of_false nofun ?_⟩
      rintro ⟨input', hport', hfed⟩
      obtain rfl := Option.some.inj (hport.symm.trans hport')
      simp only [Bool.and_eq_true, Option.isNone_iff_eq_none] at hunfed
      simp [hunfed] at hfed
    · rename_i hfed
      refine noted_map (noted_inputWith noted_value _ _) fun x hx => ⟨by simpa using hx, ?_⟩
      refine iff_of_true rfl ⟨input, hport, ?_⟩
      simpa [← Option.isSome_iff_ne_none, imp_iff_not_or] using hfed

theorem noted_optional (n : NodeId) (port : String) :
    Noted N (s.readOptional n port) fun o => ∀ x ∈ o.toList, s.Makes N x :=
  (noted_readOptional n port).imp fun o ho => by simpa using ho.1

/-! ### Statements -/

theorem noted_localStatement (n : NodeId) (type : TypeRef) :
    Noted N (s.localStatement n type) fun x => s.Emits N [x] := by
  refine noted_ofGraph_then fun out => ?_
  split
  · exact noted_throw
  · refine noted_bind (noted_readOptional n _) fun value => noted_pure ?_
    rintro ⟨hvalue, -⟩
    cases value with
    | none => exact .declare _ _ (.ident _)
    | some value => exact .declare _ _ (hvalue value rfl)

/-- A call of the command buffer takes one argument for each input of its node. -/
theorem noted_bufferCall {kind : NodeKind} {method : BufferMethod}
    (hn : s.graph.kind? n = some kind)
    (hmethod : kind.bufferMethod? = some method) {args : List Expr} :
    Noted N (s.bufferCall n method.name method.generics args) fun x =>
      args.length = method.inputs.length → (∀ e ∈ args, s.Makes N e) → s.Makes N x := by
  unfold bufferCall
  split
  · rename_i f hf
    exact noted_pure (.write hn hmethod hf)
  · refine noted_bind (noted_handle n _) fun buffer => noted_pure ?_
    intro hbuffer _ hargs
    exact .invokeOn _ _ hbuffer hargs

theorem noted_createStatement (hn : s.graph.kind? n = some .createEntity) :
    Noted N (s.createStatement n) fun x => s.Emits N [x] := by
  refine noted_ofGraph_then fun port => ?_
  refine noted_bind (noted_bufferCall hn rfl) fun call => noted_pure fun hcall => ?_
  exact .declare _ _ (hcall rfl nofun)

theorem noted_destroyStatement (hn : s.graph.kind? n = some .destroyEntity) :
    Noted N (s.destroyStatement n) fun x => s.Emits N [x] := by
  refine noted_bind (noted_read n _) fun entity => ?_
  refine noted_bind (noted_bufferCall hn rfl) fun call => noted_pure ?_
  intro hcall hentity
  exact .eval (hcall rfl (List.forall_mem_singleton.2 hentity))

theorem noted_setComponentStatement {c : Option TypeRef}
    (hn : s.graph.kind? n = some (.setComponent c)) :
    Noted N (s.setComponentStatement n) fun x => s.Emits N [x] := by
  refine noted_bind (noted_read n _) fun entity => ?_
  refine noted_bind (noted_read n _) fun value => ?_
  refine noted_bind (noted_bufferCall hn rfl) fun call => noted_pure ?_
  intro hcall hvalue hentity
  exact .eval (hcall rfl (List.forall_mem_cons.2 ⟨hentity, List.forall_mem_singleton.2 hvalue⟩))

theorem noted_setEnabledStatement {c : Option TypeRef}
    (hn : s.graph.kind? n = some (.setComponentEnabled c)) :
    Noted N (s.setEnabledStatement n c) fun x => s.Emits N [x] := by
  refine noted_bind (noted_read n _) fun entity => ?_
  refine noted_bind (noted_read n _) fun value => ?_
  refine noted_bind (noted_bufferCall hn rfl) fun call => noted_pure ?_
  intro hcall hvalue hentity
  exact .eval (hcall rfl (List.forall_mem_cons.2 ⟨hentity, List.forall_mem_singleton.2 hvalue⟩))

/-! ### Jobs -/

/-- A field is set, unless it is for a variable that nothing feeds. -/
theorem noted_fieldValue (f : CaptureField) (executor : Option NodeId) (vars : List JobVariable) :
    Noted N (s.fieldValue executor vars f.source) fun o => ∀ fs xs,
      s.Initializes N executor vars fs xs →
      s.Initializes N executor vars (f :: fs) ((o.map (f.name, ·)).toList ++ xs) := by
  cases hsource : f.source with
  | port source =>
    exact noted_map (noted_value _ source) fun e he fs xs hrest => .set (.captured hsource he) hrest
  | expression e => exact noted_pure fun fs xs hrest => .set (.copied hsource) hrest
  | jobVariable i =>
    cases executor with
    | none => exact noted_pure fun fs xs hrest => .skip hsource nofun hrest
    | some n =>
      cases hvar : vars[i]? with
      | none =>
        simp only [fieldValue, hvar]
        exact noted_pure fun fs xs hrest => .skip hsource (by simp [hvar]) hrest
      | some v =>
        simp only [fieldValue, hvar]
        refine (noted_readOptional n v.name).imp ?_
        rintro (_ | e) ⟨hmade, hfed⟩ fs xs hrest
        · refine .skip hsource (fun v' n' input hv hn hfeeds => ?_) hrest
          obtain rfl := Option.some.inj (hvar.symm.trans hv)
          obtain rfl := Option.some.inj hn
          exact absurd (hfed.2 ⟨input, hfeeds⟩) nofun
        · obtain ⟨input, hfeeds⟩ := hfed.1 rfl
          exact .set (.fed hsource hvar rfl hfeeds (hmade e rfl)) hrest

/-- Fields that are set or skipped one by one are set as a whole. -/
theorem initializes_of_forall₂ {executor : Option NodeId} {vars : List JobVariable}
    {fs : List CaptureField} {os : List (Option (String × Expr))}
    (h : List.Forall₂ (fun f o => ∀ fs xs, s.Initializes N executor vars fs xs →
      s.Initializes N executor vars (f :: fs) (o.toList ++ xs)) fs os) :
    s.Initializes N executor vars fs (os.filterMap id) := by
  induction h with
  | nil => exact .nil
  | @cons f o fs os hf _ ih =>
    have hset : (o :: os).filterMap id = o.toList ++ os.filterMap id := by cases o <;> rfl
    rw [hset]
    exact hf _ _ ih

/-- The fields of a job are given their values in order. -/
theorem noted_constructionFields (j : Job) (executor : Option NodeId) :
    Noted N (s.constructionFields j executor)
      (s.Initializes N executor (s.graph.jobVariables j.node) j.fields) := by
  refine noted_ofGraph_bind fun node hnode => ?_
  have hvars : node.kind.jobVariables = s.graph.jobVariables j.node := by
    simp [Graph.jobVariables, Graph.kind?, Graph.node_eq_ok.1 hnode]
  rw [hvars]
  exact noted_bind (noted_mapM_forall₂ fun f _ =>
    noted_bind (noted_fieldValue f executor _) fun value => noted_pure id)
    fun os => noted_pure initializes_of_forall₂

/-- A loop that is deferred constructs its job and runs it. -/
theorem noted_scheduleLoop {spec : ForeachSpec} (hn : s.graph.kind? n = some (.foreach spec))
    (hrun : spec.run.isDeferred) : Noted N (s.scheduleLoop n spec) (s.Emits N) := by
  unfold scheduleLoop
  split
  · exact noted_pure .nil
  · rename_i j hj
    refine noted_bind (noted_constructionFields j none) fun fields => noted_pure fun hfields => ?_
    exact .run (.loop hn hrun hj) hfields (List.forall_mem_nil _) (.inl rfl)

/-- An executor constructs its job and runs it. -/
theorem noted_execute {runWith : Discipline} {job : NodeId} {j : Job}
    (hn : s.graph.kind? n = some (.executor runWith (some job))) (hj : s.plan.job? job = some j) :
    Noted N (s.execute n runWith j) (s.Emits N) := by
  refine noted_bind (noted_optional n _) fun query => ?_
  refine noted_when_bind ((noted_report _ _).imp fun _ _ => trivial) ?_
  refine noted_bind (noted_constructionFields j _) fun fields => ?_
  refine noted_ite_bind (noted_optional n _) (noted_pure nofun) fun dependsOn => ?_
  refine noted_ite_bind (noted_optional n _) (noted_pure nofun) fun baseIndices => ?_
  refine noted_ofGraph_then fun handle => noted_pure ?_
  intro hbase hdepends hfields hquery
  refine .run (.executor hn hj) hfields
    (List.forall_mem_append.2 ⟨List.forall_mem_append.2 ⟨hquery, hdepends⟩, hbase⟩) ?_
  split
  · split
    · exact .inr ⟨_, rfl⟩
    · exact .inl rfl
  · exact .inl rfl

/-! ### Flow -/

theorem makes_bareQuery (spec : ForeachSpec) : s.Makes N (bareQuery spec) := by
  have hmethod : ∀ (q : Expr) (method : String) (generics : List String), s.Makes N q →
      s.Makes N (.invokeOn q method generics []) :=
        fun q method generics hq => .invokeOn _ _ hq nofun
  have htyped := List.foldlRecOn (motive := s.Makes N) spec.filters.typed
    (fun q x => .invokeOn q x.1 x.2 [])
    (hmethod _ "Query" (spec.items.map queryType) (.ident "SystemAPI"))
    fun q hq x _ => hmethod q x.1 x.2 hq
  unfold bareQuery
  dsimp only
  split
  · exact .invokeOn _ _ htyped (List.forall_mem_singleton.2 (.ident _))
  · exact htyped

section Follow

variable (hnext : ∀ output, Noted N (next output) (s.Emits N))

include hnext

theorem noted_followWith (n : NodeId) (port : String) :
    Noted N (s.followWith next n port) (s.Emits N) := noted_ofGraph_then hnext

theorem noted_thenExit (n : NodeId) (ss : List Stmt) :
    Noted N (s.thenExit next n ss) fun rs => s.Emits N ss → s.Emits N rs :=
  noted_map (noted_followWith hnext n _) fun _ hrest hss => .append hss hrest

/-- A loop that is not deferred contains the code of its body. -/
theorem noted_inlineLoop (n : NodeId) (spec : ForeachSpec) :
    Noted N (s.inlineLoop next n spec) (s.Emits N) := by
  have hname : ∀ port, Noted N (s.loopName? n port) fun _ => True :=
    fun port => noted_ofGraph_then fun _ => noted_pure trivial
  refine noted_bind (noted_mapM fun i _ => noted_read n (PortName.sharedFilter i)) fun shared => ?_
  refine noted_then ((noted_mapM fun item _ => hname item.name).imp fun _ _ => trivial)
    fun items => ?_
  refine noted_ite_bind (Q := fun _ => True) (hname _) (noted_pure trivial) fun entity => ?_
  refine noted_bind (noted_followWith hnext n _) fun body => noted_pure ?_
  intro hbody _ hshared
  have hquery : s.Makes N (shared.foldl (fun q value =>
      .invokeOn q "WithSharedComponentFilter" [] [value]) (bareQuery spec)) :=
    List.foldlRecOn (motive := s.Makes N) shared _ (makes_bareQuery spec)
      fun q hq value hvalue => .invokeOn _ _ hq (List.forall_mem_singleton.2 (hshared value hvalue))
  refine .loop _ ?_ hbody
  split
  · exact .invokeOn _ _ hquery nofun
  · exact hquery

/-- Statements of a node, from those of what follows it. -/
theorem noted_statementsWith (n : NodeId) : Noted N (s.statementsWith next n) (s.Emits N) := by
  have hexit : ∀ {m : Generation Stmt}, Noted N m (fun x => s.Emits N [x]) →
      Noted N (m >>= fun x => s.thenExit next n [x]) (s.Emits N) :=
    fun hm => noted_bind hm fun x => noted_thenExit hnext n [x]
  refine noted_ofGraph_bind fun node hnode => ?_
  have hn : s.graph.kind? n = some node.kind := by simp [Graph.kind?, Graph.node_eq_ok.1 hnode]
  cases hkind : node.kind with
  | ret => exact noted_bind (noted_readOptional n _) fun value => noted_pure fun h => .ret h.1
  | setValue =>
    refine noted_bind (noted_target n _) fun target => ?_
    refine noted_bind (noted_read n _) fun value => ?_
    refine (noted_thenExit hnext n _).imp fun ss hss hvalue htarget => ?_
    exact hss (.assign htarget hvalue)
  | branch =>
    refine noted_bind (noted_read n _) fun condition => ?_
    refine noted_bind (noted_followWith hnext n _) fun onTrue => ?_
    refine noted_bind (noted_followWith hnext n _) fun onFalse => ?_
    refine (noted_thenExit hnext n _).imp fun ss hss hfalse htrue hcondition => ?_
    exact hss (.branch hcondition htrue hfalse)
  | localVar name type => exact hexit (noted_localStatement n type)
  | member target =>
    refine noted_bind (noted_memberWith noted_value (hkind ▸ hn) .read) fun call => ?_
    exact (noted_thenExit hnext n _).imp fun ss hss hcall => hss (.eval hcall)
  | «foreach» spec =>
    dsimp only
    split
    · rename_i hrun
      exact noted_bind (noted_scheduleLoop (hkind ▸ hn) hrun) (noted_thenExit hnext n)
    · exact noted_bind (noted_inlineLoop hnext n spec) (noted_thenExit hnext n)
  | executor runWith job =>
    dsimp only
    split
    · rename_i j hj
      obtain ⟨job, rfl, hj⟩ := Option.bind_eq_some_iff.1 hj
      exact noted_bind (noted_execute (hkind ▸ hn) hj) (noted_thenExit hnext n)
    · exact (noted_thenExit hnext n []).imp fun ss hss => hss .nil
  | createEntity => exact hexit (noted_createStatement (hkind ▸ hn))
  | destroyEntity => exact hexit (noted_destroyStatement (hkind ▸ hn))
  | setComponent c => exact hexit (noted_setComponentStatement (hkind ▸ hn))
  | setComponentEnabled c => exact hexit (noted_setEnabledStatement (hkind ▸ hn))
  | event _ | functionEntry _ | literal _ | operator _ _ | jobEntity _ | jobChunk _
  | getComponent _ => exact noted_pure .nil

end Follow

theorem noted_targets {step : NodeId → Generation (List Stmt)} {output : PortRef}
    (hstep : ∀ n, Noted N (step n) (s.Emits N)) : Noted N (do
      let parts ← (s.graph.targetsOf output).mapM fun t => step t.node
      return parts.flatten) (s.Emits N) :=
  noted_bind (noted_mapM fun t _ => hstep t.node) fun _ => noted_pure .flatten

/-- By induction on the fuel, along the walk. -/
theorem noted_nodeFlowWithin (fuel : Nat) (path : List NodeId) (n : NodeId) :
    Noted N (s.nodeFlowWithin fuel path n) (s.Emits N) := by
  induction fuel generalizing path n with
  | zero => exact noted_pure .nil
  | succ fuel ih =>
    unfold nodeFlowWithin
    split
    · exact noted_then ((noted_report _ _).imp fun _ _ => trivial) fun _ => noted_pure .nil
    · refine noted_bind (noted_statementsWith (fun output => ?_) n) fun ss => noted_pure (.ofNode n)
      exact noted_targets fun m => ih (n :: path) m

/-- What follows a flow output is made by the rules. -/
theorem noted_flow (output : PortRef) : Noted N (s.flow output) (s.Emits N) :=
  noted_targets fun n => noted_nodeFlowWithin _ [] n

theorem noted_follow (n : NodeId) (port : String) : Noted N (s.follow n port) (s.Emits N) :=
  noted_followWith noted_flow n port

end Walk

end Site

end EntityFlow
