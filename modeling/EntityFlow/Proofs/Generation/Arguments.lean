import EntityFlow.Proofs.Generation.Fuel
import EntityFlow.Proofs.Generation.Successors
import EntityFlow.Proofs.Jobs.Construction
import EntityFlow.Proofs.Planning.Bindings

/-!
# Arguments and their inputs

A node that calls a function or a method has an input for each parameter, and an executor has one
for each variable of its job.  These inputs stand behind the fixed ports of the node, in the order
of the parameters, but they are read by name, and a name finds the first port that has it.  So an
argument is what its own input reads unless a port before that input has the same name.  A method is
given its own receiver for a parameter that is named as the port for the receiver.
-/

namespace EntityFlow

namespace Generation

variable {α : Type} {N : Note → Prop} {m m' : Generation α} {Q : α → Prop}

/-- What is noted before a step does not change its value. -/
theorem Composed.meets (h : Composed N m) :
    Meets m (fun a => ∃ new, Adds m (.ok a) new) fun _ => True := by
  obtain ⟨r, new, hadds, -⟩ := h.exists_adds
  intro notes
  rw [hadds notes]
  cases r with
  | ok a => exact ⟨new, hadds⟩
  | error e => trivial

/-- What is known of a longer run is known of one that approximates it. -/
theorem Approximates.meets (h : Approximates m m') (hm : Meets m' Q fun _ => True) :
    Meets m Q fun _ => True := by
  intro notes
  rcases hrun : m.run.run notes with ⟨e | a, noted⟩
  · trivial
  · have hvalue := hm notes
    rwa [h.run_eq_ok hrun] at hvalue

end Generation

/-! ## Inputs for parameters -/

namespace Layout

/-- The ports of a call that stand before its parameters. -/
def callOffset (returns : Option TypeRef) : Nat := if returns.isNone then 1 else 0

/-- The inputs for the parameters of a call stand after its other ports. -/
theorem getElem?_ofCall {params : List (String × TypeRef)} {i : Nat} {x : String × TypeRef}
    (hx : params[i]? = some x) (returns : Option TypeRef) :
    (ofCall params returns)[callOffset returns + i]? = some (.valueIn x.1 (some x.2)) := by
  have hlt : i < (params.map fun x => Port.valueIn x.1 (some x.2)).length := by
    rw [List.length_map]
    exact (List.getElem?_eq_some_iff.1 hx).1
  have hinput : (params.map fun x => Port.valueIn x.1 (some x.2))[i]? =
      some (.valueIn x.1 (some x.2)) := by
    rw [List.getElem?_map, hx, Option.map_some]
  cases returns with
  | none =>
    change (Port.flowIn PortName.enter :: _ ++ [Port.flowOut PortName.exit])[1 + i]? = _
    rw [List.cons_append, Nat.add_comm, List.getElem?_cons_succ,
      List.getElem?_append_left hlt, hinput]
  | some type =>
    change (_ ++ [Port.valueOut PortName.out (some type) .readOnly])[0 + i]? = _
    rw [Nat.zero_add, List.getElem?_append_left hlt, hinput]

end Layout

namespace Graph

variable {g : Graph} {n : NodeId} {node : Node} {target : MemberTarget} {k i : Nat}
  {params : List (String × TypeRef)} {x : String × TypeRef}

/-- The parameters of what is called, and how many ports of a node that calls it stand before
them. -/
def parameters? (g : Graph) : MemberTarget → Option (Nat × List (String × TypeRef))
  | .function m => (g.function? m).map fun f =>
      (Layout.callOffset f.returns, f.params.map fun p => (p.name, p.type))
  | .external e =>
      match e.use with
      | .method params returns =>
        some (e.receiver.toList.length + Layout.callOffset returns, params)
      | .field _ _ | .property _ _ => none
  | .variable _ | .property _ => none

/-- The port of a parameter stands at the place of the parameter, after the ports before it. -/
theorem Reachable.port_parameter (hg : g.Reachable) (hn : g.node? n = some node)
    (hkind : node.kind = .member target) (hparams : g.parameters? target = some (k, params))
    (hx : params[i]? = some x) : node.ports[k + i]? = some (.valueIn x.1 (some x.2)) := by
  obtain ⟨job, -, hl⟩ := hg.laidOut hn
  rw [hkind] at hl
  cases target with
  | «variable» m | property m => cases hparams
  | function m =>
    obtain ⟨f, hf, heq⟩ := Option.map_eq_some_iff.1 hparams
    obtain ⟨rfl, rfl⟩ := Prod.mk.inj heq
    simp only [NodeKind.layout, Layout.ofTarget, bind_eq_ok, pure_eq_ok] at hl
    obtain ⟨f', hf', hports⟩ := hl
    obtain ⟨x', hx', hview⟩ := lookup_eq_ok hf'
    have hfunction : g.function? m = some f' := Option.bind_eq_some_iff.2 ⟨x', hx', hview⟩
    obtain rfl := Option.some.inj (hf.symm.trans hfunction)
    rw [← hports]
    exact Layout.getElem?_ofCall hx f.returns
  | external e =>
    obtain ⟨owner, receiver, name, generics, use⟩ := e
    rw [← Except.ok.inj hl]
    cases use with
    | field type readOnly | property type readOnly => cases hparams
    | method params' returns =>
      obtain ⟨rfl, rfl⟩ := Prod.mk.inj (Option.some.inj hparams)
      have hreceiver : receiver.toList.length =
          (receiver.toList.map fun type => Port.valueIn PortName.self (some type)).length := by
        rw [List.length_map]
      rw [Nat.add_assoc, hreceiver]
      exact (List.getElem?_append_right (Nat.le_add_right _ _)).trans
        (by rw [Nat.add_sub_cancel_left, Layout.getElem?_ofCall hx returns])

/-- What can end the computation of a value: a circle of values, or the need of the update method
where the unit has none. -/
def Stops (g : Graph) : CompileError → Prop
  | .valueCycle _ => True
  | .missingEntryPoint _ => g.settings.flavor.isSystem = false
  | _ => False

theorem excuses_stops (g : Graph) : Planning.Excuses g g.Stops := fun hsystem _ => hsystem

end Graph

/-! ## What is read -/

namespace Site

open Generation Planning

variable {s : Site} {n : NodeId} {node : Node} {r : PortRef} {e : Expr} {i k : Nat} {q : Port}
  {name : String} {target : MemberTarget} {params : List (String × TypeRef)}

/-- The input reads as that expression, whatever was noted before. -/
def Reads (s : Site) (r : PortRef) (e : Expr) : Prop := ∃ new, Adds (s.input .read r) (.ok e) new

/-- What an input reads, as a result of running the code for it. -/
theorem reads_iff : s.Reads r e ↔ ((s.input .read r).run.run (.ofPlan s.plan)).1 = .ok e := by
  constructor
  · rintro ⟨new, hadds⟩
    rw [hadds]
  · intro hrun
    obtain ⟨result, new, hadds, -⟩ :=
      (composed_inputWith (composed_value (s := s)) .read r).exists_adds
    have hresult : result = .ok e := by
      rw [← hrun, input, hadds]
    exact ⟨new, hresult ▸ hadds⟩

/-- How an expression is read for a port of a node. -/
structure ReadsPort (s : Site) (n : NodeId) (node : Node) (i : Nat) (q : Port)
    (e : Expr) : Prop where
  port : node.ports[i]? = some q
  /-- It is what the first port of the same name reads. -/
  first : ∃ j, node.ports.findIdx? (fun p => p.name == q.name) = some j ∧
    s.Reads ⟨n, UInt16.ofNat j⟩ e
  /-- That is the port itself, unless a port before it has its name. -/
  own : q.name ∉ (node.ports.take i).map Port.name → s.Reads ⟨n, UInt16.ofNat i⟩ e

/-- What the named port reads is what the port at that place reads. -/
theorem readsPort_of_portRef (hn : s.graph.node? n = some node) (hq : node.ports[i]? = some q)
    (hr : s.graph.portRef n q.name = .ok r) (h : s.Reads r e) : s.ReadsPort n node i q e := by
  obtain ⟨node', j, hnode, hj, rfl⟩ := Graph.portRef_eq_ok.1 hr
  obtain rfl := Option.some.inj (hn.symm.trans hnode)
  refine ⟨hq, ⟨j, hj, h⟩, fun hfirst => ?_⟩
  obtain rfl := Option.some.inj (hj.symm.trans (Graph.findIdx?_of_first hq hfirst))
  exact h

theorem meets_reads (r : PortRef) : Meets (s.inputWith s.value .read r) (s.Reads r) fun _ => True :=
  (composed_inputWith (composed_value (s := s)) .read r).meets

theorem meets_readWith_reads (n : NodeId) (name : String) : Meets (s.readWith s.value n name)
    (fun e => ∃ r, s.graph.portRef n name = .ok r ∧ s.Reads r e) fun _ => True :=
  meets_bind (meets_ofGraph (fun _ => id) fun _ _ => trivial) fun r hr =>
    (meets_reads r).imp fun _ he => ⟨r, hr, he⟩

/-- An input that may be missing is left out only if nothing feeds it. -/
theorem meets_readOptional_reads (n : NodeId) (name : String) : Meets (s.readOptional n name)
    (fun o => (∀ e ∈ o, ∃ r, s.graph.portRef n name = .ok r ∧ s.Reads r e) ∧
      (o = none → ∀ r, s.graph.portRef n name = .ok r → s.graph.sourceOf? r = none))
      fun _ => True := by
  unfold readOptional
  split
  · rename_i hnone
    refine meets_pure ⟨nofun, fun _ r hr => ?_⟩
    exact absurd (hnone.symm.trans (Graph.portRef?_eq_some.2 hr)) nofun
  · rename_i r hr
    have hport := Graph.portRef?_eq_some.1 hr
    split
    · rename_i hunfed
      refine meets_pure ⟨nofun, fun _ r' hr' => ?_⟩
      obtain rfl := Except.ok.inj (hport.symm.trans hr')
      exact Option.isNone_iff_eq_none.1 (Bool.and_eq_true_iff.1 hunfed).1
    · refine meets_map (meets_reads r) fun e he => ⟨fun e' he' => ?_, nofun⟩
      obtain rfl := Option.some.inj he'
      exact ⟨r, hport, he⟩

/-! ## Calls -/

/-- The expression calls the target with these arguments. -/
inductive Invokes (s : Site) : MemberTarget → List Expr → Expr → Prop
  /-- A function that is copied into a job may take the sort key as well, after its arguments. -/
  | function {m : MemberId} {name : String} (args : List Expr)
      (hname : s.plan.symbols.get? (.member m) = some name) :
      Invokes s (.function m) args (.call m (s.qualifier? m) name
        (args ++ (s.forwardedSortKey? m).toList.map Expr.ident))
  | method {x : External} (args : List Expr) (receiver : Expr) :
      Invokes s (.external x) args (.invokeOn receiver x.name (x.generics.map TypeRef.name) args)
  | free {x : External} (args : List Expr) (hreceiver : x.receiver = none)
    (howner : x.owner = none) :
      Invokes s (.external x) args (.invoke x.name (x.generics.map TypeRef.name) args)

/-- The arguments are read for the inputs that stand from position `k` on. -/
structure ReadsInputs (s : Site) (n : NodeId) (node : Node) (k : Nat)
    (params : List (String × TypeRef)) (args : List Expr) : Prop where
  length : args.length = params.length
  reads : ∀ i x, params[i]? = some x → ∃ e, args[i]? = some e ∧
    s.ReadsPort n node (k + i) (.valueIn x.1 (some x.2)) e

/-- The arguments of a call are what the ports of its parameters read, in their order. -/
theorem meets_argumentsWith_reads (hn : s.graph.node? n = some node)
    (hports : ∀ i x, params[i]? = some x → node.ports[k + i]? = some (.valueIn x.1 (some x.2))) :
    Meets (s.argumentsWith s.value n (params.map Prod.fst)) (s.ReadsInputs n node k params)
      fun _ => True := by
  refine (meets_mapM_forall₂ fun name _ => meets_readWith_reads n name).imp fun args hargs => ?_
  obtain ⟨hlength, hreads⟩ := List.forall₂_iff_get.1 hargs
  rw [List.length_map] at hlength
  refine ⟨hlength.symm, fun i x hx => ?_⟩
  obtain ⟨hlt, rfl⟩ := List.getElem?_eq_some_iff.1 hx
  have hi : i < args.length := by omega
  obtain ⟨r, hr, he⟩ := hreads i (by rwa [List.length_map]) hi
  rw [List.get_eq_getElem, List.getElem_map] at hr
  exact ⟨args[i], List.getElem?_eq_getElem hi, readsPort_of_portRef hn (hports i _ hx) hr he⟩

/-- The expression calls the target, and its arguments are read for the inputs from position `k`
on. -/
def CallsWith (s : Site) (n : NodeId) (node : Node) (target : MemberTarget) (k : Nat)
    (params : List (String × TypeRef)) (e : Expr) : Prop :=
  ∃ args, s.Invokes target args e ∧ s.ReadsInputs n node k params args

/-- A member is reached through something if it has a receiver or an owner. -/
theorem meets_receiverWith (n : NodeId) (x : External) (access : Access) :
    Meets (s.receiverWith s.value n x access)
      (fun found => found = none → x.receiver = none ∧ x.owner = none) fun _ => True := by
  unfold receiverWith
  split
  · refine meets_bind (meets_trivial _) fun r _ => meets_bind (meets_trivial _) fun e _ => ?_
    exact meets_pure nofun
  · rename_i hreceiver
    exact meets_pure fun howner => ⟨hreceiver, Option.map_eq_none_iff.1 howner⟩

section Member

variable (hg : s.graph.Reachable) (hn : s.graph.node? n = some node)
  (hkind : node.kind = .member target)
  (hparams : s.graph.parameters? target = some (k, params))

include hg hn hkind hparams

/-- A member is called with what its inputs read. -/
theorem meets_memberWith_reads (access : Access) :
    Meets (s.memberWith s.value n target access) (s.CallsWith n node target k params)
    fun _ => True := by
  have hargs := meets_argumentsWith_reads hn fun i x hx => hg.port_parameter hn hkind hparams hx
  cases target with
  | «variable» m | property m => cases hparams
  | function m =>
    obtain ⟨f, hf, heq⟩ := Option.map_eq_some_iff.1 hparams
    obtain ⟨rfl, rfl⟩ := Prod.mk.inj heq
    have hnames : s.functionParams m = (f.params.map fun p => (p.name, p.type)).map Prod.fst := by
      rw [functionParams, hf, List.map_map]
      rfl
    have hname : Meets (s.memberName m) (fun name => s.plan.symbols.get? (.member m) = some name)
        fun _ => True := by
      unfold memberName
      split
      · exact meets_pure ‹_›
      · exact meets_throw trivial
    rw [← hnames] at hargs
    refine meets_bind hname fun name hname => meets_bind hargs fun args hargs => meets_pure ?_
    exact ⟨args, .function args hname, hargs⟩
  | external e =>
    obtain ⟨owner, receiver, name, generics, use⟩ := e
    cases use with
    | field type readOnly | property type readOnly => cases hparams
    | method params' returns =>
      obtain ⟨rfl, rfl⟩ := Prod.mk.inj (Option.some.inj hparams)
      refine meets_bind (meets_receiverWith n ⟨owner, receiver, name, generics, _⟩ access)
        fun found hfound => meets_bind hargs fun args hargs => meets_pure ?_
      cases found with
      | none => exact ⟨args, .free args (hfound rfl).1 (hfound rfl).2, hargs⟩
      | some x => exact ⟨args, .method args x, hargs⟩

variable (hp : Plan.make s.graph = .ok s.plan)

include hp

/-- With any fuel, a call is made unless values run in a circle or the update method is missing. -/
theorem meets_callsWith {fuel : Nat} (hfuel : fuel ≤ s.graph.bound + 1) (access : Access) :
    Meets (s.memberWith (s.valueWithin fuel) n target access) (s.CallsWith n node target k params)
      s.graph.Stops := by
  have hreads : Meets (s.memberWith (s.valueWithin fuel) n target access)
      (s.CallsWith n node target k params) fun _ => True :=
    (approximates_memberWith (approximates_valueWithin hfuel) n target access).meets
      (meets_memberWith_reads hg hn hkind hparams access)
  have hstops : Meets (s.memberWith (s.valueWithin fuel) n target access) (fun _ => True)
      s.graph.Stops := by
    refine meets_memberWith hg (complete_make hg hp) hn (fun access name _ r _ => ?_) hkind access
    refine meets_inputWith hg.invariant.anchored fun e he _ => ?_
    exact meets_valueWithin_of_cycle hg (complete_make hg hp) s.graph.excuses_stops
      (fun _ => trivial) fuel he access
  exact hreads.exchange hstops

/-- No output of a member is bound, so that its value is the call. -/
theorem meets_value_callsWith (access : Access) (port : UInt16) :
    Meets (s.value access ⟨n, port⟩) (s.CallsWith n node target k params) s.graph.Stops := by
  have hmember : s.graph.kind? n = some (.member target) := hkind ▸ Graph.kind?_of_node hn
  have hcall : s.value access ⟨n, port⟩ =
      s.memberWith (s.valueWithin s.graph.bound) n target access := by
    rw [value, valueWithin, binding?_member hp hmember, computeWith_member hmember]
  rw [hcall]
  exact meets_callsWith hg hn hkind hparams hp (Nat.le_succ _) access

end Member

/-! ## Jobs -/

/-- What an executor does about a field of its job.  A field for a variable is set to what is read
for the input for that variable, or is left out because nothing feeds the port that is found for
it. -/
inductive SetsField (s : Site) (n : NodeId) (node : Node) (runWith : Discipline) (j : Job)
    (f : CaptureField) : Option (String × Expr) → Prop
  | set (e : Expr)
      (h : ∀ i, f.source = .jobVariable i → ∃ v, (s.graph.jobVariables j.node)[i]? = some v ∧
      s.ReadsPort n node ((Layout.ofExecutor runWith []).length + i)
        (.valueIn v.name (some v.type)) e) :
      SetsField s n node runWith j f (some (f.name, e))
  | skip (i : Nat) (hsource : f.source = .jobVariable i)
      (h : ∀ v, (s.graph.jobVariables j.node)[i]? = some v →
      ∀ r, s.graph.portRef n v.name = .ok r → s.graph.sourceOf? r = none) :
      SetsField s n node runWith j f none

/-- The statements construct the job, with its fields in their order, and run it. -/
def ConstructsWith (s : Site) (n : NodeId) (node : Node) (runWith : Discipline) (j : Job)
    (ss : List Stmt) : Prop :=
  ∃ (entries : List (Option (String × Expr))) (run : Stmt),
    ss = [.construct j.node (s.jobLocal n j) j.typeName (entries.filterMap id), run] ∧
    List.Forall₂ (s.SetsField n node runWith j) j.fields entries

section Executor

variable {runWith : Discipline} {job : NodeId} {j : Job} (hg : s.graph.Reachable)
  (hn : s.graph.node? n = some node) (hkind : node.kind = .executor runWith (some job))
  (hj : s.plan.job? job = some j)

include hg hn hkind hj

/-- A variable of a job is set to what the input of the executor for it reads. -/
theorem meets_fieldValue_reads {vars : List JobVariable}
    (hvars : s.graph.jobVariables j.node = vars)
    (f : CaptureField) : Meets (s.fieldValue (some n) vars f.source)
      (fun value => s.SetsField n node runWith j f (value.map fun e => (f.name, e)))
      fun _ => True := by
  obtain rfl : j.node = job := by simpa using List.find?_some hj
  have hports := hg.ports_executor hn hkind
  subst hvars
  unfold fieldValue
  split
  · rename_i source hsource
    refine meets_map (meets_trivial _) fun e _ => .set e fun i hi => ?_
    exact absurd (hsource.symm.trans hi) nofun
  · rename_i e hsource
    refine meets_pure (.set e fun i hi => ?_)
    exact absurd (hsource.symm.trans hi) nofun
  · rename_i i hsource
    split
    · rename_i n' v hn' hv
      obtain rfl := Option.some.inj hn'
      refine (meets_readOptional_reads n v.name).imp fun value hvalue => ?_
      cases value with
      | none =>
        refine .skip i hsource fun v' hv' => ?_
        obtain rfl := Option.some.inj (hv.symm.trans hv')
        exact hvalue.2 rfl
      | some e =>
        refine .set e fun i' hi => ?_
        obtain rfl := CaptureSource.jobVariable.inj (hsource.symm.trans hi)
        obtain ⟨r, hr, hreads⟩ := hvalue.1 e rfl
        refine ⟨v, hv, readsPort_of_portRef hn ?_ hr hreads⟩
        rw [hports]
        exact Graph.getElem?_ofExecutor hv
    · rename_i hnone
      exact meets_pure (.skip i hsource fun v hv => (hnone n v rfl hv).elim)

/-- The fields of a job are set one by one, in their order. -/
theorem meets_constructionFields_reads : Meets (s.constructionFields j (some n))
    (fun fields => ∃ entries : List (Option (String × Expr)), fields = entries.filterMap id ∧
      List.Forall₂ (s.SetsField n node runWith j) j.fields entries) fun _ => True := by
  refine meets_bind (Q := fun x => s.graph.jobVariables j.node = x.kind.jobVariables)
    (meets_ofGraph (fun x hx => ?_) fun _ _ => trivial) fun x hx => ?_
  · rw [Graph.jobVariables, Graph.kind?_of_node (Graph.node_eq_ok.1 hx)]
    rfl
  · refine meets_bind (meets_mapM_forall₂ fun f _ => ?_) fun entries hentries =>
      meets_pure ⟨entries, rfl, hentries⟩
    exact meets_bind (meets_fieldValue_reads hg hn hkind hj hx f) fun value hvalue =>
      meets_pure hvalue

/-- The statements of an executor start with the construction of its job. -/
theorem meets_constructsWith (hp : Plan.make s.graph = .ok s.plan) :
    Meets (s.execute n runWith j) (s.ConstructsWith n node runWith j) s.graph.Stops := by
  have hreads : Meets (s.execute n runWith j) (s.ConstructsWith n node runWith j)
      fun _ => True := by
    refine meets_bind (meets_trivial _) fun query _ => ?_
    refine meets_when_bind (fun _ => meets_report _ _ trivial) ?_
    refine meets_bind (meets_constructionFields_reads hg hn hkind hj) fun fields hfields => ?_
    obtain ⟨entries, rfl, hentries⟩ := hfields
    refine meets_ite_bind (fun _ => meets_trivial _) (fun _ => meets_pure trivial)
      fun dependsOn _ => ?_
    refine meets_ite_bind (fun _ => meets_trivial _) (fun _ => meets_pure trivial)
      fun indices _ => ?_
    exact meets_bind (meets_trivial _) fun handle _ => meets_pure ⟨entries, _, rfl, hentries⟩
  have hprovides : s.Provides s.graph.Stops :=
    provides_of_cycle hg (complete_make hg hp) s.graph.excuses_stops fun _ => trivial
  have hport : ∃ r, s.graph.portRef n PortName.jobHandle = .ok r :=
    (hg.laidOut hn).exists_portRef hn (by simp [hkind])
  exact hreads.exchange
    (hprovides.meets_execute (R := fun _ => True) (List.mem_of_find?_eq_some hj) runWith hport)

end Executor

/-! ## All nodes -/

/-- What a node hands to what it calls or constructs.  The i-th argument or variable is read for the
i-th input after the fixed ports. -/
structure PassesInputs (s : Site) (n : NodeId) (node : Node) : Prop where
  /-- The value of a call. -/
  value : ∀ target k params, node.kind = .member target →
    s.graph.parameters? target = some (k, params) →
    ∀ access port,
    Meets (s.value access ⟨n, port⟩) (s.CallsWith n node target k params) s.graph.Stops
  /-- A call that stands in the flow is a statement. -/
  statement : ∀ target k params, node.kind = .member target →
    s.graph.parameters? target = some (k, params) → ∃ call : Generation Expr,
      Meets call (s.CallsWith n node target k params) s.graph.Stops ∧
      ∀ next, s.statementsWith next n = (do s.thenExit next n [.eval (← call)])
  /-- An executor constructs its job. -/
  job : ∀ runWith job j, node.kind = .executor runWith (some job) → s.plan.job? job = some j →
    ∃ construct : Generation (List Stmt),
      Meets construct (s.ConstructsWith n node runWith j) s.graph.Stops ∧
      ∀ next, s.statementsWith next n = (do s.thenExit next n (← construct))

end Site

namespace Graph

variable {g : Graph} {p : Plan} {n : NodeId} {node : Node}

/-- Wherever code is generated, an argument is what the first port with the name of its parameter
reads. -/
theorem passes_inputs (hg : g.Reachable) (hp : Plan.make g = .ok p) (hn : g.node? n = some node)
    (scope : Scope) : Site.PassesInputs ⟨g, p, scope⟩ n node where
  value target k params hkind hparams access port :=
    Site.meets_value_callsWith hg hn hkind hparams hp access port
  statement target k params hkind hparams := by
    refine ⟨_,
      Site.meets_callsWith (s := ⟨g, p, scope⟩) hg hn hkind hparams hp (Nat.le_refl _) .read,
      fun next => ?_⟩
    obtain ⟨title, kind, container, ports⟩ := node
    obtain rfl : kind = .member target := hkind
    rw [Site.statementsWith, node_eq_ok.2 hn]
    rfl
  job runWith job j hkind hj := by
    refine ⟨_, Site.meets_constructsWith (s := ⟨g, p, scope⟩) hg hn hkind hj hp, fun next => ?_⟩
    obtain ⟨title, kind, container, ports⟩ := node
    obtain rfl : kind = .executor runWith (some job) := hkind
    rw [Site.statementsWith, node_eq_ok.2 hn]
    simp only [Generation.ofGraph, pure_bind, Option.bind_some, hj]

namespace Attaching

/-- A method without a result, with a receiver and one parameter of that name. -/
def attach (param : String) : External :=
  ⟨none, some (.struct "World"), "Attach", [], .method [(param, .struct "World")] none⟩

/-- The method is called on one variable, and another is connected to the input for its
parameter. -/
def graph (param : String) : Graph := build {} [
  .addVariable { name := "world", type := .struct "World" },
  .addVariable { name := "child", type := .struct "World" },
  .addNode "Update" (.event .update) ContainerTree.root,
  .addNode "Attach" (.member (.external (attach param))) ContainerTree.root,
  .addNode "world" (.member (.variable ⟨0⟩)) ContainerTree.root,
  .addNode "child" (.member (.variable ⟨1⟩)) ContainerTree.root,
  .connect ⟨0⟩ "exit" ⟨1⟩ "enter", .connectPorts ⟨⟨2⟩, 0⟩ ⟨⟨1⟩, 0⟩, .connectPorts ⟨⟨3⟩, 0⟩ ⟨⟨1⟩, 2⟩]

def evaluated? : Stmt → Option String
  | .eval e => some e.render
  | _ => none

def calls (a : Assembly) : List String := a.draft.stmts.filterMap evaluated?

def argument? (param : String) (p : Plan) : Option String :=
  ((Site.input ⟨graph param, p, .unit⟩ .read ⟨⟨1⟩, 2⟩).run.run (.ofPlan p)).1.toOption.map
    Expr.render

theorem reads_of_argument? {param text : String} {p : Plan} (h : argument? param p = some text) :
    ∃ e, Site.Reads ⟨graph param, p, .unit⟩ ⟨⟨1⟩, 2⟩ e ∧ e.render = text := by
  obtain ⟨e, he, htext⟩ := Option.map_eq_some_iff.1 h
  refine ⟨e, Site.reads_iff.2 ?_, htext⟩
  rcases hrun : ((Site.input ⟨graph param, p, .unit⟩ .read ⟨⟨1⟩, 2⟩).run.run (.ofPlan p)).1 with
    err | e'
  · rw [hrun] at he
    exact absurd he nofun
  · rw [hrun] at he
    exact congrArg Except.ok (Option.some.inj he)

/-- A method with one parameter, called with the value that is connected to it. -/
theorem passes_inputs_attach : ∃ a, (graph "child").assemble {} = .ok a ∧
    calls a = ["world.Attach(child)"] ∧
    (∃ e, Site.Reads ⟨graph "child", a.plan, .unit⟩ ⟨⟨1⟩, 2⟩ e ∧ e.render = "child") ∧
    ∃ node, (graph "child").node? ⟨1⟩ = some node ∧
      node.ports.map Port.name = ["instance", "enter", "child", "exit"] ∧
      Site.PassesInputs ⟨graph "child", a.plan, .unit⟩ ⟨1⟩ node := by
  obtain ⟨a, ha, hfacts⟩ := exists_ok_of_any (x := (graph "child").assemble {}) (c := fun a =>
    decide (calls a = ["world.Attach(child)"] ∧ argument? "child" a.plan = some "child"))
    (by decide +kernel)
  obtain ⟨hcalls, hargument⟩ := of_decide_eq_true hfacts
  obtain ⟨-, hp, -⟩ := assemble_eq_ok ha
  obtain ⟨node, hnode, hnames⟩ := (Option.any_eq_true (fun node : Node =>
    decide (node.ports.map Port.name = ["instance", "enter", "child", "exit"]))
    ((graph "child").node? ⟨1⟩)).1 (by decide +kernel)
  exact ⟨a, ha, hcalls, reads_of_argument? hargument, node, hnode, of_decide_eq_true hnames,
    passes_inputs (reachable_build _ _) hp hnode .unit⟩

/-- If the parameter is named as the port for the receiver, then the receiver is passed for it and
what is connected to its own input is not. -/
theorem attach_passes_receiver : (graph "instance").Reachable ∧
    (graph "instance").kind? ⟨1⟩ = some (.member (.external (attach "instance"))) ∧
    (graph "instance").parameters? (.external (attach "instance")) =
      some (2, [("instance", .struct "World")]) ∧
    ∃ a, (graph "instance").assemble {} = .ok a ∧ calls a = ["world.Attach(world)"] ∧
      ∃ e, Site.Reads ⟨graph "instance", a.plan, .unit⟩ ⟨⟨1⟩, 2⟩ e ∧ e.render = "child" := by
  obtain ⟨a, ha, hfacts⟩ := exists_ok_of_any (x := (graph "instance").assemble {}) (c := fun a =>
    decide (calls a = ["world.Attach(world)"] ∧ argument? "instance" a.plan = some "child"))
    (by decide +kernel)
  obtain ⟨hcalls, hargument⟩ := of_decide_eq_true hfacts
  exact ⟨reachable_build _ _, by decide +kernel, rfl, a, ha, hcalls, reads_of_argument? hargument⟩

end Attaching

end Graph

end EntityFlow
