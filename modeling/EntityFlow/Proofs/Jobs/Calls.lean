import EntityFlow.Proofs.Generation.Entities
import EntityFlow.Proofs.Generation.Handles
import EntityFlow.Proofs.Generation.Parts
import EntityFlow.Proofs.Jobs.Names

/-!
# Sort keys and arguments

A parallel job that writes to entities orders what it writes by a key, a parameter of its method.
The functions it copies get the key as one parameter more.  The call, the copied method and the
write each decide on their own whether there is a key, and all of them ask the job: so arguments and
parameters agree, through any depth of calls.
-/

namespace EntityFlow

open Declaration (Method Param)

/-! ## Calls at a site -/

/-- A call on a command buffer that some node stands for: the sort key, if there is one, and then an
argument for each input. -/
def Graph.Writes (g : Graph) (key : Option String) (method : String) (generics : List String)
    (args : List Expr) : Prop :=
  ∃ n kind m own, g.kind? n = some kind ∧ kind.bufferMethod? = some m ∧ m.name = method ∧
    m.generics = generics ∧ args = key.toList.map Expr.ident ++ own ∧ own.length = m.inputs.length

/-- A call of a function that some node stands for: an argument for each parameter, and then the
key, if one is passed on. -/
structure Site.Calls (s : Site) (m : MemberId) (qualifier : Option String) (name : String)
    (args : List Expr) : Prop where
  node : ∃ n, s.graph.kind? n = some (.member (.function m))
  qualifier : qualifier = s.qualifier? m
  name : s.plan.symbols.get? (.member m) = some name
  args : ∃ own, args = own ++ (s.forwardedSortKey? m).toList.map Expr.ident ∧
    own.length = (s.functionParams m).length

/-- Calls of functions of the unit, and of methods of something. -/
def Expr.isCall : Expr → Bool
  | .call _ _ _ _ | .invokeOn _ _ _ _ => true
  | _ => false

namespace Site

open Planning

variable {s : Site} {g : Graph} {p : Plan} {scope : Scope} {N : Ledger} {e : Expr} {field : String}

/-- If the expression calls a function of the unit or the command buffer of the job, then with the
arguments that the site asks for. -/
structure Conforms (s : Site) (e : Expr) : Prop where
  call : ∀ m qualifier name args, e = .call m qualifier name args → s.Calls m qualifier name args
  buffer : ∀ f, s.field? .commandBuffer = some f → ∀ method generics args,
    e = .invokeOn (.capture f.name) method generics args →
      s.graph.Writes s.sortKey? method generics args

/-- What is no call conforms to every signature. -/
theorem conforms_of_other (h : e.isCall = false) : s.Conforms e where
  call := by
    rintro m qualifier name args rfl
    simp [Expr.isCall] at h
  buffer := by
    rintro f hf method generics args rfl
    simp [Expr.isCall] at h

/-- A call on anything but the command buffer conforms. -/
theorem conforms_invokeOn {target : Expr} {method : String} {generics : List String}
    {args : List Expr} (h : ∀ f, s.field? .commandBuffer = some f → target ≠ .capture f.name) :
    s.Conforms (.invokeOn target method generics args) where
  call := nofun
  buffer := by
    intro f hf _ _ _ heq
    exact absurd (Expr.invokeOn.inj heq).1 (h f hf)

theorem every_leaf (hleaf : e.parts = [e]) (h : e.isCall = false) : e.Every s.Conforms :=
  Expr.every_of_leaf hleaf (conforms_of_other h)

theorem every_ident (name : String) : (Expr.ident name).Every s.Conforms := every_leaf rfl rfl

/-- What outputs read as holds no calls. -/
theorem every_binding {output : PortRef} {b : Binding} (hp : Plan.make g = .ok p)
    (hb : p.binding? output = some b) (access : Access) : (b.expr access).Every s.Conforms := by
  rcases (sound_make hp).bound_of_binding? hb with hnamed | ⟨-, name, -, rfl⟩
  · cases hnamed with
    | ident name => exact every_ident name
    | held name => exact (Expr.every_access _).2 ⟨conforms_of_other rfl, every_ident name⟩
    | wrapper name =>
      cases access <;> exact (Expr.every_access _).2 ⟨conforms_of_other rfl, every_ident name⟩
  · exact every_leaf rfl rfl

/-- Nor does what jobs are given from the plan. -/
theorem every_fits {n : NodeId} {owner : CaptureOwner} (h : Fits p n owner (.expression e)) :
    e.Every s.Conforms := by
  cases h with
  | copied m name => exact every_leaf rfl rfl
  | auto m name => exact every_leaf rfl rfl
  | lookup type =>
    exact (Expr.every_invokeOn _ _).2 ⟨conforms_invokeOn nofun, every_ident _,
      List.forall_mem_singleton.2 (every_ident _)⟩
  | buffer name h => exact every_leaf rfl rfl
  | writer name h =>
    exact (Expr.every_invokeOn _ _).2 ⟨conforms_invokeOn nofun, every_leaf rfl rfl,
      List.forall_mem_nil _⟩

/-- A field is made where an input is redirected to it. -/
theorem exists_redirect (hp : Plan.make g = .ok p) (he : Makes ⟨g, p, scope⟩ N (.capture field)) :
    ∃ input, redirect? ⟨g, p, scope⟩ input = some field := by
  generalize hx : Expr.capture field = x at he
  cases he with
  | captured h =>
    obtain rfl := Expr.capture.inj hx
    exact ⟨_, h⟩
  | bound access hb he =>
    rcases (sound_make hp).bound_of_binding? hb with hnamed | ⟨-, name, -, rfl⟩
    · cases hnamed with
      | ident name | held name => exact absurd (hx.trans he.symm) nofun
      | wrapper name => cases access <;> exact absurd (hx.trans he.symm) nofun
    · exact absurd (hx.trans he.symm) nofun
  | _ => exact absurd hx nofun

/-- The field of an input never has the name of the command buffer. -/
theorem redirect?_ne {f : CaptureField} (hg : g.Reachable) (hp : Plan.make g = .ok p)
    (hf : field? ⟨g, p, scope⟩ .commandBuffer = some f) (input : PortRef) :
    redirect? ⟨g, p, scope⟩ input ≠ some f.name := by
  intro hr
  obtain ⟨j, hj, rfl, source, f', -, hf', hname⟩ := exists_field_of_redirect? hg hp hr
  have hf : j.field? .commandBuffer = some f := by
    simpa [field?, job?, job?_of_mem hp hj] using hf
  have howner : f.owner = .commandBuffer := by simpa using List.find?_some hf
  have howner' : f'.owner = .port source := by simpa using List.find?_some hf'
  obtain ⟨b, -, hfurnished, -, ha⟩ := exists_furnished hg hp hj
  have hsame := owner_eq_of_name_eq hfurnished hg hp ha (List.mem_of_find?_eq_some hf)
    (List.mem_of_find?_eq_some hf') hname.symm (by simp [howner])
  rw [howner, howner'] at hsame
  cases hsame

/-- By induction on the form of the expression. -/
theorem Makes.every_conforms (hg : g.Reachable) (hp : Plan.make g = .ok p)
    (he : Makes ⟨g, p, scope⟩ N e) : e.Every (Conforms ⟨g, p, scope⟩) := by
  have hkey : ∀ o : Option String, ∀ x ∈ o.toList.map Expr.ident,
      x.Every (Conforms ⟨g, p, scope⟩) := by
    intro o x hx
    obtain ⟨key, -, rfl⟩ := List.mem_map.1 hx
    exact every_ident key
  induction he with
  | ident text => exact every_ident text
  | literal _ | captured _ | gap _ | handle _ | member _ => exact every_leaf rfl rfl
  | bound access hb he => exact he ▸ every_binding hp hb access
  | binary op _ _ hleft hright =>
    exact (Expr.every_binary op).2 ⟨conforms_of_other rfl, hleft, hright⟩
  | call hn hname hlength _ hargs =>
    refine (Expr.every_call _ _ _).2 ⟨⟨?_, nofun⟩, List.forall_mem_append.2 ⟨hargs, hkey _⟩⟩
    rintro m qualifier name args ⟨⟩
    exact ⟨⟨_, hn⟩, rfl, hname, _, rfl, hlength⟩
  | access name _ htarget => exact (Expr.every_access name).2 ⟨conforms_of_other rfl, htarget⟩
  | invoke method generics _ hargs =>
    exact (Expr.every_invoke method generics).2 ⟨conforms_of_other rfl, hargs⟩
  | invokeOn method generics hmade _ htarget hargs =>
    refine (Expr.every_invokeOn method generics).2 ⟨conforms_invokeOn ?_, htarget, hargs⟩
    -- A target that is a field is one that an input reads, and so another one.
    rintro f hf rfl
    obtain ⟨input, hr⟩ := exists_redirect hp hmade
    exact absurd hr (redirect?_ne hg hp hf input)
  | lookup _ _ hentity =>
    exact Expr.every_index.2
      ⟨conforms_of_other rfl, every_leaf rfl rfl, hentity⟩
  | write hkind hmethod hf hlength _ hargs =>
    refine (Expr.every_invokeOn _ _).2 ⟨⟨nofun, ?_⟩, every_leaf rfl rfl,
      List.forall_mem_append.2 ⟨hkey _, hargs⟩⟩
    intro f' _ method' generics' args' heq
    obtain ⟨-, rfl, rfl, rfl⟩ := Expr.invokeOn.inj heq
    exact ⟨_, _, _, _, hkind, hmethod, rfl, rfl, rfl, hlength⟩

/-- Every call in a body conforms, at any depth. -/
theorem Emits.conforms {ss : List Stmt} (hg : g.Reachable) (hp : Plan.make g = .ok p)
    (h : Emits ⟨g, p, scope⟩ N ss) : ∀ x ∈ Stmt.exprsIn ss, Conforms ⟨g, p, scope⟩ x := by
  refine h.forall_exprsIn (fun e he => he.every_conforms hg hp) fun j hj f hf e hsource => ?_
  obtain ⟨b, -, ⟨-, hequipped⟩, -⟩ := exists_equipped hp hj
  exact every_fits (hsource ▸ hequipped.fits f hf)

end Site

/-! ## Methods -/

/-- Up to 65536 items all of them are numbered. -/
theorem Naming.length_numbered {α : Type} {items : List α} (h : items.length ≤ 0x1_0000) :
    (numbered items).length = items.length := by
  simp [numbered, h]

namespace Declaration.Method

variable (m : Method)

/-- The method takes the arguments of a call with that name: one for each parameter, the last of
which is the key on both sides, if there is one. -/
structure Takes (key : Option String) (name : String) (args : List Expr) : Prop where
  name : m.name = name
  arity : args.length = m.params.length
  key : ∃ own params, args = own ++ key.toList.map Expr.ident ∧
    m.params = params ++ key.toList.map fun k => ⟨k, "int", .byValue, []⟩

end Declaration.Method

def JobBody.exprs (b : JobBody) : List Expr :=
  Stmt.exprsIn b.execute ++ b.functions.flatMap fun x => Stmt.exprsIn x.2

/-- All calls in a job, and in its copies of functions, conform. -/
theorem JobBody.Written.conforms {g : Graph} {p : Plan} {N : Ledger} {b : JobBody}
    (hg : g.Reachable) (hp : Plan.make g = .ok p) (h : b.Written g p N) :
    ∀ x ∈ b.exprs, Site.Conforms ⟨g, p, .job b.job.node⟩ x := by
  intro x hx
  rcases List.mem_append.1 hx with hx | hx
  · exact h.execute.conforms hg hp x hx
  · obtain ⟨y, hy, hx⟩ := List.mem_flatMap.1 hx
    exact (h.functions y hy).conforms hg hp x hx

namespace Assembly

open Planning

variable {g : Graph} {options : Options} {a : Assembly} {b : JobBody} {m : MemberId} {f : Function}
  {name : String} {args : List Expr} {p : Plan} {j : Job}

/-- A function declares all its parameters, up to 65536 of them. -/
theorem length_functionParams (hsize : f.params.length ≤ 0x1_0000) :
    (a.functionParams m f).length = f.params.length := by
  rw [functionParams, List.length_map, Naming.length_numbered hsize]

/-- A symbol is the name that the table has for it. -/
theorem symbol_eq (hname : a.plan.symbols.get? (.member m) = some name) :
    a.symbol (.member m) = name := by
  rw [symbol, hname]
  rfl

section Takes

variable (hf : a.graph.member? m = some (.function f)) (hsize : f.params.length ≤ 0x1_0000)
  (hname : a.plan.symbols.get? (.member m) = some name) (hargs : args.length = f.params.length)

include hf hsize hname hargs

/-- The method of a function takes an argument for each of its parameters. -/
theorem exists_functionMethod : ∃ method ∈ a.functionMethods, method.Takes none name args := by
  refine ⟨a.functionMethod m f, ?_, ?_, ?_, args, a.functionParams m f, ?_, ?_⟩
  · exact List.mem_filterMap.2 ⟨(m, .function f), Graph.mem_indexedMembers.2 hf, rfl⟩
  · exact (name_functionMethod m f).trans (symbol_eq hname)
  · rw [functionMethod, params_addParts, hargs]
    exact (length_functionParams hsize).symm
  · simp
  · rw [functionMethod, params_addParts]
    simp [functionHead]

/-- The copy of a function takes the key besides. -/
theorem exists_copiedMethod {body : List Stmt} (hm : (m, body) ∈ b.functions) :
    ∃ method ∈ a.copiedMethods b,
      method.Takes b.job.sortKey name (args ++ b.job.sortKey.toList.map Expr.ident) := by
  have hparams : (a.copiedMethod b.job m f body).params = a.functionParams m f ++
      b.job.sortKey.toList.map fun k => ⟨k, "int", .byValue, []⟩ := Method.params_addCode _ _ _
  refine ⟨a.copiedMethod b.job m f body, ?_, ?_, ?_, args, a.functionParams m f, rfl, hparams⟩
  · refine List.mem_filterMap.2 ⟨(m, body), hm, ?_⟩
    simp [Graph.function?, hf, Member.asFunction]
  · exact (Method.name_addCode _ _ _).trans (symbol_eq hname)
  · rw [hparams, List.length_append, List.length_append, hargs, length_functionParams hsize,
      List.length_map, List.length_map]

end Takes

/-! ## All calls -/

structure KeyAgrees (j : Job) : Prop where
  isSome : j.sortKey.isSome ↔ j.discipline.isParallel ∧ .commandBuffer ∈ j.owners
  param : ∀ key, j.sortKey = some key → ∃ x ∈ j.params, x.name = key

/-- The calls in the code of a job. -/
structure JobCallsAgree (g : Graph) (a : Assembly) (b : JobBody) : Prop where
  /-- Through the field that holds the command buffer. -/
  buffer : ∀ f ∈ b.job.fields, f.owner = .commandBuffer → ∀ method generics args,
    .invokeOn (.capture f.name) method generics args ∈ b.exprs →
      g.Writes b.job.sortKey method generics args
  copied : ∀ m qualifier name args, .call m qualifier name args ∈ b.exprs → m ∈ b.job.functions →
    qualifier = none ∧ ∃ method ∈ a.copiedMethods b, method.Takes b.job.sortKey name args
  static : ∀ m qualifier name args, .call m qualifier name args ∈ b.exprs →
    (g.member? m).any Member.isStatic → qualifier = some a.declaration.name ∧
      ∃ method ∈ a.functionMethods, method.Takes none name args

/-- The calls in all code of a unit. -/
structure CallsAgree (g : Graph) (a : Assembly) : Prop where
  jobs : ∀ b ∈ a.draft.jobs, JobCallsAgree g a b
  bodies : ∀ x ∈ a.draft.bodies, ∀ m qualifier name args,
    .call m qualifier name args ∈ Stmt.exprsIn x.2 →
      qualifier = none ∧ ∃ method ∈ a.functionMethods, method.Takes none name args

/-- A job has a sort key if it runs in parallel and holds the command buffer, and then a parameter
for it. -/
theorem keyAgrees (hg : g.Reachable) (hp : Plan.make g = .ok p) (hj : j ∈ p.jobs) :
    KeyAgrees j := by
  obtain ⟨b, hfurnished, hequipped, -⟩ := exists_furnished_equipped hg hp hj
  obtain ⟨_, ps, -, -, hkeyed⟩ := hfurnished.keyed
  constructor
  · rw [hkeyed.iff_isSome, hequipped.commandBuffer]
  · intro key hkey
    rw [hkey] at hkeyed
    exact hkeyed.exists_param

/-- What is called is a function of the unit, and there is an argument for each of its
parameters. -/
theorem exists_function {s : Site} {qualifier : Option String} (hg : s.graph.Reachable)
    (h : s.Calls m qualifier name args) : ∃ f own, s.graph.member? m = some (.function f) ∧
      args = own ++ (s.forwardedSortKey? m).toList.map Expr.ident ∧
      own.length = f.params.length := by
  obtain ⟨⟨n, hn⟩, -, -, own, hargs, hlength⟩ := h
  obtain ⟨node, hnode, hkind⟩ := Option.map_eq_some_iff.1 hn
  have hrefers := hg.invariant.refers n node hnode
  rw [hkind] at hrefers
  obtain ⟨f, hf⟩ := hrefers
  refine ⟨f, own, hf, hargs, hlength.trans ?_⟩
  simp [Site.functionParams, Graph.function?_eq_some.2 hf]

/-- The calls in a job agree with what the unit declares. -/
theorem jobCallsAgree (hg : g.Reachable) (ha : g.assemble options = .ok a)
    (hsize : ∀ m f, g.member? m = some (.function f) → f.params.length ≤ 0x1_0000)
    (hb : b ∈ a.draft.jobs) : JobCallsAgree g a b := by
  obtain ⟨rfl, hp, -⟩ := Graph.assemble_eq_ok ha
  have hwritten := (Graph.emitted_draft ha).jobs b hb
  have hconforms := hwritten.conforms hg hp
  obtain ⟨c, hfurnished, hequipped, hc⟩ := exists_furnished_equipped hg hp hwritten.job
  have hjob : a.plan.job? b.job.node = some b.job := job?_of_mem hp hwritten.job
  have hinstance : ∀ m ∈ b.job.functions, a.graph.IsInstanceFunction m := by
    intro m hm
    rw [hfurnished.functions] at hm
    exact Boundary.isInstanceFunction_of_mem hc hm
  constructor
  · intro f hf howner method generics args hx
    have hfield := Job.field?_of_mem hequipped.nodup hf
    rw [howner] at hfield
    have hwrites := (hconforms _ hx).buffer f (by simp [Site.field?, Site.job?, hjob, hfield])
      method generics args rfl
    simpa [Site.sortKey?, Site.job?, hjob] using hwrites
  · intro m qualifier name args hx hm
    have hcall := (hconforms _ hx).call m qualifier name args rfl
    obtain ⟨f, own, hf, rfl, hlength⟩ := exists_function hg hcall
    obtain ⟨f', hf', hinst⟩ := hinstance m hm
    obtain ⟨y, hy, rfl⟩ := List.mem_map.1 (hwritten.copies.symm ▸ hm)
    have hkey : Site.forwardedSortKey? ⟨a.graph, a.plan, .job b.job.node⟩ y.1 = b.job.sortKey := by
      simp [Site.forwardedSortKey?, Site.job?, hjob, hm]
    rw [hkey]
    refine ⟨hcall.qualifier.trans ?_, exists_copiedMethod hf (hsize _ f hf) hcall.name hlength hy⟩
    simp [Site.qualifier?, hf', Member.isStatic, hinst]
  · intro m qualifier name args hx hstatic
    have hcall := (hconforms _ hx).call m qualifier name args rfl
    obtain ⟨f, own, hf, rfl, hlength⟩ := exists_function hg hcall
    have hm : m ∉ b.job.functions := by
      intro hm
      obtain ⟨f', hf', hinst⟩ := hinstance m hm
      simp [hf', Member.isStatic, hinst] at hstatic
    have hkey : Site.forwardedSortKey? ⟨a.graph, a.plan, .job b.job.node⟩ m = none := by
      simp [Site.forwardedSortKey?, Site.job?, hjob, hm]
    obtain ⟨unit, hunit⟩ := exists_unitName hp
    rw [hkey]
    refine ⟨hcall.qualifier.trans ?_, ?_⟩
    · simp [Site.qualifier?, Site.isJob, hstatic, declaration, symbol, hunit]
    · exact exists_functionMethod hf (hsize _ f hf) hcall.name (by simpa using hlength)

/-- The keys of all jobs that are planned, and every call that is generated, pass what is taken. -/
theorem make_callsAgree (hg : g.Reachable)
    (hsize : ∀ m f, g.member? m = some (.function f) → f.params.length ≤ 0x1_0000)
    (hp : Plan.make g = .ok p) : (∀ j ∈ p.jobs, KeyAgrees j) ∧
      ∀ options a, g.assemble options = .ok a → a.plan = p ∧ CallsAgree g a := by
  refine ⟨fun j hj => keyAgrees hg hp hj, fun options a ha => ?_⟩
  obtain ⟨rfl, hp', -⟩ := Graph.assemble_eq_ok ha
  obtain rfl := Except.ok.inj (hp'.symm.trans hp)
  refine ⟨rfl, fun b hb => jobCallsAgree hg ha hsize hb, ?_⟩
  intro x hx m qualifier name args hcall
  obtain ⟨scope, hlands, hbody⟩ := (Graph.emitted_draft ha).bodies x hx
  have hcall := (hbody.conforms hg hp _ hcall).call m qualifier name args rfl
  obtain ⟨f, own, hf, rfl, hlength⟩ := exists_function hg hcall
  -- Outside jobs no key is passed on, and no member needs the unit's name.
  have hscope : Site.forwardedSortKey? ⟨a.graph, a.plan, scope⟩ m = none ∧
      Site.qualifier? ⟨a.graph, a.plan, scope⟩ m = none := by
    cases hlands with
    | event e h => exact ⟨rfl, rfl⟩
    | function f h => exact ⟨rfl, rfl⟩
  rw [hscope.1]
  exact ⟨hcall.qualifier.trans hscope.2,
    exists_functionMethod hf (hsize _ f hf) hcall.name (by simpa using hlength)⟩

/-- The key is passed to the copy of the function, which passes it to the command buffer. -/
theorem make_callsAgree_mixed : ∃ a, Mixed.graph.assemble {} = .ok a ∧
    (∀ j ∈ a.plan.jobs, KeyAgrees j) ∧ CallsAgree Mixed.graph a ∧ ∃ b ∈ a.draft.jobs,
      b.job.sortKey = some "sortKey" ∧
      (a.copiedMethods b).map Method.signature = ["public void Spawn(int amount, int sortKey)"] ∧
      ["Spawn(default /* unresolved: amount */, sortKey)", "ecb.CreateEntity(sortKey)"] ⊆
        b.exprs.map Expr.render := by
  have hsize : ∀ m f, Mixed.graph.member? m = some (.function f) → f.params.length ≤ 0x1_0000 := by
    have hall : ∀ x ∈ Mixed.graph.members, ∀ f ∈ x.asFunction, f.params.length ≤ 0x1_0000 := by
      decide +kernel
    intro m f hm
    exact hall _ (List.mem_of_getElem? hm) f rfl
  obtain ⟨a, ha, hany⟩ := exists_ok_of_any (x := Mixed.graph.assemble {})
    (c := fun a => a.draft.jobs.any fun b => b.job.sortKey = some "sortKey" ∧
      (a.copiedMethods b).map Method.signature = ["public void Spawn(int amount, int sortKey)"] ∧
      ["Spawn(default /* unresolved: amount */, sortKey)", "ecb.CreateEntity(sortKey)"] ⊆
        b.exprs.map Expr.render) (by decide +kernel)
  obtain ⟨b, hb, hcalls⟩ := List.any_eq_true.1 hany
  obtain ⟨-, hp, -⟩ := Graph.assemble_eq_ok ha
  obtain ⟨hkeys, hagree⟩ := make_callsAgree (Graph.reachable_build _ _) hsize hp
  exact ⟨a, ha, hkeys, (hagree _ a ha).2, b, hb, of_decide_eq_true hcalls⟩

end Assembly

end EntityFlow
