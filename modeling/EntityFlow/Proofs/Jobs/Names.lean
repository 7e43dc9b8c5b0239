import EntityFlow.Proofs.Boundary.Members
import EntityFlow.Proofs.Planning.Holdings

/-!
# Names in the type of a job

Fields, parameters and the copies of properties and functions share one scope.  Each declaration has
its name either from a symbol or, for a lookup, from nowhere else.  Symbols are never given the same
name, so two declarations that meet are about the same symbol: that of a port of the boundary, found
twice by name, or that of an auto property, which is captured and copied.  A parameter stands for
the port that it was made for; the sort key over entities stands for none.
-/

namespace EntityFlow

/-! ## Declarations -/

namespace Job

inductive Decl where
  | field (f : CaptureField)
  /-- A parameter that was made for a port of the boundary. -/
  | param (q : Planning.PortRequest) (x : Declaration.Param)
  /-- A parameter that was made for no port. -/
  | sortKey (x : Declaration.Param)
  /-- The copy of a property of the unit. -/
  | property (m : MemberId)
  /-- The copy of a function of the unit. -/
  | function (m : MemberId)

def Decl.name (p : Plan) : Decl → String
  | .field f => f.name
  | .param _ x | .sortKey x => x.name
  | .property m | .function m => (p.symbols.get? (.member m)).getD ""

/-- Parameters with the requests that they were made for; what is left of them was made for none. -/
def paramDecls (qs : List Planning.PortRequest) (xs : List Declaration.Param) : List Decl :=
  (qs.zip xs).map (fun y => .param y.1 y.2) ++ (xs.drop qs.length).map .sortKey

/-- The declarations in the type of a job, with the parameters of its method. -/
def decls (j : Job) (qs : List Planning.PortRequest) : List Decl :=
  j.fields.map .field ++ (paramDecls qs j.params ++ (j.properties.map .property ++
    j.functions.map .function))

end Job

namespace Planning

open Naming Job

variable {g : Graph} {p : Plan} {b : Boundary} {j : Job} {f f' : CaptureField} {d d' : Decl}
  {x x' : Declaration.Param} {n : NodeId} {r : PortRef} {q : PortRequest} {qs : List PortRequest}

/-- The declaration stands for that port of the node, which it finds by name. -/
inductive AtPort (g : Graph) (n : NodeId) : Decl → PortRef → Prop
  | jobVariable {f : CaptureField} {i : Nat} {v : JobVariable} {r : PortRef}
      (howner : f.owner = .jobVariable i) (hv : (g.jobVariables n)[i]? = some v)
      (hr : g.portRef? n v.name = some r) : AtPort g n (.field f) r
  | param {q : PortRequest} {x : Declaration.Param} {r : PortRef}
      (hr : g.portRef? n q.port = some r) : AtPort g n (.param q x) r

/-- The job has its parameters for these of the ports that its node asks for, in this order.  One
more parameter is its sort key. -/
structure MadeFor (g : Graph) (p : Plan) (j : Job) (qs : List PortRequest) : Prop where
  asked : qs.Sublist (portRequests g j.node)
  params : ∃ (ps : List Declaration.Param) (key : Option Declaration.Param),
    j.params = ps ++ key.toList ∧
    List.Forall₂ (fun q x => PortRequest.param? g p.symbols j.node q = some x) qs ps ∧
    ∀ x ∈ key, p.symbols.get? (sortKeyKey j.node) = some x.name ∧ j.sortKey = some x.name
  /-- The sort key is that one, or over chunks the parameter for their index. -/
  sortKey : ∀ key, j.sortKey = some key → ∃ d ∈ paramDecls qs j.params, d.name p = key ∧
    ((∃ x, d = .sortKey x) ∨
      ∃ r, g.portRef? j.node PortName.chunkIndex = some r ∧ AtPort g j.node d r)

/-- Two declarations that may have the same name. -/
inductive Shares (g : Graph) (n : NodeId) : Decl → Decl → Prop
  | port {d d' : Decl} {r : PortRef} (h : AtPort g n d r) (h' : AtPort g n d' r) :
      Shares g n d d'
  /-- The capture of an auto property, and its copy. -/
  | auto {f : CaptureField} {m : MemberId} (howner : f.owner = .property m) :
      Shares g n (.field f) (.property m)

/-! ## Where names come from -/

/-- Where a name comes from. -/
inductive Origin where
  | symbol (key : SymbolKey)
  /-- A new name, for the lookup of that component. -/
  | lookup (component : String)

def Origin.Gives (t : SymbolTable) (name : String) : Origin → Prop
  | .symbol key => t.get? key = some name
  | .lookup _ => t.Avoids [name] ∧ name ∉ Text.reservedWords

/-- Where the name of a declaration comes from. -/
inductive Comes (g : Graph) (b : Boundary) : Decl → Origin → Prop
  | port {d : Decl} {r : PortRef} (h : AtPort g b.node d r) (hnode : r.node = b.node) :
      Comes g b d (.symbol (.port r))
  | crossing {f : CaptureField} {source : PortRef} (howner : f.owner = .port source)
      (hnode : source.node ≠ b.node) : Comes g b (.field f) (.symbol (.port source))
  | capture {f : CaptureField} {source : PortRef} (howner : f.owner = .port source) :
      Comes g b (.field f) (.symbol (.capture b.node source))
  | copied {f : CaptureField} {m : MemberId} {v : Variable} (howner : f.owner = .variable m)
      (hm : g.member? m = some (.variable v)) : Comes g b (.field f) (.symbol (.member m))
  | auto {f : CaptureField} {m : MemberId} {prop : Property} (howner : f.owner = .property m)
      (hm : g.member? m = some (.property prop)) : Comes g b (.field f) (.symbol (.member m))
  | lookup {f : CaptureField} {component : String} (howner : f.owner = .lookup component) :
      Comes g b (.field f) (.lookup component)
  | commandBuffer {f : CaptureField} (howner : f.owner = .commandBuffer) :
      Comes g b (.field f) (.symbol (.unit "ecb"))
  | sortKey {x : Declaration.Param} : Comes g b (.sortKey x) (.symbol (.node b.node "sortKey"))
  | property {m : MemberId} {prop : Property} (hm : g.member? m = some (.property prop)) :
      Comes g b (.property m) (.symbol (.member m))
  | function {m : MemberId} {fn : Function} (hm : g.member? m = some (.function fn)) :
      Comes g b (.function m) (.symbol (.member m))

theorem node_of_portRef? {port : String} (hr : g.portRef? n port = some r) : r.node = n := by
  unfold Graph.portRef? at hr
  cases hport : g.portRef n port with
  | error e => simp [hport, Except.toOption] at hr
  | ok r' =>
    obtain rfl : r' = r := by simpa [hport, Except.toOption] using hr
    exact Graph.node_of_portRef hport

/-- Parameters that were asked for come first, and the sort key after them. -/
theorem paramDecls_append {ps rest : List Declaration.Param} (h : qs.length = ps.length) :
    paramDecls qs (ps ++ rest) =
      (qs.zip ps).map (fun y => .param y.1 y.2) ++ rest.map .sortKey := by
  have hzip : (qs ++ []).zip (ps ++ rest) = qs.zip ps ++ [].zip rest := List.zip_append h
  rw [List.append_nil, List.zip_nil_left, List.append_nil] at hzip
  rw [paramDecls, hzip, h, List.drop_left]

theorem eq_param_or_sortKey {xs : List Declaration.Param} (hd : d ∈ paramDecls qs xs) :
    (∃ q x, d = .param q x) ∨ ∃ x, d = .sortKey x := by
  rcases List.mem_append.1 hd with hd | hd
  · obtain ⟨y, -, rfl⟩ := List.mem_map.1 hd
    exact .inl ⟨_, _, rfl⟩
  · obtain ⟨x, -, rfl⟩ := List.mem_map.1 hd
    exact .inr ⟨_, rfl⟩

/-- The requests behind the parameters of a job. -/
theorem exists_madeFor (hj : Furnished g p b j) (ht : p.symbols.Tidy) : ∃ qs, MadeFor g p j qs := by
  obtain ⟨qs, ps, hasked, hps, hkeyed⟩ := hj.keyed
  rw [← hj.node] at hasked hps hkeyed
  generalize hparams : j.params = params at hkeyed
  generalize hsortKey : j.sortKey = sortKey at hkeyed
  cases hkeyed with
  | none =>
    refine ⟨qs, hasked, ⟨ps, none, by simp [hparams], hps, nofun⟩, ?_⟩
    simp [hsortKey]
  | chunk _ hr hname hx =>
    refine ⟨qs, hasked, ⟨ps, none, by simp [hparams], hps, nofun⟩, fun key hkey => ?_⟩
    obtain rfl := Option.some.inj (hsortKey.symm.trans hkey)
    rw [← List.map_snd_zip hps.length_eq.ge, List.mem_map] at hx
    obtain ⟨⟨q, x⟩, hq, rfl⟩ := hx
    obtain ⟨r', name, hr', hname', rfl⟩ := portParam?_eq_some.1 ((List.forall₂_iff_zip.1 hps).2 hq)
    obtain rfl := SymbolKey.port.inj (ht.key_eq hname hname')
    exact ⟨.param q _, List.mem_append_left _ (List.mem_map.2 ⟨_, hparams ▸ hq, rfl⟩), rfl,
      .inr ⟨_, hr, .param hr'⟩⟩
  | entity _ hname =>
    refine ⟨qs, hasked, ⟨ps, some _, hparams, hps, fun x hx => ?_⟩, fun key hkey => ?_⟩
    · obtain rfl := Option.some.inj hx
      exact ⟨hname, hsortKey⟩
    · obtain rfl := Option.some.inj (hsortKey.symm.trans hkey)
      rw [hparams, paramDecls_append hps.length_eq]
      exact ⟨_, List.mem_append_right _ (List.mem_singleton_self _), rfl, .inl ⟨_, rfl⟩⟩

section Furnished

variable (hj : Furnished g p b j) (hg : g.Reachable) (hp : Plan.make g = .ok p)
  (ha : Boundary.analyze? g b.node b.body = some b)

include hj hg ha in
/-- Every field has an origin that gives it its name. -/
theorem exists_comes_field (hf : f ∈ j.fields) :
    ∃ o, Comes g b (.field f) o ∧ o.Gives p.symbols f.name := by
  cases hj.held f hf with
  | jobVariable hv hr hname =>
    exact ⟨_, .port (.jobVariable rfl hv hr) (node_of_portRef? hr), hname⟩
  | crossing hcrossing hname =>
    rcases hname with hname | hname
    · exact ⟨_, .crossing rfl (Boundary.node_ne_of_mem_crossings hg.invariant ha hcrossing), hname⟩
    · exact ⟨_, .capture rfl, hname⟩
  | copied hm hname =>
    obtain ⟨v, hv⟩ := Boundary.exists_variable_of_mem hg.invariant ha hm
    exact ⟨_, .copied rfl hv, hname⟩
  | auto hm hprop hname => exact ⟨_, .auto rfl hprop, hname⟩
  | lookup hname hword => exact ⟨_, .lookup rfl, hname, hword⟩
  | commandBuffer hname => exact ⟨_, .commandBuffer rfl, hname⟩

include hj in
/-- Every parameter has an origin that gives it its name. -/
theorem exists_comes_param (hqs : MadeFor g p j qs) (hd : d ∈ paramDecls qs j.params) :
    ∃ o, Comes g b d o ∧ o.Gives p.symbols (d.name p) := by
  obtain ⟨ps, key, hparams, hps, hkey⟩ := hqs.params
  rw [hj.node] at hps hkey
  rw [hparams, paramDecls_append hps.length_eq] at hd
  rcases List.mem_append.1 hd with hd | hd
  · obtain ⟨⟨q, x⟩, hmem, rfl⟩ := List.mem_map.1 hd
    obtain ⟨r, name, hr, hname, rfl⟩ := portParam?_eq_some.1 ((List.forall₂_iff_zip.1 hps).2 hmem)
    exact ⟨_, .port (.param hr) (node_of_portRef? hr), hname⟩
  · obtain ⟨x, hx, rfl⟩ := List.mem_map.1 hd
    exact ⟨_, .sortKey, (hkey x (Option.mem_toList.1 hx)).1⟩

include hj hg hp ha in
/-- Every declaration has its name from somewhere. -/
theorem exists_comes (hqs : MadeFor g p j qs) (hd : d ∈ j.decls qs) :
    ∃ o, Comes g b d o ∧ o.Gives p.symbols (d.name p) := by
  have hmember : ∀ {m : MemberId} {y : Member}, g.member? m = some y →
      p.symbols.get? (.member m) = some ((p.symbols.get? (.member m)).getD "") := by
    intro m y hm
    obtain ⟨name, hname⟩ := (complete_make hg hp).members m y hm
    rw [hname]
    rfl
  simp only [decls, List.mem_append, List.mem_map] at hd
  rcases hd with ⟨f, hf, rfl⟩ | hx | ⟨m, hm, rfl⟩ | ⟨m, hm, rfl⟩
  · exact exists_comes_field hj hg ha hf
  · exact exists_comes_param hj hqs hx
  · obtain ⟨prop, hprop⟩ := Boundary.exists_property_of_mem ha (hj.properties ▸ hm)
    exact ⟨_, .property hprop, hmember hprop⟩
  · obtain ⟨fn, hfn, -⟩ := Boundary.isInstanceFunction_of_mem ha (hj.functions ▸ hm)
    exact ⟨_, .function hfn, hmember hfn⟩

end Furnished

/-! ## Declarations that meet -/

theorem field_mem_decls : .field f ∈ j.decls qs ↔ f ∈ j.fields := by
  have hparams : .field f ∉ paramDecls qs j.params := by
    intro h
    rcases eq_param_or_sortKey h with ⟨q, x, heq⟩ | ⟨x, heq⟩ <;> exact nomatch heq
  simp [decls, hparams]

theorem param_mem_decls (h : d ∈ paramDecls qs j.params) : d ∈ j.decls qs := by simp [decls, h]

theorem property_mem_decls {m : MemberId} (h : m ∈ j.properties) : .property m ∈ j.decls qs := by
  simp [decls, h]

theorem function_mem_decls {m : MemberId} (h : m ∈ j.functions) : .function m ∈ j.decls qs := by
  simp [decls, h]

/-- A parameter is no copy of a member. -/
theorem ne_copy_of_mem_paramDecls {xs : List Declaration.Param} (hd : d ∈ paramDecls qs xs) :
    (∀ m, d ≠ .property m) ∧ ∀ m, d ≠ .function m := by
  rcases eq_param_or_sortKey hd with ⟨q, x, rfl⟩ | ⟨x, rfl⟩ <;> exact ⟨nofun, nofun⟩

/-- What a parameter was made for does not change its name. -/
theorem map_name_decls (hqs : MadeFor g p j qs) :
    (j.decls qs).map (Decl.name p) = (j.decls []).map (Decl.name p) := by
  obtain ⟨ps, key, hparams, hps, -⟩ := hqs.params
  have hports : (qs.zip ps).map (Decl.name p ∘ fun y => .param y.1 y.2) = ps.map (·.name) := by
    calc (qs.zip ps).map (Decl.name p ∘ fun y => .param y.1 y.2)
      _ = ((qs.zip ps).map Prod.snd).map (·.name) := by rw [List.map_map]; rfl
      _ = ps.map (·.name) := by rw [List.map_snd_zip hps.length_eq.ge]
  simp only [decls, List.map_append, hparams, paramDecls_append hps.length_eq, List.map_map, hports]
  simp [paramDecls, Function.comp_def, Decl.name]

/-- Declarations of the same name have it from the same place. -/
theorem origin_eq {o o' : Origin} (hj : Furnished g p b j) (ht : p.symbols.Tidy)
    (hd : d ∈ j.decls qs) (hd' : d' ∈ j.decls qs) (hc : Comes g b d o) (hc' : Comes g b d' o')
    (ho : o.Gives p.symbols (d.name p)) (ho' : o'.Gives p.symbols (d'.name p))
    (hname : d.name p = d'.name p) : o = o' := by
  cases o with
  | symbol key =>
    cases o' with
    | symbol key' => exact congrArg _ (ht.key_eq ho (hname ▸ ho'))
    | lookup c => exact absurd ho (ho'.1.get?_ne (by simp [hname]))
  | lookup c =>
    cases o' with
    | symbol key' => exact absurd ho' (ho.1.get?_ne (by simp [hname]))
    | lookup c' =>
      cases hc with
      | lookup howner =>
        cases hc' with
        | lookup howner' =>
          exact congrArg _ (hj.apart _ (field_mem_decls.1 hd) _ (field_mem_decls.1 hd') _ _
            howner howner' hname)

namespace Comes

variable {o : Origin} {m : MemberId} {q' : PortRequest}

/-- Two fields that hold different things meet only at a port of the boundary. -/
theorem shares_field (h : Comes g b (.field f) o) (h' : Comes g b (.field f') o)
    (hne : f.owner ≠ f'.owner) : Shares g b.node (.field f) (.field f') := by
  have hsame : ∀ owner, f.owner = owner → f'.owner = owner →
      Shares g b.node (.field f) (.field f') := by
    intro owner howner howner'
    exact absurd (howner.trans howner'.symm) hne
  cases h with
  | port hr hnode =>
    cases h' with
    | port hr' hnode' => exact .port hr hr'
    | crossing howner' hnode' => exact absurd hnode hnode'
  | crossing howner hnode =>
    cases h' with
    | port hr' hnode' => exact absurd hnode' hnode
    | crossing howner' hnode' => exact hsame _ howner howner'
  | capture howner =>
    cases h' with
    | capture howner' => exact hsame _ howner howner'
  | copied howner hm =>
    cases h' with
    | copied howner' hm' => exact hsame _ howner howner'
    | auto howner' hm' => exact absurd (Option.some.inj (hm.symm.trans hm')) nofun
  | auto howner hm =>
    cases h' with
    | copied howner' hm' => exact absurd (Option.some.inj (hm.symm.trans hm')) nofun
    | auto howner' hm' => exact hsame _ howner howner'
  | lookup howner =>
    cases h' with
    | lookup howner' => exact hsame _ howner howner'
  | commandBuffer howner =>
    cases h' with
    | commandBuffer howner' => exact hsame _ howner howner'

/-- A field and a parameter with one origin meet at a port of the boundary. -/
theorem shares_param (h : Comes g b (.field f) o) (h' : Comes g b (.param q x) o) :
    Shares g b.node (.field f) (.param q x) := by
  cases h' with
  | port hr' hnode' =>
    cases h with
    | port hr hnode => exact .port hr hr'
    | crossing howner hnode => exact absurd hnode' hnode

/-- Two parameters with one origin meet at a port of the boundary. -/
theorem shares_params (h : Comes g b (.param q x) o) (h' : Comes g b (.param q' x') o) :
    Shares g b.node (.param q x) (.param q' x') := by
  cases h with
  | port hr hnode =>
    cases h' with
    | port hr' hnode' => exact .port hr hr'

/-- Nothing else meets the sort key. -/
theorem eq_sortKey (h : Comes g b d o) (h' : Comes g b (.sortKey x) o) : ∃ y, d = .sortKey y := by
  cases h' with
  | port hr' => exact nomatch hr'
  | sortKey =>
    cases h with
    | sortKey => exact ⟨_, rfl⟩

/-- What meets the copy of a property is that copy, or a field that captures the property. -/
theorem eq_or_shares_property (h : Comes g b d o) (h' : Comes g b (.property m) o) :
    d = .property m ∨ Shares g b.node d (.property m) := by
  cases h' with
  | port hr' => exact nomatch hr'
  | property hm' =>
    cases h with
    | copied howner hm => exact absurd (Option.some.inj (hm.symm.trans hm')) nofun
    | auto howner hm => exact .inr (.auto howner)
    | property hm => exact .inl rfl
    | function hm => exact absurd (Option.some.inj (hm.symm.trans hm')) nofun

/-- Nothing else meets the copy of a function. -/
theorem eq_function (h : Comes g b d o) (h' : Comes g b (.function m) o) : d = .function m := by
  cases h' with
  | port hr' => exact nomatch hr'
  | function hm' =>
    cases h with
    | copied howner hm => exact absurd (Option.some.inj (hm.symm.trans hm')) nofun
    | auto howner hm => exact absurd (Option.some.inj (hm.symm.trans hm')) nofun
    | property hm => exact absurd (Option.some.inj (hm.symm.trans hm')) nofun
    | function hm => rfl

end Comes

/-! ## The whole type -/

/-- No field or parameter has the origin of a type name. -/
theorem Comes.key_ne {key : SymbolKey} (h : Comes g b d (.symbol key)) :
    key ≠ typeKey b.node ∧ key ≠ unitKey := by
  cases h <;> simp [typeKey, unitKey]

/-- No name that an origin gives is a reserved word. -/
theorem Origin.Gives.not_word {o : Origin} {name : String} (h : o.Gives p.symbols name)
    (ht : p.symbols.Tidy) : name ∉ Text.reservedWords := by
  cases o with
  | symbol key => exact ht.not_word h
  | lookup c => exact h.2

/-- A name of another symbol is none of the declarations'. -/
theorem Comes.name_ne {o : Origin} {key : SymbolKey} {name other : String} (h : Comes g b d o)
    (hgives : o.Gives p.symbols name) (ht : p.symbols.Tidy)
    (hother : p.symbols.get? key = some other) (hkey : ∀ k, o = .symbol k → k ≠ key) :
    name ≠ other := by
  rintro rfl
  cases o with
  | symbol k => exact hkey k rfl (ht.key_eq hgives hother)
  | lookup c => exact hgives.1.get?_ne (List.mem_singleton_self _) hother

section Meet

variable (hj : Furnished g p b j) (hg : g.Reachable) (hp : Plan.make g = .ok p)
  (ha : Boundary.analyze? g b.node b.body = some b)

include hj hg hp ha

/-- Declarations of the same name have it from one place. -/
theorem exists_origin (hqs : MadeFor g p j qs) (hd : d ∈ j.decls qs) (hd' : d' ∈ j.decls qs)
    (hname : d.name p = d'.name p) : ∃ o, Comes g b d o ∧ Comes g b d' o := by
  obtain ⟨o, hc, ho⟩ := exists_comes hj hg hp ha hqs hd
  obtain ⟨o', hc', ho'⟩ := exists_comes hj hg hp ha hqs hd'
  obtain rfl := origin_eq hj (tidy_make hp) hd hd' hc hc' ho ho' hname
  exact ⟨o, hc, hc'⟩

/-- Only fields for variables can have the name of another field. -/
theorem owner_eq_of_name_eq (hf : f ∈ j.fields) (hf' : f' ∈ j.fields) (hname : f.name = f'.name)
    (hvariable : ∀ i, f.owner ≠ .jobVariable i) : f.owner = f'.owner := by
  by_contra hne
  obtain ⟨qs, hqs⟩ := exists_madeFor hj (tidy_make hp)
  obtain ⟨o, hc, hc'⟩ := exists_origin hj hg hp ha hqs (field_mem_decls.2 hf)
    (field_mem_decls.2 hf') hname
  cases hc.shares_field hc' hne with
  | port hr hr' =>
    cases hr with
    | jobVariable howner => exact hvariable _ howner

/-- Parameters meet only at a port of the boundary.  There is at most one sort key, and it meets
none of them. -/
theorem pairwise_paramDecls (hqs : MadeFor g p j qs) :
    (paramDecls qs j.params).Pairwise fun d d' => d.name p = d'.name p → Shares g b.node d d' := by
  have hmeet : ∀ d ∈ paramDecls qs j.params, ∀ d' ∈ paramDecls qs j.params, d.name p = d'.name p →
      ∃ o, Comes g b d o ∧ Comes g b d' o := fun d hd d' hd' =>
    exists_origin hj hg hp ha hqs (param_mem_decls hd) (param_mem_decls hd')
  obtain ⟨ps, key, hparams, hps, -⟩ := hqs.params
  rw [hparams, paramDecls_append hps.length_eq] at hmeet ⊢
  simp only [List.forall_mem_append, List.forall_mem_map] at hmeet
  obtain ⟨hports, -⟩ := hmeet
  refine List.pairwise_append.2 ⟨?_, ?_, ?_⟩
  · refine List.pairwise_of_forall_mem_list fun d hd d' hd' hname => ?_
    obtain ⟨y, hy, rfl⟩ := List.mem_map.1 hd
    obtain ⟨y', hy', rfl⟩ := List.mem_map.1 hd'
    obtain ⟨o, hc, hc'⟩ := (hports y hy).1 y' hy' hname
    exact hc.shares_params hc'
  · cases key with
    | none => exact .nil
    | some x => exact List.pairwise_singleton _ _
  · simp only [List.forall_mem_map]
    intro y hy x hx hname
    obtain ⟨o, hc, hc'⟩ := (hports y hy).2 x hx hname
    obtain ⟨_, heq⟩ := hc.eq_sortKey hc'
    exact nomatch heq

/-- Copies of members meet nothing but themselves. -/
theorem pairwise_copies (hqs : MadeFor g p j qs) :
    (j.properties.map Decl.property ++ j.functions.map Decl.function).Pairwise
      fun d d' => d.name p = d'.name p → Shares g b.node d d' := by
  have hproperties : j.properties.Nodup := hj.properties ▸ Boundary.nodup_properties ha
  have hfunctions : j.functions.Nodup := hj.functions ▸ Boundary.nodup_functions ha
  refine List.pairwise_append.2 ⟨?_, ?_, ?_⟩
  · refine List.pairwise_map.2 (hproperties.imp_of_mem fun hm hm' hne hname => ?_)
    obtain ⟨o, hc, hc'⟩ := exists_origin hj hg hp ha hqs (property_mem_decls hm)
      (property_mem_decls hm') hname
    rcases hc.eq_or_shares_property hc' with heq | hshares
    · exact absurd (Decl.property.inj heq) hne
    · exact hshares
  · refine List.pairwise_map.2 (hfunctions.imp_of_mem fun hm hm' hne hname => ?_)
    obtain ⟨o, hc, hc'⟩ := exists_origin hj hg hp ha hqs (function_mem_decls hm)
      (function_mem_decls hm') hname
    exact absurd (Decl.function.inj (hc.eq_function hc')) hne
  · simp only [List.forall_mem_map]
    intro m hm m' hm' hname
    obtain ⟨o, hc, hc'⟩ := exists_origin hj hg hp ha hqs (property_mem_decls hm)
      (function_mem_decls hm') hname
    exact absurd (hc.eq_function hc') nofun

/-- Declarations with one name are those that may share it. -/
theorem pairwise_decls (hqs : MadeFor g p j qs) (howners : j.owners.Nodup) :
    (j.decls qs).Pairwise fun d d' => d.name p = d'.name p → Shares g b.node d d' := by
  have hmeet : ∀ d ∈ j.decls qs, ∀ d' ∈ j.decls qs, d.name p = d'.name p →
      ∃ o, Comes g b d o ∧ Comes g b d' o :=
    fun d hd d' hd' => exists_origin hj hg hp ha hqs hd hd'
  refine List.pairwise_append.2 ⟨?_, List.pairwise_append.2
    ⟨pairwise_paramDecls hj hg hp ha hqs, pairwise_copies hj hg hp ha hqs, ?_⟩, ?_⟩
  · refine List.pairwise_map.2 ((List.pairwise_map.1 howners).imp_of_mem ?_)
    intro f f' hf hf' hne hname
    obtain ⟨o, hc, hc'⟩ := hmeet _ (field_mem_decls.2 hf) _ (field_mem_decls.2 hf') hname
    exact hc.shares_field hc' hne
  · simp only [List.forall_mem_append, List.forall_mem_map]
    intro d hd
    obtain ⟨hproperty, hfunction⟩ := ne_copy_of_mem_paramDecls hd
    constructor
    · intro m hm hname
      obtain ⟨o, hc, hc'⟩ := hmeet _ (param_mem_decls hd) _ (property_mem_decls hm) hname
      exact (hc.eq_or_shares_property hc').resolve_left (hproperty m)
    · intro m hm hname
      obtain ⟨o, hc, hc'⟩ := hmeet _ (param_mem_decls hd) _ (function_mem_decls hm) hname
      exact absurd (hc.eq_function hc') (hfunction m)
  · simp only [List.forall_mem_append, List.forall_mem_map]
    intro f hf
    refine ⟨?_, ?_, ?_⟩
    · intro d hd hname
      obtain ⟨o, hc, hc'⟩ := hmeet _ (field_mem_decls.2 hf) _ (param_mem_decls hd) hname
      rcases eq_param_or_sortKey hd with ⟨q, x, rfl⟩ | ⟨x, rfl⟩
      · exact hc.shares_param hc'
      · obtain ⟨y, heq⟩ := hc.eq_sortKey hc'
        exact nomatch heq
    · intro m hm hname
      obtain ⟨o, hc, hc'⟩ := hmeet _ (field_mem_decls.2 hf) _ (property_mem_decls hm) hname
      exact (hc.eq_or_shares_property hc').resolve_left nofun
    · intro m hm hname
      obtain ⟨o, hc, hc'⟩ := hmeet _ (field_mem_decls.2 hf) _ (function_mem_decls hm) hname
      exact absurd (hc.eq_function hc') nofun

end Meet

/-- What is asked of the names in the type of a job, whose parameters were made for these ports. -/
structure NamesApart (g : Graph) (p : Plan) (j : Job) (qs : List PortRequest) : Prop where
  /-- No two fields hold the same. -/
  owners : j.owners.Nodup
  params : MadeFor g p j qs
  shared : (j.decls qs).Pairwise fun d d' => d.name p = d'.name p → Shares g j.node d d'
  typeName : ∀ d ∈ j.decls qs, d.name p ≠ j.typeName
  unitName : ∃ unit, p.symbols.get? unitKey = some unit ∧ ∀ d ∈ j.decls qs, d.name p ≠ unit
  words : ∀ d ∈ j.decls qs, d.name p ∉ Text.reservedWords

/-- In every job names are told apart, except for those of one port or of one captured property. -/
theorem job_namesApart (hg : g.Reachable) (hp : Plan.make g = .ok p) (hj : j ∈ p.jobs) :
    ∃ qs, NamesApart g p j qs := by
  have ht := tidy_make hp
  obtain ⟨b, -, hfurnished, -, ha⟩ := exists_furnished hg hp hj
  obtain ⟨_, -, ⟨-, hequipped⟩, -⟩ := exists_equipped hp hj
  obtain ⟨qs, hqs⟩ := exists_madeFor hfurnished ht
  have hcomes := fun d hd => exists_comes hfurnished hg hp ha hqs (d := d) hd
  obtain ⟨unit, hunit⟩ := exists_unitName hp
  refine ⟨qs, hequipped.nodup, hqs, ?_, ?_, ⟨unit, hunit, ?_⟩, ?_⟩
  · rw [hfurnished.node]
    exact pairwise_decls hfurnished hg hp ha hqs hequipped.nodup
  · intro d hd
    obtain ⟨o, hc, ho⟩ := hcomes d hd
    refine hc.name_ne ho ht hfurnished.typeName fun k hk => ?_
    subst hk
    exact hc.key_ne.1
  · intro d hd
    obtain ⟨o, hc, ho⟩ := hcomes d hd
    refine hc.name_ne ho ht hunit fun k hk => ?_
    subst hk
    exact hc.key_ne.2
  · intro d hd
    obtain ⟨o, -, ho⟩ := hcomes d hd
    exact ho.not_word ht

/-- Of ten declarations, two have the same name: the auto property is captured and copied. -/
theorem job_namesApart_mixed : ∃ p, Plan.make Mixed.graph = .ok p ∧ ∃ j ∈ p.jobs,
    ∃ qs, NamesApart Mixed.graph p j qs ∧ (j.decls qs).map (Decl.name p) =
      ["speed", "limit", "count", "Scale", "healthLookup", "ecb", "a", "sortKey", "Scale",
      "Spawn"] := by
  obtain ⟨p, hp, hany⟩ := exists_ok_of_any (x := Plan.make Mixed.graph)
    (c := fun p => p.jobs.any fun j => (j.decls []).map (Decl.name p) =
      ["speed", "limit", "count", "Scale", "healthLookup", "ecb", "a", "sortKey", "Scale", "Spawn"])
    (by decide +kernel)
  obtain ⟨j, hj, hnames⟩ := List.any_eq_true.1 hany
  obtain ⟨qs, hqs⟩ := job_namesApart (Graph.reachable_build _ _) hp hj
  exact ⟨p, hp, j, hj, qs, hqs, (map_name_decls hqs.params).trans (of_decide_eq_true hnames)⟩

end Planning

end EntityFlow
