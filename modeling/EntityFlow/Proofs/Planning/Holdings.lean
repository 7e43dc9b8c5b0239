import EntityFlow.Proofs.Planning.Fields
import EntityFlow.Proofs.Planning.Names

/-!
# What a job is equipped with

All names of a plan come from calls on one symbol table, so what the calls never undo holds of the
table that planning ends with.  A job gets its fields in a few places, each of which adds one form
of field.  `Held` lists these forms, with the symbol that each name is taken from, and `Equipment`
says how the fields, the parameters and the sort key of a job come together.
-/

namespace EntityFlow

/-! ## Tables that grow -/

namespace SymbolTable

variable {t t' t'' : SymbolTable} {key : SymbolKey} {name : String} {names : List String}

/-- Some calls lead from `t` to `t'`. -/
def Grows (t t' : SymbolTable) : Prop := ∃ calls, t' = t.run calls

theorem Grows.refl (t : SymbolTable) : t.Grows t := ⟨[], rfl⟩

theorem Grows.trans (h : t.Grows t') (h' : t'.Grows t'') : t.Grows t'' := by
  obtain ⟨calls, rfl⟩ := h
  obtain ⟨more, rfl⟩ := h'
  exact ⟨calls ++ more, (run_append t calls more).symm⟩

theorem grows_step (t : SymbolTable) (c : Call) : t.Grows (t.step c) := ⟨[c], rfl⟩

/-- A fold of steps that let the table grow lets it grow. -/
theorem grows_foldl {α : Type} {f : SymbolTable → α → SymbolTable} (xs : List α)
    (hf : ∀ (t : SymbolTable) x, t.Grows (f t x)) : t.Grows (xs.foldl f t) :=
  List.foldlRecOn (motive := t.Grows) xs f (.refl t) fun t' ht x _ => ht.trans (hf t' x)

/-- What every call keeps is kept. -/
theorem Grows.induction {P : SymbolTable → Prop} (h : t.Grows t') (ht : P t)
    (hstep : ∀ t c, P t → P (t.step c)) : P t' := by
  obtain ⟨calls, rfl⟩ := h
  exact List.foldlRecOn (motive := P) calls step ht fun t ht c _ => hstep t c ht

/-- A table that grows keeps its names. -/
theorem Grows.keeps (h : t.Grows t') : t.Keeps t' := by
  obtain ⟨calls, rfl⟩ := h
  obtain ⟨more, hmore⟩ := bound_run t calls
  exact fun _ _ hname => get?_of_bound_append hmore hname

/-- A table that grows avoids what it avoided. -/
theorem Grows.avoids (h : t.Grows t') (ht : t.Avoids names) : t'.Avoids names :=
  h.induction (P := fun t => t.Avoids names) ht fun _ c ht => ht.step c

/-- No two keys have the same name, and no name is a reserved word. -/
structure Tidy (t : SymbolTable) : Prop extends t.Injective where
  words : ∀ b ∈ t.bound, b.2 ∉ Text.reservedWords

/-- Every call keeps the table tidy. -/
theorem Tidy.step (h : t.Tidy) (c : Call) : (t.step c).Tidy := by
  refine ⟨h.toInjective.step c, ?_⟩
  rcases (step_cases t c).1 with hsame | ⟨key, name, hname, hnew⟩
  · rw [hsame]
    exact h.words
  · rw [hnew]
    refine List.forall_mem_append.2 ⟨h.words, List.forall_mem_singleton.2 ?_⟩
    exact (isFree_iff.1 (isFree_of_minted? hname).1).2

theorem tidy_empty : Tidy .empty := ⟨injective_empty, nofun⟩

/-- A tidy table stays tidy while it grows. -/
theorem Grows.tidy (h : t.Grows t') (ht : t.Tidy) : t'.Tidy :=
  h.induction (P := Tidy) ht fun _ c ht => ht.step c

/-- A tidy table binds no reserved word. -/
theorem Tidy.not_word (h : t.Tidy) (hkey : t.get? key = some name) : name ∉ Text.reservedWords :=
  h.words _ (mem_bound_of_get? hkey)

/-- A fresh name is none that was given out before, and is bound to no key. -/
theorem Tidy.avoids_fresh (h : t.Tidy) (hint : String) :
    (t.fresh hint).2.Avoids [t.freshName hint] := by
  refine ⟨by simp, fun b hb hname => ?_⟩
  have hfree := (isFree_iff.1 (isFree_freshName t hint)).1
  exact hfree (List.mem_singleton.1 hname ▸ h.taken b hb)

end SymbolTable

namespace Naming

open SymbolTable

theorem grows_registerMember (t : SymbolTable) (id : MemberId) (m : Member) :
    t.Grows (registerMember t id m) := by
  have hname : t.Grows (t.register (.member id) m.name).2 := grows_step t (.register _ _)
  unfold registerMember
  dsimp only
  split
  · exact hname.trans (grows_foldl _ fun t y => grows_step t (.register _ _))
  · exact hname

theorem grows_memberSymbols (g : Graph) : SymbolTable.empty.Grows (memberSymbols g) := by
  have hown : SymbolTable.empty.Grows (ownNames.foldl reserve .empty) :=
    grows_foldl _ fun t name => grows_step t (.reserve name)
  exact (hown.trans (grows_step _ (.register _ _))).trans
    (grows_foldl _ fun t x => grows_registerMember t x.1 x.2)

/-- The unit has a name before anything else does. -/
theorem exists_unitSymbol (g : Graph) : ∃ name, (memberSymbols g).get? unitKey = some name :=
  ⟨_, (grows_foldl g.indexedMembers fun t x => grows_registerMember t x.1 x.2).keeps _ _
    (get?_register _ _ _)⟩

end Naming

namespace Planning

open Naming

variable {g : Graph} {p q r : Plan} {b : Boundary} {j bare : Job} {f : CaptureField}
  {t t' : SymbolTable} {key : SymbolKey} {hint name : String} {wrote : Prop}

/-- Every step lets the table grow. -/
theorem lasting_grows (g : Graph) : Lasting g fun p q => p.symbols.Grows q.symbols where
  refl p := .refl p.symbols
  trans := .trans
  symbols_register p key hint := SymbolTable.grows_step p.symbols (.register key hint)
  symbols_fresh p hint := SymbolTable.grows_step p.symbols (.fresh hint)
  diagnostics p _ _ _ := .refl p.symbols
  bindings p _ _ _ := .refl p.symbols
  handles p _ _ _ _ := .refl p.symbols
  times p _ _ := .refl p.symbols
  unavailable p _ _ := .refl p.symbols
  manager p _ _ _ _ := .refl p.symbols
  boundaries p _ := .refl p.symbols
  redirects p _ := .refl p.symbols
  usings p _ := .refl p.symbols
  jobs p _ := .refl p.symbols

theorem tidy_start (g : Graph) : (Plan.start g).symbols.Tidy :=
  (grows_memberSymbols g).tidy SymbolTable.tidy_empty

/-- The table of a plan is tidy. -/
theorem tidy_make (h : Plan.make g = .ok p) : p.symbols.Tidy :=
  ((lasting_grows g).make h).tidy (tidy_start g)

/-- In every plan the unit has a name. -/
theorem exists_unitName (h : Plan.make g = .ok p) : ∃ name, p.symbols.get? unitKey = some name := by
  obtain ⟨name, hname⟩ := exists_unitSymbol g
  exact ⟨name, ((lasting_grows g).make h).keeps _ _ hname⟩

/-- A key that is registered is bound to the answer. -/
theorem ensures_register (key : SymbolKey) (hint : String) : Ensures p (register key hint)
    fun name q => p.symbols.Grows q.symbols ∧ q.symbols.get? key = some name := by
  simp only [register, ensures_bind, ensures_get, ensures_set, ensures_pure]
  exact ⟨SymbolTable.grows_step _ (.register key hint), SymbolTable.get?_register _ _ _⟩

/-- A fresh name was not taken, is no reserved word, and is avoided from then on. -/
theorem ensures_fresh (h : p.symbols.Tidy) (hint : String) : Ensures p (fresh hint) fun name q =>
    p.symbols.Grows q.symbols ∧ name ∉ p.symbols.taken ∧ name ∉ Text.reservedWords ∧
      q.symbols.Avoids [name] := by
  simp only [fresh, ensures_bind, ensures_get, ensures_set, ensures_pure]
  obtain ⟨htaken, hword⟩ :=
    SymbolTable.isFree_iff.1 (SymbolTable.isFree_freshName p.symbols hint)
  exact ⟨SymbolTable.grows_step _ (.fresh hint), htaken, hword, h.avoids_fresh hint⟩

/-! ## Outputs of jobs have names -/

/-- If the node declares a job, then its value outputs have names. -/
def NamesOutputs (g : Graph) (n : NodeId) (p : Plan) : Prop :=
  ∀ node, g.node? n = some node → node.kind.isJob → ∀ x ∈ node.indexedPorts,
    x.2.isValue → x.2.isOutput → ∃ name, p.symbols.get? (.port ⟨n, x.1⟩) = some name

theorem NamesOutputs.grows {n : NodeId} (h : NamesOutputs g n p) (hpq : p.symbols.Grows q.symbols) :
    NamesOutputs g n q := by
  intro node hn hjob x hx hvalue hout
  obtain ⟨name, hname⟩ := h node hn hjob x hx hvalue hout
  exact ⟨name, hpq.keeps _ _ hname⟩

/-- All value outputs of the node have names afterwards. -/
theorem ensures_nameOutputs (n : NodeId) (node : Node) : Ensures p (nameOutputs n node) fun _ q =>
    ∀ x ∈ node.indexedPorts, x.2.isValue → x.2.isOutput →
      ∃ name, q.symbols.get? (.port ⟨n, x.1⟩) = some name := by
  refine ensures_forM (J := fun (done : List (UInt16 × Port)) q => ∀ x ∈ done, x.2.isValue →
    x.2.isOutput → ∃ name, q.symbols.get? (.port ⟨n, x.1⟩) = some name)
      nofun fun done x rest q _ hJ => ?_
  dsimp only
  split
  · refine ensures_bind.2 ((ensures_register _ _).mono fun name q' hq' => ensures_modify.2 ?_)
    refine List.forall_mem_append.2 ⟨fun y hy hvalue hout => ?_, ?_⟩
    · obtain ⟨old, hold⟩ := hJ y hy hvalue hout
      exact ⟨old, hq'.1.keeps _ _ hold⟩
    · exact List.forall_mem_singleton.2 fun _ _ => ⟨name, hq'.2⟩
  · rename_i hother
    refine ensures_pure.2 (List.forall_mem_append.2 ⟨hJ, List.forall_mem_singleton.2 ?_⟩)
    intro hvalue hout
    exact absurd (by simp [hvalue, hout]) hother

/-- Naming a node names its outputs. -/
theorem ensures_nameNode_namesOutputs (g : Graph) (n : NodeId) :
    Ensures p (nameNode (rootHandle g) g n) fun _ => NamesOutputs g n := by
  rintro u q hrun ⟨title, kind, container, ports⟩ hn hjob
  unfold nameNode at hrun
  rw [Graph.node_eq_ok.2 hn] at hrun
  cases kind with
  | jobEntity spec | jobChunk spec => exact ensures_nameOutputs n _ u q hrun
  | _ => exact absurd hjob nofun

/-- Naming gives the outputs of every job their names, and later steps keep them. -/
theorem namesOutputs_of_prepared (h : Prepared g r) (n : NodeId) : NamesOutputs g n r := by
  obtain ⟨q, -, hname⟩ := h
  have hall : Ensures q ((g.nodesWith .init).forM (nameNode (rootHandle g) g)) fun _ q =>
      ∀ n ∈ g.nodesWith .init, NamesOutputs g n q := by
    refine ensures_forM (J := fun done q => ∀ n ∈ done, NamesOutputs g n q) nofun
      fun done n rest q _ hJ => ?_
    refine (((lasting_grows g).moves_nameNode n (lasting_grows g).manager q).and
      (ensures_nameNode_namesOutputs g n)).mono fun _ q' hq' => ?_
    exact List.forall_mem_append.2
      ⟨fun m hm => (hJ m hm).grows hq'.1, List.forall_mem_singleton.2 hq'.2⟩
  intro node hn hjob
  refine hall _ r hname n (List.mem_filter.2 ⟨Graph.mem_nodeIds.2 ⟨node, hn⟩, ?_⟩) node hn hjob
  cases hkind : node.kind with
  | jobEntity spec | jobChunk spec =>
    simp [Graph.capabilities, Graph.kind?, hn, hkind, Graph.kindCapabilities]
  | _ => simp [hkind, NodeKind.isJob] at hjob

/-- What describing relies on: names are told apart, and the outputs of jobs have theirs. -/
structure Ready (g : Graph) (p : Plan) : Prop where
  tidy : p.symbols.Tidy
  outputs : ∀ n, NamesOutputs g n p

theorem Ready.grows (h : Ready g p) (hpq : p.symbols.Grows q.symbols) : Ready g q :=
  ⟨hpq.tidy h.tidy, fun n => (h.outputs n).grows hpq⟩

/-- Before jobs are described, everything that they ask for has a name. -/
theorem ready_of_prepared (h : Prepared g r) : Ready g r := by
  refine ⟨?_, namesOutputs_of_prepared h⟩
  obtain ⟨q, hclaim, hname⟩ := h
  have hl := lasting_grows g
  have hclaims := hl.moves_forM hl.moves_claim _ _ q hclaim
  have hnames := hl.moves_forM (fun n => hl.moves_nameNode n hl.manager) q _ r hname
  exact (hclaims.trans hnames).tidy (tidy_start g)

/-! ## Fields -/

/-- The forms of a field, one for each place where describing adds one.  The name is that of a
symbol, except that lookups have names of their own. -/
inductive Held (g : Graph) (b : Boundary) (t : SymbolTable) : CaptureField → Prop
  | jobVariable {i : Nat} {v : JobVariable} {r : PortRef} {name : String}
      (hv : (g.jobVariables b.node)[i]? = some v) (hr : g.portRef? b.node v.name = some r)
      (hname : t.get? (.port r) = some name) :
      Held g b t ⟨name, v.type.name, v.isMutable, .jobVariable i, .jobVariable i⟩
  | crossing {source : PortRef} {inputs : List PortRef} {name type : String}
      (hcrossing : (source, inputs) ∈ b.crossings)
      (hname : t.get? (.port source) = some name ∨ t.get? (.capture b.node source) = some name) :
      Held g b t ⟨name, type, false, .port source, .port source⟩
  | copied {m : MemberId} {name type : String} (hm : m ∈ b.vars)
      (hname : t.get? (.member m) = some name) :
      Held g b t ⟨name, type, false, .variable m, .expression (.member m none name)⟩
  | auto {m : MemberId} {prop : Property} {name : String} (hm : m ∈ b.properties)
      (hprop : g.member? m = some (.property prop)) (hname : t.get? (.member m) = some name) :
      Held g b t ⟨name, prop.type.name, false, .property m, .expression (.member m none name)⟩
  | lookup {component name type : String} {source : CaptureSource} (hname : t.Avoids [name])
      (hword : name ∉ Text.reservedWords) :
      Held g b t ⟨name, type, false, .lookup component, source⟩
  | commandBuffer {name type : String} {source : CaptureSource}
      (hname : t.get? Handle.commandBuffer.key = some name) :
      Held g b t ⟨name, type, true, .commandBuffer, source⟩

/-- A field that is held stays so while names are added. -/
theorem Held.grows (h : Held g b t f) (ht : t.Grows t') : Held g b t' f := by
  cases h with
  | jobVariable hv hr hname => exact .jobVariable hv hr (ht.keeps _ _ hname)
  | crossing hcrossing hname =>
    exact .crossing hcrossing (hname.imp (ht.keeps _ _) (ht.keeps _ _))
  | copied hm hname => exact .copied hm (ht.keeps _ _ hname)
  | auto hm hprop hname => exact .auto hm hprop (ht.keeps _ _ hname)
  | lookup hname hword => exact .lookup (ht.avoids hname) hword
  | commandBuffer hname => exact .commandBuffer (ht.keeps _ _ hname)

/-- A job over chunks has a parameter for the index of the chunk. -/
def Indexed (g : Graph) (b : Boundary) (bare : Job) (t : SymbolTable) : Prop :=
  bare.contract = .chunk → ∃ r, g.portRef? b.node PortName.chunkIndex = some r ∧
    ∃ x ∈ bare.params, t.get? (.port r) = some x.name

/-- A job that differs from its bare form in its fields only.  Lookups have different names. -/
structure Stocked (g : Graph) (b : Boundary) (bare j : Job) (p : Plan) : Prop where
  tidy : p.symbols.Tidy
  indexed : Indexed g b bare p.symbols
  shape : j = { bare with fields := j.fields }
  held : ∀ f ∈ j.fields, Held g b p.symbols f
  apart : ∀ f ∈ j.fields, ∀ f' ∈ j.fields, ∀ c c', f.owner = .lookup c → f'.owner = .lookup c' →
    f.name = f'.name → c = c'

namespace Stocked

/-- A job that is stocked stays so while names are added. -/
theorem grows (h : Stocked g b bare j p) (hpq : p.symbols.Grows q.symbols) :
    Stocked g b bare j q where
  tidy := hpq.tidy h.tidy
  indexed hover := by
    obtain ⟨r, hr, x, hx, hname⟩ := h.indexed hover
    exact ⟨r, hr, x, hx, hpq.keeps _ _ hname⟩
  shape := h.shape
  held f hf := (h.held f hf).grows hpq
  apart := h.apart

theorem shape_addField (h : Stocked g b bare j p) (f : CaptureField) :
    j.addField f = { bare with fields := (j.addField f).fields } := by
  unfold Job.addField
  split
  · exact h.shape
  · rw [h.shape]

/-- A field that is no lookup. -/
theorem addField (h : Stocked g b bare j p) (hf : Held g b p.symbols f)
    (hlookup : ∀ c, f.owner ≠ .lookup c) : Stocked g b bare (j.addField f) p where
  tidy := h.tidy
  indexed := h.indexed
  shape := h.shape_addField f
  held f' hf' := by
    rcases Job.mem_fields_addField hf' with hold | rfl
    · exact h.held f' hold
    · exact hf
  apart f₁ h₁ f₂ h₂ c₁ c₂ ho₁ ho₂ hname := by
    rcases Job.mem_fields_addField h₁ with hold₁ | rfl
    · rcases Job.mem_fields_addField h₂ with hold₂ | rfl
      · exact h.apart f₁ hold₁ f₂ hold₂ c₁ c₂ ho₁ ho₂ hname
      · exact absurd ho₂ (hlookup c₂)
    · exact absurd ho₁ (hlookup c₁)

/-- A lookup whose name no field has yet. -/
theorem addLookup (h : Stocked g b bare j p) (hf : Held g b p.symbols f)
    (hnew : ∀ f' ∈ j.fields, f'.name ≠ f.name) : Stocked g b bare (j.addField f) p where
  tidy := h.tidy
  indexed := h.indexed
  shape := h.shape_addField f
  held f' hf' := by
    rcases Job.mem_fields_addField hf' with hold | rfl
    · exact h.held f' hold
    · exact hf
  apart f₁ h₁ f₂ h₂ c₁ c₂ ho₁ ho₂ hname := by
    rcases Job.mem_fields_addField h₁ with hold₁ | rfl
    · rcases Job.mem_fields_addField h₂ with hold₂ | rfl
      · exact h.apart f₁ hold₁ f₂ hold₂ c₁ c₂ ho₁ ho₂ hname
      · exact absurd hname (hnew f₁ hold₁)
    · rcases Job.mem_fields_addField h₂ with hold₂ | rfl
      · exact absurd hname.symm (hnew f₂ hold₂)
      · exact CaptureOwner.lookup.inj (ho₁.symm.trans ho₂)

/-- All names of fields are given out. -/
theorem mem_taken (h : Stocked g b bare j p) (hf : f ∈ j.fields) : f.name ∈ p.symbols.taken := by
  have hbound : ∀ key name, p.symbols.get? key = some name → name ∈ p.symbols.taken :=
    fun key name hkey => h.tidy.taken _ (SymbolTable.mem_bound_of_get? hkey)
  cases h.held f hf with
  | jobVariable hv hr hname => exact hbound _ _ hname
  | crossing hcrossing hname => exact hname.elim (hbound _ _) (hbound _ _)
  | copied hm hname => exact hbound _ _ hname
  | auto hm hprop hname => exact hbound _ _ hname
  | lookup hname hword => exact hname.taken _ (List.mem_singleton_self _)
  | commandBuffer hname => exact hbound _ _ hname

/-! ### Steps -/

/-- A variable is held by a key of its own. -/
theorem ensures_addVariable (h : Stocked g b bare j p) (hnode : bare.node = b.node) {i : Nat}
    {v : JobVariable} (hv : (g.jobVariables b.node)[i]? = some v) :
    Ensures p (addVariable g j i v) fun j' q => Stocked g b bare j' q := by
  have hj : j.node = b.node := by rw [h.shape, ← hnode]
  unfold addVariable
  split
  · exact ensures_pure.2 h
  · rename_i r hr
    refine ensures_bind.2 ((ensures_register _ _).mono fun name q hq => ensures_pure.2 ?_)
    exact (h.grows hq.1).addField (.jobVariable hv (hj ▸ hr) hq.2) nofun

/-- A copy is named for its port, or has a name of its own. -/
theorem ensures_captureName {n : NodeId} {source : PortRef} {port : Port} :
    Ensures p (captureName g n source port) fun name q => p.symbols.Grows q.symbols ∧
      (q.symbols.get? (.port source) = some name ∨
        q.symbols.get? (.capture n source) = some name) := by
  refine ensures_bind.2 (ensures_get.2 ?_)
  split
  · rename_i name hname
    exact ensures_pure.2 ⟨.refl p.symbols, .inl hname⟩
  · exact (ensures_register _ _).mono fun name q hq => ⟨hq.1, .inr hq.2⟩

/-- A crossing is held by the port that crosses. -/
theorem ensures_addCrossing (h : Stocked g b bare j p) (hnode : bare.node = b.node)
    {source : PortRef} {inputs : List PortRef} (hcrossing : (source, inputs) ∈ b.crossings) :
    Ensures p (addCrossing g j source inputs) fun j' q => Stocked g b bare j' q := by
  have hl := lasting_grows g
  have hj : j.node = b.node := by rw [h.shape, ← hnode]
  have hadd : ∀ (q : Plan) (name type : String), p.symbols.Grows q.symbols →
      (q.symbols.get? (.port source) = some name ∨
        q.symbols.get? (.capture j.node source) = some name) → Ensures q (do
      modify fun p =>
        { p with redirects := (inputs.map fun i => (i, j.node, name)).reverse ++ p.redirects }
      return j.addField ⟨name, type, false, .port source, .port source⟩)
        fun j' q => Stocked g b bare j' q := by
    intro q name type hpq hname
    refine ensures_bind.2 (ensures_modify.2 (ensures_pure.2 ?_))
    exact Stocked.addField (h.grows hpq) (.crossing hcrossing (hj ▸ hname)) nofun
  unfold addCrossing
  split
  · exact ensures_pure.2 h
  · split
    · refine ensures_bind.2 (Ensures.mono (hl.moves_forM (fun input => ?_) p) fun _ q hpq => ?_)
      · exact hl.moves_giveUp input ⟨_, .inl rfl⟩
      · exact ensures_pure.2 (h.grows hpq)
    · refine ensures_bind.2 (ensures_captureName.mono fun name q hq => ?_)
      dsimp only
      split
      · exact hadd q name _ hq.1 hq.2
      · refine ensures_bind.2 ((hl.moves_report _ (.unknownCaptureType _) q).mono fun _ r hqr => ?_)
        exact hadd r name _ (hq.1.trans hqr) (hq.2.imp (hqr.keeps _ _) (hqr.keeps _ _))

/-- A variable of the unit is held under its own name. -/
theorem addMember (h : Stocked g b bare j p) {m : MemberId} (hm : m ∈ b.vars) :
    Stocked g b bare (addMember g p.symbols j m) p := by
  unfold Planning.addMember
  split
  · rename_i hname _
    exact h.addField (.copied hm hname) nofun
  · exact h

/-- A property of the unit is held under its own name. -/
theorem addAutoProperty (h : Stocked g b bare j p) {m : MemberId} (hm : m ∈ b.properties) :
    Stocked g b bare (addAutoProperty g p.symbols j m) p := by
  unfold Planning.addAutoProperty
  split
  · rename_i hname hprop
    obtain ⟨x, hx, hview⟩ := Option.bind_eq_some_iff.1 hprop
    rw [Member.asProperty_eq_some.1 hview] at hx
    split
    · exact h.addField (.auto hm hx hname) nofun
    · exact h
  · exact h

/-- Inspecting a node keeps the job stocked. -/
theorem ensures_inspect (h : Stocked g b bare j p) (c : Boundary) (n : NodeId) :
    Ensures p (inspect g c j n) fun j' q => Stocked g b bare j' q := by
  unfold inspect
  split
  · unfold Planning.addLookup
    split
    · exact ensures_pure.2 h
    · refine ensures_bind.2 ((ensures_fresh h.tidy _).mono fun name q hq => ensures_pure.2 ?_)
      obtain ⟨hpq, htaken, hword, havoids⟩ := hq
      refine (h.grows hpq).addLookup (.lookup havoids hword) fun f' hf' hname => htaken ?_
      have hmem := h.mem_taken hf'
      rwa [hname] at hmem
  · refine ensures_bind.2 (ensures_get.2 ?_)
    split
    · refine ensures_bind.2 (((lasting_grows g).moves_report _ (.writeToCapture _) p).mono
        fun _ q hpq => ?_)
      exact ensures_pure.2 (h.grows hpq)
    · exact ensures_pure.2 h
  · exact ensures_pure.2 h

end Stocked

/-! ## Sort keys -/

/-- The parameters and the sort key of a job whose parameters were `ps` first; it has a sort key if
`keyed` holds.  Over entities this is one more parameter, and over chunks the index of the chunk. -/
inductive Keyed (g : Graph) (n : NodeId) (t : SymbolTable) (ps : List Declaration.Param)
    (keyed : Prop) : List Declaration.Param → Option String → Prop
  | none (h : ¬keyed) : Keyed g n t ps keyed ps none
  | entity (h : keyed) {key : String} (hname : t.get? (sortKeyKey n) = some key) :
      Keyed g n t ps keyed (ps ++ [⟨key, "int", .byValue, ["ChunkIndexInQuery"]⟩]) (some key)
  | chunk (h : keyed) {r : PortRef} {x : Declaration.Param}
      (hr : g.portRef? n PortName.chunkIndex = some r) (hname : t.get? (.port r) = some x.name)
      (hx : x ∈ ps) : Keyed g n t ps keyed ps (some x.name)

theorem Keyed.grows {n : NodeId} {ps params : List Declaration.Param} {keyed : Prop}
    {key : Option String} (h : Keyed g n t ps keyed params key) (ht : t.Grows t') :
    Keyed g n t' ps keyed params key := by
  cases h with
  | none h => exact .none h
  | entity h hname => exact .entity h (ht.keeps _ _ hname)
  | chunk h hr hname hx => exact .chunk h hr (ht.keeps _ _ hname) hx

/-- There is a sort key exactly if the job is keyed. -/
theorem Keyed.iff_isSome {n : NodeId} {ps params : List Declaration.Param} {keyed : Prop}
    {key : Option String} (h : Keyed g n t ps keyed params key) : key.isSome ↔ keyed := by
  cases h with
  | none h => simp [h]
  | entity h | chunk h => simp [h]

/-- The sort key is the name of a parameter. -/
theorem Keyed.exists_param {n : NodeId} {ps params : List Declaration.Param} {keyed : Prop}
    {key : String} (h : Keyed g n t ps keyed params (some key)) : ∃ x ∈ params, x.name = key := by
  cases h with
  | entity h hname => exact ⟨_, List.mem_append_right _ (List.mem_singleton_self _), rfl⟩
  | chunk h hr hname hx => exact ⟨_, hx, rfl⟩

/-- A job that differs from its bare form in its fields, its parameters and its sort key. -/
structure Equipment (g : Graph) (b : Boundary) (bare : Job) (wrote : Prop) (j : Job) (p : Plan) :
    Prop where
  shape : j = { bare with fields := j.fields, params := j.params, sortKey := j.sortKey }
  held : ∀ f ∈ j.fields, Held g b p.symbols f
  apart : ∀ f ∈ j.fields, ∀ f' ∈ j.fields, ∀ c c', f.owner = .lookup c → f'.owner = .lookup c' →
    f.name = f'.name → c = c'
  keyed : Keyed g b.node p.symbols bare.params (bare.discipline.isParallel ∧ wrote)
    j.params j.sortKey

/-- Without command buffer, a job is equipped once it is stocked. -/
theorem Stocked.equipment (h : Stocked g b bare j p) (hkey : bare.sortKey = none)
    (hwrote : ¬(bare.discipline.isParallel ∧ wrote)) : Equipment g b bare wrote j p where
  shape := by rw [h.shape]
  held := h.held
  apart := h.apart
  keyed := by
    rw [h.shape, hkey]
    exact .none hwrote

/-- The sort key of a job that has the command buffer. -/
theorem Stocked.ensures_key (h : Stocked g b bare j p) (hnode : bare.node = b.node)
    (hkeyed : bare.discipline.isParallel ∧ wrote) :
    Ensures p (match j.contract with
      | .entity => do
          let key ← register (sortKeyKey j.node) "sortKey"
          return { j with
            params := j.params ++ [⟨key, "int", .byValue, ["ChunkIndexInQuery"]⟩]
            sortKey := some key }
      | .chunk => do
          let t := (← get).symbols
          return { j with
            sortKey := (g.portRef? j.node PortName.chunkIndex).bind fun r => t.get? (.port r) })
      fun j' q => Equipment g b bare wrote j' q := by
  have hj : j.node = b.node := by rw [h.shape, ← hnode]
  have hparams : j.params = bare.params := by rw [h.shape]
  have hcontract : j.contract = bare.contract := by rw [h.shape]
  split
  · refine ensures_bind.2 ((ensures_register _ _).mono fun key r hr => ensures_pure.2 ?_)
    refine ⟨by rw [h.shape], (h.grows hr.1).held, h.apart, ?_⟩
    rw [hparams]
    exact .entity hkeyed (hj ▸ hr.2)
  · rename_i hover
    refine ensures_bind.2 (ensures_get.2 (ensures_pure.2 ?_))
    obtain ⟨r, hr, x, hx, hname⟩ := h.indexed (hcontract ▸ hover)
    refine ⟨by rw [h.shape], h.held, h.apart, ?_⟩
    rw [hparams, hj, hr, Option.bind_some, hname]
    exact .chunk hkeyed hr hname hx

/-- The command buffer comes last, with a sort key if the job is parallel. -/
theorem Stocked.ensures_addCommandBuffer (h : Stocked g b bare j p) (hnode : bare.node = b.node)
    (hkey : bare.sortKey = none) (hwrote : wrote) :
    Ensures p (addCommandBuffer (rootHandle g) g j) fun j' q => Equipment g b bare wrote j' q := by
  have hadd : ∀ (q : Plan) (name type : String) (source : CaptureSource),
      p.symbols.Grows q.symbols → Declares q .commandBuffer name →
      Stocked g b bare (j.addField ⟨name, type, true, .commandBuffer, source⟩) q := by
    intro q name type source hpq hdeclared
    exact (h.grows hpq).addField (.commandBuffer hdeclared.2) nofun
  have hdiscipline : j.discipline = bare.discipline := by rw [h.shape]
  refine ensures_bind.2 ((((lasting_grows g).moves_rootHandle .commandBuffer p).and
    ensures_rootHandle).mono ?_)
  rintro name q ⟨hpq, hdeclared⟩
  split
  · rename_i hserial
    refine ensures_pure.2 ((hadd q name _ _ hpq hdeclared).equipment hkey ?_)
    rintro ⟨hparallel, -⟩
    simp [hdiscipline, hparallel] at hserial
  · rename_i hparallel
    have hkeyed : bare.discipline.isParallel ∧ wrote :=
      ⟨by simpa [hdiscipline] using hparallel, hwrote⟩
    exact (hadd q name "EntityCommandBuffer.ParallelWriter" _ hpq hdeclared).ensures_key
      hnode hkeyed

theorem equips_stocked (hnode : bare.node = b.node) :
    Equips g b fun _ j q => Stocked g b bare j q where
  jobVariable _ _ _ _ hv h := h.ensures_addVariable hnode hv
  crossing _ _ _ _ hc h := h.ensures_addCrossing hnode hc
  unavailable _ q input _ h :=
    ((lasting_grows g).moves_giveUp input ⟨_, .inr rfl⟩ q).mono fun _ _ hqr => h.grows hqr
  member _ _ _ hm h := h.addMember hm
  property _ _ _ hm h := h.addAutoProperty hm
  node _ _ _ n h := h.ensures_inspect b n

/-- Describing gives a job its fields step by step, and its sort key last. -/
theorem ensures_equip_equipment (hp : p.symbols.Tidy) (hbare : Bare g t b bare)
    (hindexed : Indexed g b bare p.symbols) : Ensures p (equip (rootHandle g) g b bare) fun j q =>
      Equipment g b bare (∃ n ∈ generatedNodes g b, WritesEntities g n) j q := by
  have hstart : Stocked g b bare bare p :=
    ⟨hp, hindexed, rfl, by simp [hbare.fields], by simp [hbare.fields]⟩
  refine (equips_stocked hbare.node).ensures_equip hstart (fun j q hj hwrites => ?_)
    fun j q hj hwrites => ?_
  · exact hj.ensures_addCommandBuffer hbare.node hbare.sortKey (any_usesCommandBuffer.1 hwrites)
  · refine hj.equipment hbare.sortKey ?_
    rintro ⟨-, hwrote⟩
    exact hwrites (any_usesCommandBuffer.2 hwrote)

/-! ## Described jobs -/

/-- What a list of parameters was made for. -/
theorem exists_sublist_filterMap {α β : Type} (f : α → Option β) (xs : List α) :
    ∃ ys, ys.Sublist xs ∧ List.Forall₂ (fun y z => f y = some z) ys (xs.filterMap f) := by
  induction xs with
  | nil => exact ⟨[], .slnil, .nil⟩
  | cons x xs ih =>
    obtain ⟨ys, hsub, hall⟩ := ih
    cases hx : f x with
    | none => exact ⟨ys, hsub.cons x, by rwa [List.filterMap_cons_none hx]⟩
    | some z =>
      exact ⟨x :: ys, hsub.cons_cons x, by rw [List.filterMap_cons_some hx]; exact .cons hx hall⟩

/-- A parameter that was found is found again in a larger table. -/
theorem PortRequest.param?_grows {n : NodeId} {q : PortRequest} {x : Declaration.Param}
    (h : q.param? g t n = some x) (ht : t.Grows t') : q.param? g t' n = some x := by
  obtain ⟨r, name, hr, hname, hx⟩ := portParam?_eq_some.1 h
  exact portParam?_eq_some.2 ⟨r, name, hr, ht.keeps _ _ hname, hx⟩

/-- A job as describing leaves it: where its parts come from, and which symbols name them. -/
structure Furnished (g : Graph) (p : Plan) (b : Boundary) (j : Job) : Prop where
  node : j.node = b.node
  kind : ∃ kind, g.kind? b.node = some kind ∧ kind.hasJob
  body : j.body = b.body
  properties : j.properties = b.properties
  functions : j.functions = b.functions
  typeName : p.symbols.get? (typeKey b.node) = some j.typeName
  discipline : j.discipline = g.boundaryDiscipline b.node
  held : ∀ f ∈ j.fields, Held g b p.symbols f
  apart : ∀ f ∈ j.fields, ∀ f' ∈ j.fields, ∀ c c', f.owner = .lookup c → f'.owner = .lookup c' →
    f.name = f'.name → c = c'
  keyed : ∃ qs ps, qs.Sublist (portRequests g b.node) ∧
    List.Forall₂ (fun q x => PortRequest.param? g p.symbols b.node q = some x) qs ps ∧
    Keyed g b.node p.symbols ps
      (j.discipline.isParallel ∧ ∃ n ∈ generatedNodes g b, WritesEntities g n) j.params j.sortKey

/-- A job that is furnished stays so while names are added. -/
theorem Furnished.grows (h : Furnished g p b j) (hpq : p.symbols.Grows q.symbols) :
    Furnished g q b j := by
  obtain ⟨qs, ps, hqs, hps, hkeyed⟩ := h.keyed
  exact { h with
    typeName := hpq.keeps _ _ h.typeName
    held := fun f hf => (h.held f hf).grows hpq
    keyed :=
      ⟨qs, ps, hqs, hps.imp fun _ _ hx => PortRequest.param?_grows hx hpq, hkeyed.grows hpq⟩ }

/-- A job that is equipped has all that its boundary asks for. -/
theorem Equipment.furnished
    (h : Equipment g b bare (∃ n ∈ generatedNodes g b, WritesEntities g n) j p)
    (hbare : Bare g t b bare) (ht : t.Grows p.symbols) : Furnished g p b j where
  node := by rw [h.shape, ← hbare.node]
  kind := hbare.kind
  body := by rw [h.shape, ← hbare.body]
  properties := by rw [h.shape, ← hbare.properties]
  functions := by rw [h.shape, ← hbare.functions]
  typeName := by rw [ht.keeps _ _ hbare.typeName, h.shape]
  discipline := by rw [h.shape, ← hbare.discipline]
  held := h.held
  apart := h.apart
  keyed := by
    have hdiscipline : j.discipline = bare.discipline := by rw [h.shape]
    obtain ⟨qs, hqs, hps⟩ := exists_sublist_filterMap (PortRequest.param? g t b.node)
      (portRequests g b.node)
    rw [← hbare.params] at hps
    exact ⟨qs, bare.params, hqs, hps.imp fun _ _ hx => PortRequest.param?_grows hx ht,
      hdiscipline ▸ h.keyed⟩

/-- In a reachable graph the index of a chunk has a port, which has a name. -/
theorem Ready.indexed (h : Ready g p) (hg : g.Reachable) (hbare : Bare g p.symbols b bare) :
    Indexed g b bare p.symbols := by
  intro hover
  obtain ⟨⟨spec, hkind⟩, hparam⟩ := hbare.chunk hover
  obtain ⟨node, hn, hkind⟩ := Option.map_eq_some_iff.1 hkind
  obtain ⟨job, -, hlayout⟩ := hg.laidOut hn
  have hports : node.ports = Layout.ofJobChunk spec := by
    rw [hkind] at hlayout
    exact (Except.ok.inj hlayout).symm
  -- The port stands third in the layout.
  have hr : g.portRef? b.node PortName.chunkIndex = some ⟨b.node, 2⟩ := by
    have hfound : g.portRef b.node PortName.chunkIndex = .ok ⟨b.node, 2⟩ :=
      Graph.portRef_eq_ok.2 ⟨node, 2, hn, by rw [hports]; rfl, rfl⟩
    rw [Graph.portRef?, hfound]
    rfl
  obtain ⟨name, hname⟩ := h.outputs b.node node hn (by simp [hkind, NodeKind.isJob])
    (2, Layout.intOut PortName.chunkIndex)
      (by simp [Node.indexedPorts, hports, Layout.ofJobChunk]) rfl rfl
  obtain ⟨x, hx, rfl⟩ := hparam _ _ hr hname
  exact ⟨_, hr, x, hx, hname⟩

/-- Every job of a reachable graph serves a boundary of the plan, and is as describing leaves it. -/
theorem exists_furnished (hg : g.Reachable) (h : Plan.make g = .ok p) (hj : j ∈ p.jobs) :
    ∃ b ∈ p.boundaries, Furnished g p b j ∧ Hangs g b ∧
      Boundary.analyze? g b.node b.body = some b := by
  refine exists_boundary (lasting_grows g) (I := Ready g) (P := Furnished g)
    (fun p q hpq hp => hp.grows hpq) (fun p q b j hpq hj => hj.grows hpq)
    (fun r => ready_of_prepared) ?_ h hj
  intro b q bare hq hbare
  have hbare := bare_of_bareJob hbare
  refine ((lasting_grows g).moves_equip b bare q |>.and
    (ensures_equip_equipment hq.tidy hbare (hq.indexed hg hbare))).mono fun j r hr => ?_
  exact hr.2.furnished hbare hr.1

/-- The same boundary says what the nodes of the job need. -/
theorem exists_furnished_equipped (hg : g.Reachable) (h : Plan.make g = .ok p) (hj : j ∈ p.jobs) :
    ∃ b, Furnished g p b j ∧ Equipped g (generatedNodes g b)
      (∃ n ∈ generatedNodes g b, WritesEntities g n) p j ∧
      Boundary.analyze? g b.node b.body = some b := by
  obtain ⟨b, -, hfurnished, -, ha⟩ := exists_furnished hg h hj
  obtain ⟨b', -, ⟨hserves, hequipped⟩, -, ha'⟩ := exists_equipped h hj
  obtain rfl : b = b' := by
    rw [← hfurnished.node, ← hfurnished.body] at ha
    rw [← hserves.node, ← hserves.body] at ha'
    exact Option.some.inj (ha.symm.trans ha')
  exact ⟨b, hfurnished, hequipped, ha⟩

/-- A job with variables.  Its body calls a function that creates entities, and whose container
holds a lookup and members of the unit.  One executor runs the job on the spot, another one in
parallel. -/
def Mixed.steps : List BuildStep := [
  .addFunction "Spawn" [⟨"amount", .int⟩] none false,
  .addVariable { name := "count", type := .int },
  .addProperty ⟨"Scale", .float, false, none⟩,
  .addNode "Update" (.event .update) ContainerTree.root,
  .addNode "Move" (.jobEntity { items := [⟨"a", some (.component "A"), .readOnly⟩]
                                vars := [⟨"speed", .float, true⟩, ⟨"limit", .float, false⟩] })
    ContainerTree.root,
  .addNode "Call" (.member (.function ⟨0⟩)) ContainerTree.root,
  .addNode "Near" (.executor .run (some ⟨1⟩)) ContainerTree.root,
  .addNode "Far" (.executor .scheduleParallel (some ⟨1⟩)) ContainerTree.root,
  .addNode "Entry" (.functionEntry ⟨0⟩) ⟨1⟩,
  .addNode "Create" .createEntity ⟨1⟩,
  .addNode "Read" (.getComponent (some (.component "Health"))) ⟨1⟩,
  .addNode "Count" (.member (.variable ⟨1⟩)) ⟨1⟩,
  .addNode "Scale" (.member (.property ⟨2⟩)) ⟨1⟩,
  .connect ⟨0⟩ "exit" ⟨3⟩ "enter", .connect ⟨3⟩ "exit" ⟨4⟩ "enter",
  .connect ⟨1⟩ "execute" ⟨2⟩ "enter", .connect ⟨5⟩ "exit" ⟨6⟩ "enter"]

def Mixed.graph : Graph := Graph.build {} steps

end Planning

end EntityFlow
