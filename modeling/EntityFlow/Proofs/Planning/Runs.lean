import EntityFlow.Compile.Describe
import EntityFlow.Proofs.Graph.Layouts
import EntityFlow.Proofs.Symbols

/-!
# Runs of planning

`Ensures p m Q` is partial correctness: a run of `m` from the plan `p` that succeeds ends in a value
and a plan that satisfy `Q`.  One equation for each way to compose steps takes a goal about a step
apart.

Naming is a long sequence of few small updates of the plan.  A relation between plans that is a
preorder and holds across each of these updates is *steady*, and holds across all naming.  Two kinds
of updates are made only where something else was done before: an output reads as a handle that the
update method declares, and an input is given up once this is reported.
-/

namespace EntityFlow

/-! ## Functions and their names -/

/-- Indexed members are found by their identity. -/
theorem Graph.mem_indexedMembers {g : Graph} {m : MemberId} {x : Member} :
    (m, x) ∈ g.indexedMembers ↔ g.member? m = some x := by
  rw [indexedMembers, List.mem_mapIdx, member?, List.getElem?_eq_some_iff]
  constructor
  · rintro ⟨i, hi, heq⟩
    obtain ⟨rfl, rfl⟩ := Prod.mk.inj heq
    exact ⟨hi, rfl⟩
  · rintro ⟨hi, rfl⟩
    exact ⟨m.index, hi, rfl⟩

namespace Naming

variable {g : Graph} {t : SymbolTable} {f : MemberId} {name : String}

/-- A function has a name if it exists and the table has a name for it. -/
theorem functionName_eq_ok : functionName g t f = .ok name ↔
    (∃ fn, g.function? f = some fn) ∧ t.get? (.member f) = some name := by
  unfold functionName
  cases g.function? f <;> cases t.get? (.member f) <;> simp

/-- What can be missing when a function is named. -/
theorem functionName_eq_error {e : CompileError} (h : functionName g t f = .error e) :
    e = .notFunction f ∧ g.function? f = none ∨
      e = .unnamedFunction f ∧ t.get? (.member f) = none := by
  unfold functionName at h
  split at h
  · exact .inl ⟨(Except.error.inj h).symm, by assumption⟩
  · exact .inr ⟨(Except.error.inj h).symm, by assumption⟩
  · cases h

/-- The names of functions are those that are found for one. -/
theorem mem_functionNames : name ∈ functionNames g t ↔ ∃ f, functionName g t f = .ok name := by
  simp only [functionNames, List.mem_filterMap, functionName_eq_ok, Prod.exists,
    Graph.mem_indexedMembers, Option.bind_eq_some_iff, Graph.function?]
  constructor
  · rintro ⟨f, x, hx, fn, hfn, hname⟩
    exact ⟨f, ⟨fn, x, hx, hfn⟩, hname⟩
  · rintro ⟨f, ⟨fn, x, hx, hfn⟩, hname⟩
    exact ⟨f, x, hx, fn, hfn, hname⟩

/-- Registering a member keeps the name that is registered first. -/
theorem keeps_registerMember (t : SymbolTable) (id : MemberId) (m : Member) :
    (t.register (.member id) m.name).2.Keeps (registerMember t id m) := by
  unfold registerMember
  dsimp only
  split
  · exact SymbolTable.keeps_foldl _ fun t x => SymbolTable.keeps_register t _ _
  · exact .refl _

/-- Every member has a name from the start. -/
theorem exists_memberSymbol {g : Graph} {m : MemberId} {x : Member} (hm : g.member? m = some x) :
    ∃ name, (memberSymbols g).get? (.member m) = some name := by
  have hall : ∀ (xs : List (MemberId × Member)) (t : SymbolTable), ∀ x ∈ xs,
      ∃ name, (xs.foldl (fun t x => registerMember t x.1 x.2) t).get? (.member x.1) =
        some name := by
    intro xs
    induction xs with
    | nil => exact fun _ _ hx => absurd hx List.not_mem_nil
    | cons y ys ih =>
      intro t x hx
      rw [List.foldl_cons]
      rcases List.mem_cons.1 hx with rfl | hx
      · have hkeeps : (t.register (.member x.1) x.2.name).2.Keeps
            (ys.foldl (fun t y => registerMember t y.1 y.2) (registerMember t x.1 x.2)) :=
          (keeps_registerMember t x.1 x.2).trans (SymbolTable.keeps_foldl ys fun t y =>
            (SymbolTable.keeps_register t _ _).trans (keeps_registerMember t y.1 y.2))
        exact ⟨_, hkeeps _ _ (SymbolTable.get?_register _ _ _)⟩
      · exact ih _ x hx
  exact hall g.indexedMembers _ (m, x) (Graph.mem_indexedMembers.2 hm)

end Naming

namespace Planning

open Naming

variable {α β : Type} {p q : Plan}

/-- A bind continues from the plan of its first part. -/
theorem run_bind_of_ok {m : Planning α} {f : α → Planning β} {a : α} (h : m.run p = .ok (a, q)) :
    (m >>= f).run p = (f a).run q := by
  rw [StateT.run_bind, h]
  rfl

/-- What a successful run of `m` from `p` ends in satisfies `Q`. -/
def Ensures (p : Plan) (m : Planning α) (Q : α → Plan → Prop) : Prop :=
  ∀ a q, m.run p = .ok (a, q) → Q a q

section Ensures

variable {m : Planning α} {f : α → Planning β} {a : α} {Q Q' : α → Plan → Prop}
  {S : β → Plan → Prop}

theorem Ensures.mono (h : Ensures p m Q) (hQ : ∀ a q, Q a q → Q' a q) : Ensures p m Q' :=
  fun a q hr => hQ a q (h a q hr)

theorem Ensures.and {Q R : α → Plan → Prop} (hQ : Ensures p m Q) (hR : Ensures p m R) :
    Ensures p m fun a q => Q a q ∧ R a q :=
  fun a q hrun => ⟨hQ a q hrun, hR a q hrun⟩

theorem ensures_pure : Ensures p (pure a) Q ↔ Q a p := by
  constructor
  · intro h
    exact h a p rfl
  · rintro h _ _ ⟨⟩
    exact h

/-- To ensure something of a bind is to ensure it of the second part after the first. -/
theorem ensures_bind : Ensures p (m >>= f) S ↔ Ensures p m fun a q => Ensures q (f a) S := by
  constructor
  · intro h a q hm b r hf
    exact h b r ((run_bind_of_ok hm).trans hf)
  · intro h b r hr
    rw [StateT.run_bind, bind_eq_ok] at hr
    obtain ⟨⟨a, q⟩, hm, hf⟩ := hr
    exact h a q hm b r hf

theorem ensures_get {T : Plan → Plan → Prop} : Ensures p get T ↔ T p p := ensures_pure (p := p)

theorem ensures_set {T : PUnit → Plan → Prop} : Ensures p (set q) T ↔ T ⟨⟩ q :=
  ensures_pure (p := q)

theorem ensures_modify {h : Plan → Plan} {T : PUnit → Plan → Prop} :
    Ensures p (modify h) T ↔ T ⟨⟩ (h p) :=
  ensures_pure (p := h p)

theorem ensures_throw {e : CompileError} : Ensures p (throw e) Q := nofun

theorem ensures_attempt {x : Except CompileError α} :
    Ensures p (attempt x) Q ↔ ∀ a, x = .ok a → Q a p := by
  cases x with
  | error e => exact ⟨nofun, fun _ => ensures_throw⟩
  | ok a =>
    refine ensures_pure.trans ⟨?_, fun h => h a rfl⟩
    rintro h _ ⟨⟩
    exact h

theorem ensures_ofGraph {x : Except GraphError α} :
    Ensures p (ofGraph x) Q ↔ ∀ a, x = .ok a → Q a p := by
  cases x with
  | error e => exact ⟨nofun, fun _ => ensures_throw⟩
  | ok a =>
    refine ensures_pure.trans ⟨?_, fun h => h a rfl⟩
    rintro h _ ⟨⟩
    exact h

end Ensures

/-! ## Loops -/

section Loops

variable {xs : List α} {b : β} {step : β → α → Planning β} {I : List α → β → Plan → Prop}

/-- A loop invariant over what was passed so far. -/
theorem ensures_foldlM (h0 : I [] b p) (hstep : ∀ done x rest b q, xs = done ++ x :: rest →
    I done b q → Ensures q (step b x) (I (done ++ [x]))) : Ensures p (xs.foldlM step b) (I xs) := by
  suffices h : ∀ rest done b p, xs = done ++ rest → I done b p →
      Ensures p (rest.foldlM step b) (I xs) from h xs [] b p rfl h0
  intro rest
  induction rest with
  | nil =>
    intro done b p hxs hI
    rw [List.append_nil] at hxs
    exact hxs ▸ ensures_pure.2 hI
  | cons x rest ih =>
    intro done b p hxs hI
    rw [List.foldlM_cons, ensures_bind]
    refine (hstep done x rest b p hxs hI).mono fun b' q hI' => ?_
    exact ih (done ++ [x]) b' q (by simp [hxs]) hI'

theorem forM_eq_foldlM (step : α → Planning PUnit) (xs : List α) :
    xs.forM step = xs.foldlM (fun _ x => step x) ⟨⟩ := by
  induction xs with
  | nil => rfl
  | cons x xs ih =>
    rw [List.foldlM_cons]
    exact bind_congr fun _ => ih

/-- An invariant of the elements that are done holds after all of them. -/
theorem ensures_forM {step : α → Planning PUnit} {J : List α → Plan → Prop} (h0 : J [] p)
    (hstep : ∀ done x rest q, xs = done ++ x :: rest → J done q →
      Ensures q (step x) fun _ => J (done ++ [x])) : Ensures p (xs.forM step) fun _ => J xs := by
  rw [forM_eq_foldlM]
  exact ensures_foldlM (I := fun done _ => J done) h0 fun done x rest _ q => hstep done x rest q

end Loops

def Declares (p : Plan) (h : Handle) (name : String) : Prop :=
  h ∈ p.handles ∧ p.symbols.get? h.key = some name

theorem ensures_requireUpdate {g : Graph} (p : Plan) :
    Ensures p (requireUpdate g) fun _ q => q = p := by
  unfold requireUpdate
  split
  · exact ensures_pure.2 rfl
  · exact ensures_throw

/-- A request for a handle is answered with the name under which it is declared. -/
theorem ensures_rootHandle {g : Graph} {h : Handle} :
    Ensures p (rootHandle g h) fun name q => Declares q h name := by
  have hname : ∀ q : Plan, Ensures q (register h.key h.hint) fun name r =>
      r.handles = q.handles ∧ r.symbols.get? h.key = some name := by
    intro q
    simp only [register, ensures_bind, ensures_get, ensures_set, ensures_pure]
    exact ⟨trivial, SymbolTable.get?_register _ _ _⟩
  refine ensures_bind.2 (ensures_get.2 ?_)
  split
  · rename_i hmem
    refine (hname p).mono fun name r hr => ⟨?_, hr.2⟩
    rw [hr.1]
    exact List.contains_iff_mem.1 hmem
  · refine ensures_bind.2 fun _ q _ => ensures_bind.2 ((hname q).mono fun name r hr => ?_)
    refine ensures_bind.2 (ensures_modify.2 (ensures_bind.2 (ensures_modify.2 (ensures_pure.2 ?_))))
    exact ⟨List.mem_append_right _ (List.mem_singleton_self h), hr.2⟩

/-! ## Steady relations -/

/-- Every successful run of `m` leads along `R`. -/
def Moves (R : Plan → Plan → Prop) (m : Planning α) : Prop := ∀ p, Ensures p m fun _ q => R p q

/-- What an output may read as, handles apart: a name, or what a reference of that name holds. -/
inductive Named : Binding → Prop
  | ident (name : String) : Named (.fixed (.ident name))
  | held (name : String) : Named (.fixed (.access (.ident name) "ValueRO"))
  | wrapper (name : String) : Named (.wrapper name)

/-- It was reported that no job can read the input. -/
def GivenUp (p : Plan) (input : PortRef) : Prop :=
  ∃ port, .atNode input.node (.notCapturable port) ∈ p.diagnostics ∨
    .atNode input.node (.valueUnavailableInJob port) ∈ p.diagnostics

/-- The output through which an update event gives out the entity manager, if something reads it. -/
def IsManager (g : Graph) (output : PortRef) : Prop :=
  ∃ n, g.kind? n = some (.event .update) ∧ g.portRef n PortName.entityManager = .ok output ∧
    g.isConnected output = true

/-- The problems that planning reports. -/
inductive Planned : Problem → Prop
  | nestedUnitFailed (reason : String) : Planned (.nestedUnitFailed reason)
  | runHasNoJobHandle : Planned .runHasNoJobHandle
  | notCapturable (port : String) : Planned (.notCapturable port)
  | valueUnavailableInJob (port : String) : Planned (.valueUnavailableInJob port)
  | unknownCaptureType (name : String) : Planned (.unknownCaptureType name)
  | writeToCapture (name : String) : Planned (.writeToCapture name)
  | functionWithoutEntry (name : String) : Planned (.functionWithoutEntry name)

/-- A preorder on plans that no small update leaves. A handle is declared once, and under its
name. -/
structure Steady (g : Graph) (R : Plan → Plan → Prop) : Prop where
  refl : ∀ p, R p p
  trans : ∀ {p q r}, R p q → R q r → R p r
  symbols_register : ∀ p key hint, R p { p with symbols := (p.symbols.register key hint).2 }
  symbols_fresh : ∀ p hint, R p { p with symbols := (p.symbols.fresh hint).2 }
  diagnostics : ∀ p owner problem, Planned problem →
    R p { p with diagnostics := p.diagnostics ++ [.of owner problem] }
  bindings : ∀ p output b, Named b → R p { p with bindings := (output, b) :: p.bindings }
  handles : ∀ p h name, h ∉ p.handles → p.symbols.get? h.key = some name →
    R p { p with
      handles := p.handles ++ [h], parts := p.parts ++ [h.part g.settings.flavor name] }
  times : ∀ p name value,
    R p { p with parts := p.parts ++ [⟨-900, Code.declare none name (some value)⟩] }
  unavailable : ∀ p input, GivenUp p input →
    R p { p with unavailable := p.unavailable ++ [input] }

/-- An output through which the entity manager is given out may read as its handle, once the update
method declares it. -/
def Manages (g : Graph) (R : Plan → Plan → Prop) : Prop :=
  ∀ p output name, IsManager g output → Declares p .entityManager name →
    R p { p with
      bindings := (output, .fixed (.handle .entityManager name (.output output))) :: p.bindings }

namespace Steady

variable {g : Graph} {R : Plan → Plan → Prop} (h : Steady g R) {m : Planning α} {f : α → Planning β}

include h

theorem moves_pure (a : α) : Moves R (pure a : Planning α) := fun p => ensures_pure.2 (h.refl p)

/-- What two parts respect, the whole respects. -/
theorem moves_bind (hm : Moves R m) (hf : ∀ a, Moves R (f a)) : Moves R (m >>= f) := by
  refine fun p => ensures_bind.2 ((hm p).mono fun a q hpq => ?_)
  exact (hf a q).mono fun _ _ hqr => h.trans hpq hqr

theorem moves_get {f : Plan → Planning β} (hf : ∀ p, Moves R (f p)) : Moves R (get >>= f) :=
  h.moves_bind (fun p => ensures_get.2 (h.refl p)) hf

theorem moves_foldlM {xs : List α} {step : β → α → Planning β} {b : β}
    (hs : ∀ b x, Moves R (step b x)) : Moves R (xs.foldlM step b) := by
  refine fun p => ensures_foldlM (I := fun _ _ => R p) (h.refl p) fun _ x _ b q _ hpq => ?_
  exact (hs b x q).mono fun _ _ hqr => h.trans hpq hqr

theorem moves_forM {xs : List α} {step : α → Planning PUnit} (hs : ∀ x, Moves R (step x)) :
    Moves R (xs.forM step) := by
  rw [forM_eq_foldlM]
  exact h.moves_foldlM fun _ => hs

theorem moves_attempt (x : Except CompileError α) : Moves R (attempt x) :=
  fun p => ensures_attempt.2 fun _ _ => h.refl p

theorem moves_ofGraph (x : Except GraphError α) : Moves R (ofGraph x) :=
  fun p => ensures_ofGraph.2 fun _ _ => h.refl p

theorem moves_report (owner : Owner) {problem : Problem} (hproblem : Planned problem) :
    Moves R (report owner problem) :=
  fun p => ensures_modify.2 (h.diagnostics p owner problem hproblem)

theorem moves_register (key : SymbolKey) (hint : String) : Moves R (register key hint) := by
  intro p
  simp only [register, ensures_bind, ensures_get, ensures_set, ensures_pure]
  exact h.symbols_register p key hint

theorem moves_fresh (hint : String) : Moves R (fresh hint) := by
  intro p
  simp only [fresh, ensures_bind, ensures_get, ensures_set, ensures_pure]
  exact h.symbols_fresh p hint

theorem moves_bindOutput (output : PortRef) {b : Binding} (hb : Named b) :
    Moves R (bindOutput output b) :=
  fun p => ensures_modify.2 (h.bindings p output b hb)

/-- An input is given up together with a report. -/
theorem moves_giveUp (input : PortRef) {problem : Problem}
    (hproblem : ∃ port, problem = .notCapturable port ∨ problem = .valueUnavailableInJob port) :
    Moves R (report (.node input.node) problem >>= fun _ => markUnavailable input) := by
  obtain ⟨port, hport⟩ := hproblem
  refine fun p => ensures_bind.2 (ensures_modify.2 (ensures_modify.2 ?_))
  have hplanned : Planned problem := by
    rcases hport with rfl | rfl
    · exact .notCapturable port
    · exact .valueUnavailableInJob port
  refine h.trans (h.diagnostics p _ _ hplanned) (h.unavailable _ input ⟨port, ?_⟩)
  rcases hport with rfl | rfl
  · exact .inl (by simp [Diagnostic.atNode])
  · exact .inr (by simp [Diagnostic.atNode])

theorem moves_requireUpdate : Moves R (requireUpdate g) := by
  refine fun p => (ensures_requireUpdate p).mono ?_
  rintro _ _ rfl
  exact h.refl _

/-- A handle that is declared already is only named; otherwise it is declared under that name. -/
theorem moves_rootHandle (handle : Handle) : Moves R (rootHandle g handle) := by
  refine fun p => ensures_bind.2 (ensures_get.2 ?_)
  split
  · exact h.moves_register _ _ p
  · rename_i hnew
    refine ensures_bind.2 ((ensures_requireUpdate p).mono ?_)
    rintro _ _ rfl
    simp only [register, declare, ensures_bind, ensures_get, ensures_set, ensures_modify,
      ensures_pure]
    refine h.trans (h.symbols_register _ handle.key handle.hint) (h.handles _ handle _ ?_ ?_)
    · exact fun hmem => hnew (List.contains_iff_mem.2 hmem)
    · exact SymbolTable.get?_register _ _ _

/-! ### Naming -/

variable (n : NodeId)

theorem moves_nameOutput (output : PortRef) (hint : String) : Moves R (nameOutput output hint) :=
  h.moves_bind (h.moves_register _ _) fun _ => h.moves_bindOutput _ (.ident _)

theorem moves_nameOutputs (node : Node) : Moves R (nameOutputs n node) := by
  refine h.moves_forM fun x => ?_
  dsimp only
  split
  · exact h.moves_nameOutput _ _
  · exact h.moves_pure _

theorem moves_nameTime (port expression : String) : Moves R (nameTime g n port expression) := by
  refine h.moves_bind (h.moves_ofGraph _) fun output => ?_
  split
  · refine h.moves_bind (h.moves_register _ _) fun name => ?_
    refine h.moves_bind (h.moves_requireUpdate) fun _ => ?_
    refine h.moves_bind (fun p => ensures_modify.2 (h.times p _ _)) fun _ => ?_
    exact h.moves_bindOutput _ (.ident name)
  · exact h.moves_pure _

theorem moves_nameEvent (hmanager : Manages g R) {e : Lifecycle}
    (hn : g.kind? n = some (.event e)) : Moves R (nameEvent (rootHandle g) g n e) := by
  refine h.moves_bind (h.moves_ofGraph _) fun state => ?_
  refine h.moves_bind (h.moves_bindOutput _ (.ident _)) fun _ => ?_
  split
  · rename_i he
    refine h.moves_bind (h.moves_nameTime n _ _) fun _ => ?_
    refine h.moves_bind (h.moves_nameTime n _ _) fun _ => ?_
    refine fun p => ensures_bind.2 (ensures_ofGraph.2 fun manager hport => ?_)
    split
    · rename_i hread
      refine ensures_bind.2 (((h.moves_rootHandle _ p).and ensures_rootHandle).mono ?_)
      intro name q hq
      exact ensures_modify.2
        (h.trans hq.1 (hmanager q manager name ⟨n, he ▸ hn, hport, hread⟩ hq.2))
    · exact h.moves_pure _ p
  · exact h.moves_pure _

theorem moves_nameEntry (function : MemberId) : Moves R (nameEntry g n function) := by
  refine h.moves_forM fun x => ?_
  refine h.moves_bind (h.moves_ofGraph _) fun output => h.moves_get fun p => ?_
  split
  · exact h.moves_bindOutput _ (.ident _)
  · exact h.moves_pure _

theorem moves_nameItem (item : QueryItem) : Moves R (nameItem g n item) := by
  refine h.moves_bind (h.moves_ofGraph _) fun _ => ?_
  refine h.moves_bind (h.moves_register _ _) fun name => h.moves_bindOutput _ ?_
  cases item.access with
  | readWrite => exact .wrapper name
  | readOnly => exact .held name
  | value => exact .ident name

theorem moves_nameForeach (node : Node) (spec : ForeachSpec) :
    Moves R (nameForeach g n node spec) := by
  have hitems : Moves R (spec.items.forM (nameItem g n)) := h.moves_forM (h.moves_nameItem n)
  unfold nameForeach
  split
  · refine h.moves_bind (h.moves_nameOutputs n node) fun _ => h.moves_get fun p => ?_
    split
    · exact h.moves_bind (h.moves_register _ _) fun _ => h.moves_pure _
    · exact h.moves_pure _
  · dsimp only
    split
    · refine h.moves_bind (h.moves_ofGraph _) fun output => ?_
      exact h.moves_bind (h.moves_nameOutput _ _) fun _ => hitems
    · exact hitems

theorem moves_nameExecutor (runWith : Discipline) (job : Option NodeId) :
    Moves R (nameExecutor g n runWith job) := by
  have hrest : Moves R (do
      let handle ← ofGraph (g.portRef n PortName.jobHandle)
      if g.isConnected handle then
        if runWith = .run then
          report (.node n) .runHasNoJobHandle
          bindOutput handle (.fixed (.ident "default(JobHandle)"))
        else nameOutput handle PortName.jobHandle) := by
    refine h.moves_bind (h.moves_ofGraph _) fun handle => ?_
    split
    · split
      · exact h.moves_bind (h.moves_report _ .runHasNoJobHandle)
          fun _ => h.moves_bindOutput _ (.ident _)
      · exact h.moves_nameOutput _ _
    · exact h.moves_pure _
  refine h.moves_get fun p => ?_
  dsimp only
  split
  · exact h.moves_bind (h.moves_register _ _) fun _ => hrest
  · exact hrest

theorem moves_nameEntityNode (handle : Handle) :
    Moves R (nameEntityNode (rootHandle g) g n handle) := by
  refine h.moves_get fun p => ?_
  split
  · exact h.moves_bind (h.moves_rootHandle _) fun _ => h.moves_pure _
  · exact h.moves_pure _

/-- Naming a node respects everything that its steps respect. -/
theorem moves_nameNode (hmanager : Manages g R) : Moves R (nameNode (rootHandle g) g n) := by
  refine fun p => ensures_bind.2 (ensures_ofGraph.2 fun node hnode => ?_)
  revert p
  change Moves R _
  split
  · rename_i hkind
    exact h.moves_nameEvent n hmanager (by simp [Graph.kind?, Graph.node_eq_ok.1 hnode, hkind])
  · exact h.moves_nameEntry n _
  · exact h.moves_bind (h.moves_ofGraph _) fun _ => h.moves_nameOutput _ _
  · exact h.moves_nameForeach n node _
  · exact h.moves_nameOutputs n node
  · exact h.moves_nameOutputs n node
  · exact h.moves_nameExecutor n _ _
  · refine h.moves_bind (h.moves_ofGraph _) fun _ => ?_
    exact h.moves_bind (h.moves_nameOutput _ _) fun _ => h.moves_nameEntityNode n _
  · exact h.moves_nameEntityNode n _
  · exact h.moves_nameEntityNode n _
  · exact h.moves_nameEntityNode n _
  · exact h.moves_nameEntityNode n _
  · exact h.moves_pure _

end Steady

end Planning

end EntityFlow
