import EntityFlow.Proofs.Planning.Jobs

/-!
# What holds of every plan

Claiming and describing add few updates to those of naming.  A steady relation that holds across
them as well leads from the start of planning to every plan that is made.  This gives the invariants
of plans: an input that is given up was reported, an output reads as a handle only where an event
gives it out, and no name is one that generated code uses itself.
-/

namespace EntityFlow

/-! ## Names that are never bound -/

namespace SymbolTable

variable {t : SymbolTable} {names : List String}

/-- The names are taken, and none of them is bound. -/
structure Avoids (t : SymbolTable) (names : List String) : Prop where
  taken : ∀ name ∈ names, name ∈ t.taken
  bound : ∀ b ∈ t.bound, b.2 ∉ names

/-- A name that is avoided stays so, whatever is called. -/
theorem Avoids.step (h : t.Avoids names) (c : Call) : (t.step c).Avoids names := by
  obtain ⟨hbound, htaken, -⟩ := step_cases t c
  constructor
  · intro name hname
    exact (htaken name).2 (.inl (h.taken name hname))
  · rcases hbound with hsame | ⟨key, name, hname, hnew⟩
    · rw [hsame]
      exact h.bound
    · rw [hnew]
      refine List.forall_mem_append.2 ⟨h.bound, List.forall_mem_singleton.2 fun hmem => ?_⟩
      exact (isFree_iff.1 (isFree_of_minted? hname).1).1 (h.taken name hmem)

/-- A name that is avoided is not that of a key. -/
theorem Avoids.get?_ne {key : SymbolKey} {name : String} (h : t.Avoids names)
    (hname : name ∈ names) : t.get? key ≠ some name :=
  fun hkey => h.bound _ (mem_bound_of_get? hkey) hname

/-- What is reserved at the start is avoided. -/
theorem avoids_reserve (names : List String) : (names.foldl reserve .empty).Avoids names := by
  suffices h : ∀ t : SymbolTable, t.bound = [] → (names.foldl reserve t).bound = [] ∧
      ∀ name, name ∈ t.taken ∨ name ∈ names → name ∈ (names.foldl reserve t).taken by
    obtain ⟨hbound, htaken⟩ := h .empty rfl
    exact ⟨fun name hname => htaken name (.inr hname), by simp [hbound]⟩
  induction names with
  | nil => simp
  | cons x rest ih =>
    intro t ht
    obtain ⟨hbound, htaken⟩ := ih (t.reserve x) (by simpa using ht)
    refine ⟨hbound, fun name hname => htaken name ?_⟩
    rw [mem_taken_reserve]
    rcases hname with hold | hnew
    · exact .inl (.inl hold)
    · rcases List.mem_cons.1 hnew with rfl | hrest
      · exact .inl (.inr rfl)
      · exact .inr hrest

end SymbolTable

namespace Naming

/-- Members are not called like what generated code uses itself. -/
theorem avoids_memberSymbols (g : Graph) : (memberSymbols g).Avoids ownNames := by
  have hfold : ∀ {α : Type} (xs : List α) (step : SymbolTable → α → SymbolTable),
      (∀ (t : SymbolTable) x, t.Avoids ownNames → (step t x).Avoids ownNames) →
      ∀ t : SymbolTable, t.Avoids ownNames → (xs.foldl step t).Avoids ownNames := by
    intro α xs step hstep t ht
    exact List.foldlRecOn (motive := fun t => t.Avoids ownNames) xs step ht fun t ht x _ =>
      hstep t x ht
  apply hfold
  · intro t x ht
    have hmember := ht.step (.register (.member x.1) x.2.name)
    dsimp only [registerMember]
    split
    · exact hfold _ _ (fun t y ht => ht.step (.register _ _)) _ hmember
    · exact hmember
  · exact (SymbolTable.avoids_reserve ownNames).step (.register _ _)

end Naming

namespace Planning

open Naming

variable {α : Type} {g : Graph} {p q : Plan} {n : NodeId}

/-- A preorder on plans that no update of planning leaves. -/
structure Lasting (g : Graph) (R : Plan → Plan → Prop) : Prop extends Steady g R where
  manager : Manages g R
  boundaries : ∀ p b, R p { p with boundaries := p.boundaries ++ [b] }
  redirects : ∀ p rs, R p { p with redirects := rs ++ p.redirects }
  usings : ∀ p names, R p { p with usings := names }
  jobs : ∀ p j, R p { p with jobs := p.jobs ++ [j] }

namespace Lasting

variable {R : Plan → Plan → Prop} (h : Lasting g R)

include h

theorem moves_declareFunction (id : MemberId) (m : Member) : Moves R (declareFunction g id m) := by
  unfold declareFunction
  split
  · exact h.moves_get fun p => h.moves_bind (h.moves_attempt _) fun _ => h.moves_pure _
  · exact h.moves_pure _

theorem moves_claimBody (n : NodeId) (port : String) : Moves R (claimBody g n port) := by
  refine h.moves_bind (h.moves_ofGraph _) fun body => ?_
  split
  · exact fun p => ensures_modify.2 (h.boundaries p _)
  · exact h.moves_report _ (.nestedUnitFailed _)

theorem moves_claim (n : NodeId) : Moves R (claim g n) := by
  refine h.moves_bind (h.moves_ofGraph _) fun node => ?_
  split
  · exact h.moves_bind (h.moves_register _ _) fun _ => h.moves_claimBody n _
  · exact h.moves_bind (h.moves_register _ _) fun _ => h.moves_claimBody n _
  · exact h.moves_bind (h.moves_register _ _) fun _ => h.moves_claimBody n _
  · exact h.moves_pure _

/-! ### Describing -/

theorem moves_addVariable (j : Job) (i : Nat) (v : JobVariable) :
    Moves R (addVariable g j i v) := by
  unfold addVariable
  split
  · exact h.moves_pure _
  · exact h.moves_bind (h.moves_register _ _) fun _ => h.moves_pure _

theorem moves_nameCapture (n : NodeId) (source : PortRef) (port : Port) :
    Moves R (captureName g n source port) := by
  refine h.moves_get fun p => ?_
  split
  · exact h.moves_pure _
  · exact h.moves_register _ _

theorem moves_addCrossing (j : Job) (source : PortRef) (inputs : List PortRef) :
    Moves R (addCrossing g j source inputs) := by
  have hredirect : ∀ (type : String) (name : String), Moves R (do
      modify fun p =>
        { p with redirects := (inputs.map fun i => (i, j.node, name)).reverse ++ p.redirects }
      return j.addField ⟨name, type, false, .port source, .port source⟩) := by
    intro type name
    exact h.moves_bind (fun p => ensures_modify.2 (h.redirects p _)) fun _ => h.moves_pure _
  unfold addCrossing
  split
  · exact h.moves_pure _
  · split
    · refine h.moves_bind (h.moves_forM fun input => ?_) fun _ => h.moves_pure _
      exact h.moves_giveUp input ⟨_, .inl rfl⟩
    · refine h.moves_bind (h.moves_nameCapture _ _ _) fun name => ?_
      dsimp only
      split
      · exact hredirect _ name
      · exact h.moves_bind (h.moves_report _ (.unknownCaptureType _)) fun _ => hredirect _ name

theorem moves_inspect (b : Boundary) (j : Job) (n : NodeId) : Moves R (inspect g b j n) := by
  unfold inspect
  split
  · unfold addLookup
    split
    · exact h.moves_pure _
    · exact h.moves_bind (h.moves_fresh _) fun _ => h.moves_pure _
  · refine h.moves_get fun p => ?_
    split
    · exact h.moves_bind (h.moves_report _ (.writeToCapture _)) fun _ => h.moves_pure _
    · exact h.moves_pure _
  · exact h.moves_pure _

theorem moves_addCommandBuffer (j : Job) : Moves R (addCommandBuffer (rootHandle g) g j) := by
  refine h.moves_bind (h.moves_rootHandle _) fun name => ?_
  split
  · exact h.moves_pure _
  · dsimp only
    split
    · exact h.moves_bind (h.moves_register _ _) fun _ => h.moves_pure _
    · exact h.moves_get fun p => h.moves_pure _

theorem moves_equip (b : Boundary) (bare : Job) : Moves R (equip (rootHandle g) g b bare) := by
  refine h.moves_bind (h.moves_foldlM fun j x => h.moves_addVariable j _ _) fun j => ?_
  refine h.moves_bind (h.moves_foldlM fun j x => h.moves_addCrossing j _ _) fun j => ?_
  refine h.moves_bind (h.moves_forM fun x => h.moves_giveUp x.1 ⟨_, .inr rfl⟩) fun _ => ?_
  refine h.moves_get fun p => ?_
  refine h.moves_bind (h.moves_foldlM fun j n => h.moves_inspect b j n) fun j => ?_
  split
  · exact h.moves_addCommandBuffer j
  · exact h.moves_pure j

theorem moves_describe (b : Boundary) : Moves R (describe (rootHandle g) g b) := by
  refine h.moves_get fun p => h.moves_bind (h.moves_attempt _) fun bare => ?_
  have hadd : Moves R (equip (rootHandle g) g b bare >>= fun j =>
      modify fun p => { p with jobs := p.jobs ++ [j] }) :=
    h.moves_bind (h.moves_equip b bare) fun j p => ensures_modify.2 (h.jobs p j)
  dsimp only
  split
  · exact h.moves_bind (fun p => ensures_modify.2 (h.usings p _)) fun _ => hadd
  · exact hadd

/-- Every plan that is made lies along the relation from the start. -/
theorem make (hmake : Plan.make g = .ok p) : R (.start g) p := by
  obtain ⟨q, r, hclaim, hname, hdescribe⟩ := make_eq_ok hmake
  have hclaims := h.moves_forM h.moves_claim _ _ q hclaim
  have hnames := h.moves_forM (fun n => h.moves_nameNode n h.manager) q _ r hname
  have hdescribes := h.moves_forM h.moves_describe r _ p hdescribe
  exact h.trans (h.trans hclaims hnames) hdescribes

end Lasting

/-! ## Handles and outputs -/

/-- Handles stay declared, under the names they have. -/
def KeepsHandles (p q : Plan) : Prop := ∀ h name, Declares p h name → Declares q h name

theorem KeepsHandles.refl (p : Plan) : KeepsHandles p p := fun _ _ h => h

theorem KeepsHandles.trans {r : Plan} (hpq : KeepsHandles p q) (hqr : KeepsHandles q r) :
    KeepsHandles p r :=
  fun h name hp => hqr h name (hpq h name hp)

theorem lasting_keepsHandles (g : Graph) : Lasting g KeepsHandles where
  refl := .refl
  trans := .trans
  symbols_register p key hint _ name hp :=
    ⟨hp.1, SymbolTable.keeps_register p.symbols key hint _ name hp.2⟩
  symbols_fresh p hint _ name hp := ⟨hp.1, SymbolTable.keeps_fresh p.symbols hint _ name hp.2⟩
  diagnostics p _ _ _ := .refl p
  bindings p _ _ _ := .refl p
  handles _ _ _ _ _ _ _ hp := ⟨List.mem_append_left _ hp.1, hp.2⟩
  times p _ _ := .refl p
  unavailable p _ _ := .refl p
  manager p _ _ _ _ := .refl p
  boundaries p _ := .refl p
  redirects p _ := .refl p
  usings p _ := .refl p
  jobs p _ := .refl p

/-- What an output of a plan reads as: a name, or the entity manager as the update method declares
it. -/
def Bound (g : Graph) (p : Plan) (output : PortRef) (b : Binding) : Prop :=
  Named b ∨ IsManager g output ∧
    ∃ name, Declares p .entityManager name ∧
      b = .fixed (.handle .entityManager name (.output output))

/-- A binding stays one while handles are kept. -/
theorem Bound.mono {output : PortRef} {b : Binding} (h : Bound g p output b)
    (hpq : KeepsHandles p q) : Bound g q output b := by
  rcases h with hnamed | ⟨houtput, name, hdeclared, hb⟩
  · exact .inl hnamed
  · exact .inr ⟨houtput, name, hpq _ _ hdeclared, hb⟩

/-- An input that was given up stays so, since reports stay. -/
theorem GivenUp.mono {input : PortRef} (h : GivenUp p input)
    (hpq : p.diagnostics ⊆ q.diagnostics) : GivenUp q input := by
  obtain ⟨port, hport⟩ := h
  exact ⟨port, hport.imp (fun hmem => hpq hmem) fun hmem => hpq hmem⟩

/-! ## The invariants -/

/-- What holds of a plan at every time while it is made. -/
structure Sound (g : Graph) (p : Plan) : Prop where
  /-- Whatever no job can read was reported where it is read. -/
  givenUp : ∀ input ∈ p.unavailable, GivenUp p input
  bound : ∀ x ∈ p.bindings, Bound g p x.1 x.2
  /-- No name is one that generated code uses itself. -/
  names : p.symbols.Avoids ownNames

/-- At the start nothing is bound or given up. -/
theorem sound_start (g : Graph) : Sound g (.start g) where
  givenUp := nofun
  bound := nofun
  names := avoids_memberSymbols g

theorem Sound.bound_mono (h : Sound g p) (hpq : KeepsHandles p q) :
    ∀ x ∈ p.bindings, Bound g q x.1 x.2 := fun x hx => (h.bound x hx).mono hpq

/-- Every step keeps the plan sound. -/
theorem lasting_sound (g : Graph) : Lasting g fun p q => Sound g p → Sound g q where
  refl _ := id
  trans hpq hqr := hqr ∘ hpq
  symbols_register p key hint h :=
    { h with
      bound := h.bound_mono ((lasting_keepsHandles g).symbols_register p key hint)
      names := h.names.step (.register key hint) }
  symbols_fresh p hint h :=
    { h with
      bound := h.bound_mono ((lasting_keepsHandles g).symbols_fresh p hint)
      names := h.names.step (.fresh hint) }
  diagnostics _ _ _ _ h :=
    { h with givenUp := fun i hi => (h.givenUp i hi).mono (List.subset_append_left _ _) }
  bindings _ _ _ hb h := { h with bound := List.forall_mem_cons.2 ⟨.inl hb, h.bound⟩ }
  handles p handle name hnew hname h :=
    { h with bound := h.bound_mono ((lasting_keepsHandles g).handles p handle name hnew hname) }
  times _ _ _ h := { h with }
  unavailable _ _ hnew h :=
    { h with givenUp := List.forall_mem_append.2 ⟨h.givenUp, List.forall_mem_singleton.2 hnew⟩ }
  manager _ _ name houtput hdeclared h :=
    { h with bound := List.forall_mem_cons.2 ⟨.inr ⟨houtput, name, hdeclared, rfl⟩, h.bound⟩ }
  boundaries _ _ h := { h with }
  redirects _ _ h := { h with }
  usings _ _ h := { h with }
  jobs _ _ h := { h with }

/-- Every plan is sound. -/
theorem sound_make (hmake : Plan.make g = .ok p) : Sound g p :=
  (lasting_sound g).make hmake (sound_start g)

/-- What is found among the bindings is bound. -/
theorem Sound.bound_of_binding? {output : PortRef} {b : Binding} (h : Sound g p)
    (hb : p.binding? output = some b) : Bound g p output b := by
  obtain ⟨before, after, hbindings, -⟩ := List.lookup_eq_some_iff.1 hb
  apply h.bound (output, b)
  rw [hbindings]
  simp

end Planning

end EntityFlow
