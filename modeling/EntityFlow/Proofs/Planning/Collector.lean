import EntityFlow.Proofs.Generation.Composed
import EntityFlow.Proofs.Planning.Jobs

/-!
# Planning with what was reported before

A plan collects problems and never looks at them.  `Unswayed m` says that `m` takes the same course
whatever was reported before it: from a plan that has more problems in front it ends in the same
value or the same error, and leaves them where they are.
-/

namespace EntityFlow

/-- The plan with problems that were reported before its own. -/
@[reducible] def Plan.after (found : List Diagnostic) (p : Plan) : Plan :=
  { p with diagnostics := found ++ p.diagnostics }

namespace Planning

open Naming

variable {α β : Type} {m : Planning α} {f : α → Planning β}

/-- Problems that were reported before do not change how `m` runs, and it ends in no error but those
of planning. -/
structure Unswayed (m : Planning α) : Prop where
  run : ∀ found p, m.run (p.after found) = (m.run p).map (Prod.map id (Plan.after found))
  error : ∀ p e, m.run p = .error e → e.isGenerated = true

/-! ## Rules -/

theorem unswayed_pure (a : α) : Unswayed (pure a : Planning α) where
  run _ _ := rfl
  error _ _ h := by cases h

theorem unswayed_throw {e : CompileError} (he : e.isGenerated = true) :
    Unswayed (throw e : Planning α) where
  run _ _ := rfl
  error _ _ h := by
    cases h
    exact he

/-- Two parts that are not swayed by reports make a whole that is not. -/
theorem unswayed_bind (hm : Unswayed m) (hf : ∀ a, Unswayed (f a)) : Unswayed (m >>= f) where
  run found p := by
    rw [StateT.run_bind, StateT.run_bind, hm.run]
    cases hrun : m.run p with
    | error e => rfl
    | ok x => exact (hf x.1).run found x.2
  error p e h := by
    rw [StateT.run_bind] at h
    cases hrun : m.run p with
    | error e' =>
      rw [hrun] at h
      cases h
      exact hm.error p _ hrun
    | ok x =>
      rw [hrun] at h
      exact (hf x.1).error x.2 e h

/-- What is read of the plan is not its problems. -/
theorem unswayed_get {f : Plan → Planning β} (hsame : ∀ found p, f (p.after found) = f p)
    (hf : ∀ p, Unswayed (f p)) : Unswayed (get >>= f) where
  run found p := by
    change (f (p.after found)).run (p.after found) = ((f p).run p).map _
    rw [hsame]
    exact (hf p).run found p
  error p e h := (hf p).error p e h

theorem unswayed_modify {h : Plan → Plan}
    (hsame : ∀ found p, h (p.after found) = (h p).after found) :
    Unswayed (modify h : Planning PUnit) where
  run found p := by
    change Except.ok (_, h (p.after found)) = _
    rw [hsame]
    rfl
  error _ _ h := by cases h

theorem unswayed_report (owner : Owner) (problem : Problem) : Unswayed (report owner problem) :=
  unswayed_modify fun found p => by simp only [Plan.after, List.append_assoc]

theorem unswayed_register (key : SymbolKey) (hint : String) : Unswayed (register key hint) where
  run _ _ := rfl
  error _ _ h := by cases h

theorem unswayed_fresh (hint : String) : Unswayed (fresh hint) where
  run _ _ := rfl
  error _ _ h := by cases h

theorem unswayed_ofGraph (x : Except GraphError α) : Unswayed (ofGraph x) := by
  cases x with
  | ok a => exact unswayed_pure a
  | error e => exact unswayed_throw rfl

theorem unswayed_attempt {x : Except CompileError α}
    (h : ∀ e, x = .error e → e.isGenerated = true) : Unswayed (attempt x) := by
  cases x with
  | ok a => exact unswayed_pure a
  | error e => exact unswayed_throw (h e rfl)

/-- A fold is not swayed if its step is not. -/
theorem unswayed_foldlM {xs : List α} {step : β → α → Planning β} {b : β}
    (hstep : ∀ b x, Unswayed (step b x)) : Unswayed (xs.foldlM step b) := by
  induction xs generalizing b with
  | nil => exact unswayed_pure b
  | cons x xs ih =>
    rw [List.foldlM_cons]
    exact unswayed_bind (hstep b x) fun b' => ih

theorem unswayed_forM {xs : List α} {step : α → Planning PUnit} (hstep : ∀ x, Unswayed (step x)) :
    Unswayed (xs.forM step) := by
  rw [forM_eq_foldlM]
  exact unswayed_foldlM fun _ => hstep

theorem unswayed_bindOutput (output : PortRef) (b : Binding) : Unswayed (bindOutput output b) :=
  unswayed_modify fun _ _ => rfl

variable (g : Graph) (n : NodeId)

theorem unswayed_requireUpdate : Unswayed (requireUpdate g) := by
  unfold requireUpdate
  split
  · exact unswayed_pure _
  · exact unswayed_throw rfl

theorem unswayed_rootHandle (h : Handle) : Unswayed (rootHandle g h) := by
  refine unswayed_get (fun _ _ => rfl) fun p => ?_
  split
  · exact unswayed_register _ _
  · refine unswayed_bind (unswayed_requireUpdate g) fun _ => ?_
    refine unswayed_bind (unswayed_register _ _) fun name => ?_
    refine unswayed_bind (unswayed_modify fun _ _ => rfl) fun _ => ?_
    exact unswayed_bind (unswayed_modify fun _ _ => rfl) fun _ => unswayed_pure name

/-! ## Claiming -/

theorem unswayed_claim : Unswayed (claim g n) := by
  have hbody : ∀ port, Unswayed (claimBody g n port) := by
    intro port
    refine unswayed_bind (unswayed_ofGraph _) fun body => ?_
    split
    · exact unswayed_modify fun _ _ => rfl
    · exact unswayed_report _ _
  refine unswayed_bind (unswayed_ofGraph _) fun node => ?_
  split
  · exact unswayed_bind (unswayed_register _ _) fun _ => hbody _
  · exact unswayed_bind (unswayed_register _ _) fun _ => hbody _
  · exact unswayed_bind (unswayed_register _ _) fun _ => hbody _
  · exact unswayed_pure _

/-! ## Naming -/

theorem unswayed_nameOutput (output : PortRef) (hint : String) :
    Unswayed (nameOutput output hint) :=
  unswayed_bind (unswayed_register _ _) fun _ => unswayed_bindOutput _ _

theorem unswayed_nameOutputs (node : Node) : Unswayed (nameOutputs n node) := by
  refine unswayed_forM fun x => ?_
  dsimp only
  split
  · exact unswayed_nameOutput _ _
  · exact unswayed_pure _

theorem unswayed_nameTime (port expression : String) : Unswayed (nameTime g n port expression) := by
  refine unswayed_bind (unswayed_ofGraph _) fun output => ?_
  split
  · refine unswayed_bind (unswayed_register _ _) fun name => ?_
    refine unswayed_bind (unswayed_requireUpdate g) fun _ => ?_
    refine unswayed_bind (unswayed_modify fun _ _ => rfl) fun _ => ?_
    exact unswayed_bindOutput _ _
  · exact unswayed_pure _

theorem unswayed_nameEvent (e : Lifecycle) : Unswayed (nameEvent (rootHandle g) g n e) := by
  refine unswayed_bind (unswayed_ofGraph _) fun state => ?_
  refine unswayed_bind (unswayed_bindOutput _ _) fun _ => ?_
  split
  · refine unswayed_bind (unswayed_nameTime g n _ _) fun _ => ?_
    refine unswayed_bind (unswayed_nameTime g n _ _) fun _ => ?_
    refine unswayed_bind (unswayed_ofGraph _) fun manager => ?_
    split
    · exact unswayed_bind (unswayed_rootHandle g _) fun _ => unswayed_bindOutput _ _
    · exact unswayed_pure _
  · exact unswayed_pure _

theorem unswayed_nameEntry (function : MemberId) : Unswayed (nameEntry g n function) := by
  refine unswayed_forM fun x => ?_
  refine unswayed_bind (unswayed_ofGraph _) fun output => unswayed_get (fun _ _ => rfl) fun p => ?_
  split
  · exact unswayed_bindOutput _ _
  · exact unswayed_pure _

theorem unswayed_nameItem (item : QueryItem) : Unswayed (nameItem g n item) := by
  refine unswayed_bind (unswayed_ofGraph _) fun _ => ?_
  exact unswayed_bind (unswayed_register _ _) fun name => unswayed_bindOutput _ _

theorem unswayed_nameForeach (node : Node) (spec : ForeachSpec) :
    Unswayed (nameForeach g n node spec) := by
  have hitems : Unswayed (spec.items.forM (nameItem g n)) := unswayed_forM (unswayed_nameItem g n)
  unfold nameForeach
  split
  · refine unswayed_bind (unswayed_nameOutputs n node) fun _ => ?_
    refine unswayed_get (fun _ _ => rfl) fun p => ?_
    split
    · exact unswayed_bind (unswayed_register _ _) fun _ => unswayed_pure _
    · exact unswayed_pure _
  · dsimp only
    split
    · refine unswayed_bind (unswayed_ofGraph _) fun output => ?_
      exact unswayed_bind (unswayed_nameOutput _ _) fun _ => hitems
    · exact hitems

theorem unswayed_nameExecutor (runWith : Discipline) (job : Option NodeId) :
    Unswayed (nameExecutor g n runWith job) := by
  have hrest : Unswayed (do
      let handle ← ofGraph (g.portRef n PortName.jobHandle)
      if g.isConnected handle then
        if runWith = .run then
          report (.node n) .runHasNoJobHandle
          bindOutput handle (.fixed (.ident "default(JobHandle)"))
        else nameOutput handle PortName.jobHandle) := by
    refine unswayed_bind (unswayed_ofGraph _) fun handle => ?_
    split
    · split
      · exact unswayed_bind (unswayed_report _ _) fun _ => unswayed_bindOutput _ _
      · exact unswayed_nameOutput _ _
    · exact unswayed_pure _
  refine unswayed_get (fun _ _ => rfl) fun p => ?_
  dsimp only
  split
  · exact unswayed_bind (unswayed_register _ _) fun _ => hrest
  · exact hrest

theorem unswayed_nameEntityNode (h : Handle) : Unswayed (nameEntityNode (rootHandle g) g n h) := by
  refine unswayed_get (fun _ _ => rfl) fun p => ?_
  split
  · exact unswayed_bind (unswayed_rootHandle g _) fun _ => unswayed_pure _
  · exact unswayed_pure _

/-- Naming a node does not depend on what was reported. -/
theorem unswayed_nameNode : Unswayed (nameNode (rootHandle g) g n) := by
  refine unswayed_bind (unswayed_ofGraph _) fun node => ?_
  split
  · exact unswayed_nameEvent g n _
  · exact unswayed_nameEntry g n _
  · exact unswayed_bind (unswayed_ofGraph _) fun _ => unswayed_nameOutput _ _
  · exact unswayed_nameForeach g n node _
  · exact unswayed_nameOutputs n node
  · exact unswayed_nameOutputs n node
  · exact unswayed_nameExecutor g n _ _
  · refine unswayed_bind (unswayed_ofGraph _) fun _ => ?_
    exact unswayed_bind (unswayed_nameOutput _ _) fun _ => unswayed_nameEntityNode g n _
  · exact unswayed_nameEntityNode g n _
  · exact unswayed_nameEntityNode g n _
  · exact unswayed_nameEntityNode g n _
  · exact unswayed_nameEntityNode g n _
  · exact unswayed_pure _

/-! ## Describing -/

theorem unswayed_addVariable (j : Job) (i : Nat) (v : JobVariable) :
    Unswayed (addVariable g j i v) := by
  unfold addVariable
  split
  · exact unswayed_pure _
  · exact unswayed_bind (unswayed_register _ _) fun _ => unswayed_pure _

theorem unswayed_giveUp (input : PortRef) (problem : Problem) :
    Unswayed (report (.node input.node) problem >>= fun _ => markUnavailable input) :=
  unswayed_bind (unswayed_report _ _) fun _ => unswayed_modify fun _ _ => rfl

theorem unswayed_captureName (source : PortRef) (port : Port) :
    Unswayed (captureName g n source port) := by
  refine unswayed_get (fun _ _ => rfl) fun p => ?_
  split
  · exact unswayed_pure _
  · exact unswayed_register _ _

theorem unswayed_addCrossing (j : Job) (source : PortRef) (inputs : List PortRef) :
    Unswayed (addCrossing g j source inputs) := by
  have hredirect : ∀ (type : String) (name : String), Unswayed (do
      modify fun p =>
        { p with redirects := (inputs.map fun i => (i, j.node, name)).reverse ++ p.redirects }
      return j.addField ⟨name, type, false, .port source, .port source⟩) := by
    intro type name
    exact unswayed_bind (unswayed_modify fun _ _ => rfl) fun _ => unswayed_pure _
  unfold addCrossing
  split
  · exact unswayed_pure _
  · split
    · exact unswayed_bind (unswayed_forM fun input => unswayed_giveUp input _)
        fun _ => unswayed_pure _
    · refine unswayed_bind (unswayed_captureName g _ _ _) fun name => ?_
      dsimp only
      split
      · exact hredirect _ name
      · exact unswayed_bind (unswayed_report _ _) fun _ => hredirect _ name

theorem unswayed_inspect (b : Boundary) (j : Job) : Unswayed (inspect g b j n) := by
  unfold inspect
  split
  · unfold addLookup
    split
    · exact unswayed_pure _
    · exact unswayed_bind (unswayed_fresh _) fun _ => unswayed_pure _
  · refine unswayed_get (fun _ _ => rfl) fun p => ?_
    split
    · exact unswayed_bind (unswayed_report _ _) fun _ => unswayed_pure _
    · exact unswayed_pure _
  · exact unswayed_pure _

theorem unswayed_addCommandBuffer (j : Job) : Unswayed (addCommandBuffer (rootHandle g) g j) := by
  refine unswayed_bind (unswayed_rootHandle g _) fun name => ?_
  split
  · exact unswayed_pure _
  · dsimp only
    split
    · exact unswayed_bind (unswayed_register _ _) fun _ => unswayed_pure _
    · exact unswayed_get (fun _ _ => rfl) fun p => unswayed_pure _

theorem unswayed_equip (b : Boundary) (bare : Job) : Unswayed (equip (rootHandle g) g b bare) := by
  refine unswayed_bind (unswayed_foldlM fun j x => unswayed_addVariable g j _ _) fun j => ?_
  refine unswayed_bind (unswayed_foldlM fun j x => unswayed_addCrossing g j _ _) fun j => ?_
  refine unswayed_bind (unswayed_forM fun x => unswayed_giveUp x.1 _) fun _ => ?_
  refine unswayed_get (fun _ _ => rfl) fun p => ?_
  refine unswayed_bind (unswayed_foldlM fun j n => unswayed_inspect g n b j) fun j => ?_
  split
  · exact unswayed_addCommandBuffer g j
  · exact unswayed_pure j

/-- Describing a job does not depend on what was reported. -/
theorem unswayed_describe (b : Boundary) : Unswayed (describe (rootHandle g) g b) := by
  refine unswayed_get (fun _ _ => rfl) fun p => ?_
  refine unswayed_bind (unswayed_attempt fun e he => ?_) fun bare => ?_
  · rcases bareJob_eq_error he with ⟨rfl, -⟩ | ⟨rfl, -⟩ | ⟨rfl, -⟩ <;> rfl
  · have hadd : Unswayed
        (equip (rootHandle g) g b bare >>= fun j => modify fun p =>
          { p with jobs := p.jobs ++ [j] }) :=
      unswayed_bind (unswayed_equip g b bare) fun j => unswayed_modify fun _ _ => rfl
    dsimp only
    split
    · exact unswayed_bind (unswayed_modify fun _ _ => rfl) fun _ => hadd
    · exact hadd

theorem unswayed_declareFunction (id : MemberId) (m : Member) :
    Unswayed (declareFunction g id m) := by
  unfold declareFunction
  split
  · refine unswayed_get (fun _ _ => rfl) fun p => ?_
    refine unswayed_bind (unswayed_attempt fun e he => ?_) fun _ => unswayed_pure _
    rcases Naming.functionName_eq_error he with ⟨rfl, -⟩ | ⟨rfl, -⟩ <;> rfl
  · exact unswayed_pure _

/-- Planning as a whole does not depend on what was reported. -/
theorem unswayed_planAll : Unswayed (planAll g) := by
  refine unswayed_bind (unswayed_forM fun x => unswayed_declareFunction g x.1 x.2) fun _ => ?_
  refine unswayed_bind (unswayed_forM (unswayed_claim g)) fun _ => ?_
  refine unswayed_bind (unswayed_forM (unswayed_nameNode g)) fun _ => ?_
  exact unswayed_get (fun _ _ => rfl) fun p => unswayed_forM (unswayed_describe g)

end Planning

end EntityFlow
