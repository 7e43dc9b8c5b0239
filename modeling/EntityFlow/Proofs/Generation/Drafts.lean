import EntityFlow.Compile
import EntityFlow.Proofs.Generation.Leaves
import EntityFlow.Proofs.Planning.Fields

/-!
# From leaves to units

A draft is generated in one run, whose ledger holds the diagnostics of the unit.  So what holds of
leaves by what was entered holds throughout the draft by what is reported.
-/

namespace EntityFlow

/-! ## Leaves of a plan -/

namespace Expr

/-- Leaves that are neither a handle of the unit nor a placeholder. -/
def IsPlain (x : Expr) : Prop :=
  (∀ h name use, x ≠ .handle h name use) ∧ ∀ port, x ≠ .unresolved port

end Expr

namespace Site

open Planning

variable {g : Graph} {p : Plan} {scope : Scope} {N : Ledger} {P : Option NodeId → Expr → Prop}

/-- What is left to show for the leaves of a plan's code: plain leaves never depend on what was
entered, an output reads as a handle only where an event gives it out, and a job is given a handle
only if it holds the command buffer. -/
theorem grounds_of_make (hp : Plan.make g = .ok p) (hplain : ∀ job x, x.IsPlain → P job x)
    (hpassed : ∀ job x, P none x → P (some job) x)
    (hhandle : ∀ n h, N.Asks scope.method? h → P none (.handle h (p.handleName h) (.node n)))
    (hgap : ∀ port, Gap ⟨g, p, scope⟩ N port → P none (.unresolved port))
    (hmanager : ∀ output name, IsManager g output → Declares p .entityManager name →
      P none (.handle .entityManager name (.output output)))
    (hbuffer : ∀ j ∈ p.jobs, .commandBuffer ∈ j.owners → ∀ name, Declares p .commandBuffer name →
      P (some j.node) (.handle .commandBuffer name (.job j.node))) : Grounds ⟨g, p, scope⟩ N P where
  passed := hpassed
  ident _ := hplain _ _ ⟨nofun, nofun⟩
  capture _ := hplain _ _ ⟨nofun, nofun⟩
  literal _ := hplain _ _ ⟨nofun, nofun⟩
  member _ _ _ := hplain _ _ ⟨nofun, nofun⟩
  handle := hhandle
  gap := hgap
  bound output b access hb := by
    have hident : ∀ name, (Expr.ident name).All (P none) := fun name =>
      Expr.all_of_leaf rfl (hplain _ _ ⟨nofun, nofun⟩)
    rcases (sound_make hp).bound_of_binding? hb with hnamed | ⟨houtput, name, hdeclared, rfl⟩
    · cases hnamed with
      | ident name => exact hident name
      | held name => exact (Expr.all_access _).2 (hident name)
      | wrapper name => cases access <;> exact (Expr.all_access _).2 (hident name)
    · exact Expr.all_of_leaf rfl (hmanager output name houtput hdeclared)
  fields j hj f hf e he := by
    obtain ⟨b, -, ⟨-, hequipped⟩, -⟩ := exists_equipped hp hj
    have hfits := hequipped.fits f hf
    have hheld : f.owner = .commandBuffer → .commandBuffer ∈ j.owners :=
      fun howner => Job.mem_owners.2 ⟨f, hf, howner⟩
    have hident : ∀ name, (Expr.ident name).All (P (some j.node)) := fun name =>
      Expr.all_of_leaf rfl (hplain _ _ ⟨nofun, nofun⟩)
    rw [he] at hfits
    generalize howner : f.owner = owner at hfits hheld
    cases hfits with
    | copied m name => exact Expr.all_of_leaf rfl (hplain _ _ ⟨nofun, nofun⟩)
    | auto m name => exact Expr.all_of_leaf rfl (hplain _ _ ⟨nofun, nofun⟩)
    | lookup type =>
      exact (Expr.all_invokeOn _ _).2 ⟨hident _, List.forall_mem_singleton.2 (hident _)⟩
    | buffer name h => exact Expr.all_of_leaf rfl (hbuffer j hj (hheld rfl) name h)
    | writer name h =>
      exact (Expr.all_invokeOn _ _).2
        ⟨Expr.all_of_leaf rfl (hbuffer j hj (hheld rfl) name h), List.forall_mem_nil _⟩

end Site

/-! ## Code of a draft -/

/-- A job of the plan with the code generated for it. -/
structure JobBody.Written (g : Graph) (p : Plan) (N : Ledger) (b : JobBody) : Prop where
  job : b.job ∈ p.jobs
  copies : b.functions.map Prod.fst = b.job.functions
  execute : Site.Emits ⟨g, p, .job b.job.node⟩ N b.execute
  functions : ∀ x ∈ b.functions, Site.Emits ⟨g, p, .job b.job.node⟩ N x.2

namespace Draft

open Generation Site

variable {g : Graph} {p : Plan} {N : Ledger} {P : Scope → Option NodeId → Expr → Prop} {d : Draft}

/-- Where the body of a method is generated: outside functions for an event, and else in the
function of that name. -/
inductive Lands (p : Plan) (method : String) : Scope → Prop
  | event (e : Lifecycle) (h : e.methodName = method) : Lands p method .unit
  | function (f : MemberId) (h : p.symbols.get? (.member f) = some method) :
      Lands p method (.function method)

/-- All code of the draft has the forms that generation makes in its scope. -/
structure Emitted (g : Graph) (p : Plan) (N : Ledger) (d : Draft) : Prop where
  bodies : ∀ x ∈ d.bodies, ∃ scope, Lands p x.1 scope ∧ Site.Emits ⟨g, p, scope⟩ N x.2
  jobs : ∀ b ∈ d.jobs, b.Written g p N

/-- The code of an entry lands in one method, and is made for the scope of this method. -/
theorem noted_entryBody (n : NodeId) : Noted N (entryBody g p n) fun o =>
    ∀ x ∈ o, ∃ scope, Lands p x.1 scope ∧ Site.Emits ⟨g, p, scope⟩ N x.2 := by
  refine noted_ofGraph_then fun node => ?_
  split
  · rename_i e _
    refine noted_bind (noted_follow n _) fun body => ?_
    split
    · refine noted_pure fun hbody x hx => ?_
      obtain rfl := Option.some.inj hx
      exact ⟨.unit, .event e rfl, hbody⟩
    · exact noted_throw
  · rename_i f _
    split
    · refine noted_attempt_bind fun method hmethod => ?_
      refine noted_bind (noted_follow n _) fun body => ?_
      split
      · refine noted_pure fun hbody x hx => ?_
        obtain rfl := Option.some.inj hx
        exact ⟨.function method, .function f (Naming.functionName_eq_ok.1 hmethod).2, hbody⟩
      · exact noted_throw
    · exact noted_pure nofun
  · exact noted_pure nofun

/-- A function is copied for the job that calls it. -/
theorem noted_copiedBody (boundary : NodeId) (f : MemberId) :
    Noted N (copiedBody g p boundary f) fun x =>
      x.1 = f ∧ Site.Emits ⟨g, p, .job boundary⟩ N x.2 := by
  refine noted_attempt_bind fun _ _ => ?_
  split
  · exact noted_map (noted_follow _ _) fun _ hbody => ⟨rfl, hbody⟩
  · exact noted_pure ⟨rfl, .nil⟩

/-- The body of a job is written for the job that the plan has for the node. -/
theorem noted_jobBody (n : NodeId) :
    Noted N (jobBody g p n) fun b => p.job? n = some b.job ∧ b.Written g p N := by
  unfold jobBody
  split
  · rename_i j hj
    refine noted_bind (noted_flow j.body) fun execute => ?_
    refine noted_bind (noted_mapM_key fun f _ => noted_copiedBody j.node f) fun functions => ?_
    refine noted_pure fun ⟨hcopies, hfunctions⟩ hexecute => ⟨hj, ?_, hcopies, hexecute, hfunctions⟩
    exact List.mem_of_find?_eq_some hj
  · exact noted_throw

theorem noted_jobBody? (n : NodeId) : Noted N (jobBody? g p n) fun o =>
    ∀ b ∈ o, p.job? n = some b.job ∧ b.Written g p N := by
  refine noted_tryCatch (noted_map (noted_jobBody n) fun b hb => by simpa using hb) fun e => ?_
  split
  · exact noted_then ((noted_report _ _).imp fun _ _ => trivial) fun _ => noted_pure nofun
  · exact noted_throw

/-- All that is drafted is made by the rules. -/
theorem noted_generate : Noted N (generate g p) (Emitted g p N) := by
  refine noted_bind (noted_mapM fun n _ => noted_entryBody n) fun bodies => ?_
  refine noted_bind (noted_mapM (R := fun o => ∀ b ∈ o, b.Written g p N) fun b _ =>
    (noted_jobBody? b.node).imp fun o ho b hb => (ho b hb).2) fun jobs => noted_pure ?_
  intro hjobs hbodies
  constructor
  · intro x hx
    obtain ⟨o, ho, hox⟩ := List.mem_filterMap.1 hx
    exact hbodies o ho x hox
  · intro b hb
    obtain ⟨o, ho, hob⟩ := List.mem_filterMap.1 hb
    exact hjobs o ho b hob

/-- All leaves of the draft satisfy `P` in the scope they are generated in. -/
structure All (p : Plan) (P : Scope → Option NodeId → Expr → Prop) (d : Draft) : Prop where
  bodies : ∀ x ∈ d.bodies, ∃ scope, Lands p x.1 scope ∧ Stmt.All (P scope) x.2
  execute : ∀ b ∈ d.jobs, Stmt.All (P (.job b.job.node)) b.execute
  functions : ∀ b ∈ d.jobs, ∀ x ∈ b.functions, Stmt.All (P (.job b.job.node)) x.2

/-- A property of all leaves can be weakened. -/
theorem All.imp {Q : Scope → Option NodeId → Expr → Prop} (h : d.All p P)
    (hPQ : ∀ scope job x, P scope job x → Q scope job x) : d.All p Q where
  bodies x hx := by
    obtain ⟨scope, hlands, hbody⟩ := h.bodies x hx
    exact ⟨scope, hlands, fun u hu => hPQ scope u.1 u.2 (hbody u hu)⟩
  execute b hb u hu := hPQ _ u.1 u.2 (h.execute b hb u hu)
  functions b hb x hx u hu := hPQ _ u.1 u.2 (h.functions b hb x hx u hu)

/-- What holds of all that is made at a site holds in the whole draft. -/
theorem Emitted.all (h : d.Emitted g p N) (hP : ∀ scope, Grounds ⟨g, p, scope⟩ N (P scope)) :
    d.All p P where
  bodies x hx := by
    obtain ⟨scope, hlands, hbody⟩ := h.bodies x hx
    exact ⟨scope, hlands, (hP scope).all_of_emits hbody⟩
  execute b hb := (hP _).all_of_emits (h.jobs b hb).execute
  functions b hb x hx := (hP _).all_of_emits ((h.jobs b hb).functions x hx)

end Draft

/-! ## Units -/

namespace Graph

variable {g : Graph} {options : Options} {a : Assembly} {u : CompiledUnit}

/-- Everything that an assembly was made from. -/
theorem assemble_eq_ok (h : g.assemble options = .ok a) : a.graph = g ∧ Plan.make g = .ok a.plan ∧
    (Draft.generate g a.plan).run.run (.ofPlan a.plan) = (.ok a.draft, a.ledger) := by
  unfold assemble at h
  obtain ⟨p, hp, h⟩ := bind_eq_ok.1 h
  rcases hrun : (Draft.generate g p).run.run (.ofPlan p) with ⟨e | draft, ledger⟩
  · rw [hrun] at h
    exact absurd h nofun
  · rw [hrun] at h
    obtain rfl := Except.ok.inj h
    exact ⟨rfl, hp, hrun⟩

/-- A graph is refused for what its check found, or else compiled as it was assembled. -/
theorem compile_eq (g : Graph) (o : Options) : g.compile o =
    if o.denyErrors && Diagnostic.hasErrors g.check then .error (.analysisFailed g.check)
    else (g.assemble o).map fun a =>
      ⟨g.settings.name, a.source, fingerprint a.source, g.check ++ a.diagnostics⟩ := by
  unfold compile
  dsimp only
  split
  · rfl
  · cases g.assemble o <;> rfl

/-- Everything that a unit was made from. -/
theorem compile_eq_ok (h : g.compile options = .ok u) : ∃ a, g.assemble options = .ok a ∧
    u.source = a.source ∧ u.diagnostics = g.check ++ a.diagnostics := by
  rw [compile_eq] at h
  split at h
  · exact absurd h nofun
  · cases ha : g.assemble options with
    | error e =>
      rw [ha] at h
      cases h
    | ok a =>
      rw [ha] at h
      obtain rfl := Except.ok.inj h
      exact ⟨a, rfl, rfl, rfl⟩

/-- What planning leaves is still there in the end. -/
theorem ofPlan_le (ha : g.assemble options = .ok a) : Ledger.ofPlan a.plan ≤ a.ledger := by
  obtain ⟨-, -, hrun⟩ := assemble_eq_ok ha
  have hkept := (Draft.noted_generate (g := g) (p := a.plan) (N := a.ledger) (.ofPlan a.plan)).1
  rwa [hrun] at hkept

/-- The draft consists of forms that generation makes, with respect to all that was entered in the
end. -/
theorem emitted_draft (ha : g.assemble options = .ok a) : a.draft.Emitted g a.plan a.ledger := by
  obtain ⟨-, -, hrun⟩ := assemble_eq_ok ha
  have hnoted := (Draft.noted_generate (g := g) (p := a.plan) (N := a.ledger) (.ofPlan a.plan)).2
  rw [hrun] at hnoted
  exact hnoted (Ledger.le_refl _) a.draft rfl

/-- What the ledger says of leaves holds throughout the draft. -/
theorem all_draft {P : Scope → Option NodeId → Expr → Prop} (ha : g.assemble options = .ok a)
    (hP : ∀ scope, Site.Grounds ⟨g, a.plan, scope⟩ a.ledger (P scope)) : a.draft.All a.plan P :=
  (emitted_draft ha).all hP

end Graph

end EntityFlow
