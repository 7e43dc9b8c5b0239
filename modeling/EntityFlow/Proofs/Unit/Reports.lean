import EntityFlow.Proofs.Generation.Drafts
import EntityFlow.Proofs.Planning.Collector

/-!
# What a compilation reports

The check, planning and drafting report one after the other, as if to one collector.
`Graph.collect` is planning and drafting with a collector that holds something already.  It keeps
this in front, and neither what is added nor how the run ends depends on it, errors included.  So
what a unit comes with is what the check found, followed by what a collector that was empty at the
start would hold.

With errors denied, the check alone decides whether a graph is refused for them, and a graph that is
not refused is compiled as if they were allowed.
-/

namespace EntityFlow

/-! ## Code does not depend on what was reported

Once the functions that a function calls are rewritten, the two sides compute to the same term. -/

namespace Site

variable (g : Graph) (p : Plan) (found : List Diagnostic) (scope : Scope)

theorem computeWith_after : computeWith ⟨g, p.after found, scope⟩ = computeWith ⟨g, p, scope⟩ := rfl

theorem valueWithin_after (fuel : Nat) : valueWithin ⟨g, p.after found, scope⟩ fuel =
    valueWithin ⟨g, p, scope⟩ fuel := by
  induction fuel with
  | zero => rfl
  | succ fuel ih =>
    funext access output
    unfold valueWithin
    rw [ih, computeWith_after]
    rfl

/-- The code of a value does not depend on what was reported. -/
theorem value_after : value ⟨g, p.after found, scope⟩ = value ⟨g, p, scope⟩ := by
  funext access output
  unfold value
  rw [valueWithin_after]

theorem statementsWith_after : statementsWith ⟨g, p.after found, scope⟩ =
    statementsWith ⟨g, p, scope⟩ := by
  funext next n
  unfold statementsWith scheduleLoop execute inlineLoop constructionFields fieldValue
    localStatement destroyStatement setComponentStatement setEnabledStatement readOptional read
    target
  rw [value_after]
  rfl

theorem nodeFlowWithin_after (fuel : Nat) : nodeFlowWithin ⟨g, p.after found, scope⟩ fuel =
    nodeFlowWithin ⟨g, p, scope⟩ fuel := by
  induction fuel with
  | zero => rfl
  | succ fuel ih =>
    funext path n
    unfold nodeFlowWithin
    rw [ih, statementsWith_after]

/-- The code behind a flow output does not depend on what was reported. -/
theorem flow_after : flow ⟨g, p.after found, scope⟩ = flow ⟨g, p, scope⟩ := by
  funext output
  unfold flow nodeFlow
  rw [nodeFlowWithin_after]

theorem follow_after : follow ⟨g, p.after found, scope⟩ = follow ⟨g, p, scope⟩ := by
  funext n port
  unfold follow
  rw [flow_after]
  rfl

end Site

/-- Drafting does not depend on what was reported. -/
theorem Draft.generate_after (g : Graph) (p : Plan) (found : List Diagnostic) :
    generate g (p.after found) = generate g p := by
  have hentry : entryBody g (p.after found) = entryBody g p := by
    funext n
    unfold entryBody
    simp only [Site.follow_after]
  have hjob : jobBody? g (p.after found) = jobBody? g p := by
    funext n
    unfold jobBody? jobBody copiedBody
    simp only [Site.follow_after, Site.flow_after]
    rfl
  unfold generate
  rw [hentry, hjob]

/-! ## Notes after problems -/

namespace Ledger

/-- The ledger with diagnostics in front of its own. -/
def after (found : List Diagnostic) (l : Ledger) : Ledger :=
  { l with diagnostics := found ++ l.diagnostics }

/-- What was reported before changes nothing about what is entered. -/
theorem add_after (found : List Diagnostic) (l : Ledger) (x : Note) :
    (after found l).add x = after found (l.add x) := by
  cases x with
  | problem d => simp [after, add]
  | root h part => by_cases hold : h ∈ l.handles <;> simp [after, add, hold]
  | own m h part | foreign m n h =>
    by_cases hold : (m, h) ∈ l.functionHandles <;> simp [after, add, hold]

/-- What was reported before stays in front of what is entered. -/
theorem enter_after (found : List Diagnostic) (l : Ledger) (notes : List Note) :
    (after found l).enter notes = after found (l.enter notes) := by
  induction notes generalizing l with
  | nil => rfl
  | cons x notes ih => rw [enter_cons, enter_cons, add_after, ih]

end Ledger

/-! ## Units -/

namespace Graph

variable (g : Graph) (options : Options)

/-- Plan and generate with one collector, which holds `found` at the start: what it holds in the
end. -/
def collect (found : List Diagnostic) : Except CompileError (List Diagnostic) := do
  let (_, p) ← (Planning.planAll g).run ((Plan.start g).after found)
  let (result, ledger) := (Draft.generate g p).run.run (.ofPlan p)
  let _ ← result
  return ledger.diagnostics

/-- A collector keeps what it held, in front of what is reported to it. -/
theorem collect_eq (found : List Diagnostic) :
    g.collect found = (g.assemble options).map fun a => found ++ a.diagnostics := by
  unfold collect assemble Plan.make
  rw [(Planning.unswayed_planAll g).run]
  cases (Planning.planAll g).run (.start g) with
  | error e => rfl
  | ok x =>
    obtain ⟨_, p⟩ := x
    obtain ⟨r, new, hadds, -⟩ := (Draft.composed_generate g p).exists_adds
    have hledger : Ledger.ofPlan (p.after found) = (Ledger.ofPlan p).after found := rfl
    simp only [Except.map, Prod.map, bind, Except.bind, Draft.generate_after, hadds _, hledger,
      Ledger.enter_after]
    cases r with
    | error e => rfl
    | ok draft => rfl

/-- What a collector holds at the start, it has in front in the end. -/
theorem collect_append (found : List Diagnostic) :
    g.collect found = (g.collect []).map (found ++ ·) := by
  rw [g.collect_eq {} found, g.collect_eq {} []]
  cases g.assemble {} <;> rfl

variable {g options}

/-- Assembling ends in no error but those of planning and generation. -/
theorem isGenerated_of_assemble {e : CompileError} (h : g.assemble options = .error e) :
    e.isGenerated = true := by
  unfold assemble Plan.make at h
  cases hplan : (Planning.planAll g).run (.start g) with
  | error e' =>
    rw [hplan] at h
    cases h
    exact (Planning.unswayed_planAll g).error _ _ hplan
  | ok x =>
    obtain ⟨r, new, hadds, -, hr⟩ := (Draft.composed_generate g x.2).exists_adds
    rw [hplan] at h
    simp only [Except.map, bind, Except.bind, hadds _] at h
    cases r with
    | ok draft => cases h
    | error e' =>
      cases h
      exact hr _ rfl

/-- Denying errors shows in the options of the assembly alone. -/
theorem assemble_denyErrors (deny : Bool) : g.assemble { options with denyErrors := deny } =
    (g.assemble options).map fun a =>
      { a with options := { a.options with denyErrors := deny } } := by
  unfold assemble
  cases Plan.make g with
  | error e => rfl
  | ok p =>
    rcases hrun : (Draft.generate g p).run.run (.ofPlan p) with ⟨e | draft, ledger⟩
    · simp only [bind, Except.bind, hrun, Except.map]
    · simp only [bind, Except.bind, hrun, Except.map, pure, Except.pure]

/-- A graph whose check is not held against it is compiled alike, whatever the option. -/
theorem compile_denyErrors (hclean : Diagnostic.hasErrors g.check = false) (deny : Bool) :
    g.compile { options with denyErrors := deny } = g.compile options := by
  rw [compile_eq, compile_eq, hclean, Bool.and_false, Bool.and_false, if_neg (by simp),
    if_neg (by simp), assemble_denyErrors]
  cases g.assemble options <;> rfl

/-- The check comes first and is never altered: what a unit reports is what the check found,
followed by what planning and drafting report, as they would to a collector of their own.  If errors
are denied, a graph is refused for what its check found exactly if there is an error in it, and
compiled as ever otherwise. -/
theorem compile_reports (g : Graph) (options : Options) :
    (∀ found, g.collect found = (g.collect []).map (found ++ ·)) ∧
    (∀ u, g.compile options = .ok u → g.collect g.check = .ok u.diagnostics ∧
      ∃ generated, g.collect [] = .ok generated ∧ u.diagnostics = g.check ++ generated) ∧
    (options.denyErrors = true →
      (∀ ds, g.compile options = .error (.analysisFailed ds) ↔
        ds = g.check ∧ ∃ d ∈ g.check, d.isError = true) ∧
      ((∀ d ∈ g.check, d.isError = false) →
        g.compile options = g.compile { options with denyErrors := false })) := by
  refine ⟨g.collect_append, fun u hu => ?_, fun hdeny => ⟨fun ds => ?_, fun hclean => ?_⟩⟩
  · obtain ⟨a, ha, -, hdiagnostics⟩ := compile_eq_ok hu
    refine ⟨?_, a.diagnostics, ?_, hdiagnostics⟩
    · rw [g.collect_eq options, ha, hdiagnostics]
      rfl
    · rw [g.collect_eq options, ha]
      rfl
  · rw [compile_eq, hdeny, Bool.true_and, Diagnostic.hasErrors, ← List.any_eq_true]
    split
    · rename_i herrors
      constructor
      · rintro ⟨⟩
        exact ⟨rfl, herrors⟩
      · rintro ⟨rfl, -⟩
        rfl
    · rename_i hclean
      refine ⟨fun hfail => ?_, fun hfail => absurd hfail.2 hclean⟩
      -- Only assembling is left to fail, and it does so for reasons of its own.
      cases ha : g.assemble options with
      | ok a =>
        rw [ha] at hfail
        cases hfail
      | error e =>
        rw [ha] at hfail
        cases hfail
        cases isGenerated_of_assemble ha
  · refine (compile_denyErrors ?_ false).symm
    rw [Diagnostic.hasErrors, List.any_eq_false]
    exact fun d hd => by simp [hclean d hd]

/-- Nothing gives the entity that is destroyed, and a function has no entry. -/
def wanting : Graph := build {} [
  .addFunction "Idle" [] none false,
  .addNode "Update" (.event .update) ContainerTree.root,
  .addNode "Destroy" .destroyEntity ContainerTree.root,
  .connect ⟨0⟩ "exit" ⟨1⟩ "enter"]

/-- A function without entry, which is not an error. -/
def idle : Graph := build {} [.addFunction "Idle" [] none false]

/-- The check, planning and drafting all report something. -/
theorem compile_reports_wanting :
    (∃ u generated, wanting.compile {} = .ok u ∧ wanting.collect [] = .ok generated ∧
      generated.length = 2 ∧ u.diagnostics = wanting.check ++ generated) ∧
    (∃ d ∈ wanting.check, d.isError = true) ∧
    wanting.compile { denyErrors := true } = .error (.analysisFailed wanting.check) ∧
    (∀ d ∈ idle.check, d.isError = false) ∧
    idle.compile { denyErrors := true } = idle.compile {} := by
  have herror : ∃ d ∈ wanting.check, d.isError = true := by decide +kernel
  have hclean : ∀ d ∈ idle.check, d.isError = false := by decide +kernel
  obtain ⟨u, hu, -⟩ := exists_ok_of_any (x := wanting.compile {}) (c := fun _ => true)
    (by decide +kernel)
  obtain ⟨ds, hds, hlength⟩ := exists_ok_of_any (x := wanting.collect [])
    (c := fun ds => ds.length == 2) (by decide +kernel)
  obtain ⟨-, generated, hgenerated, hreports⟩ := (compile_reports wanting {}).2.1 u hu
  obtain rfl : ds = generated := Except.ok.inj (hds.symm.trans hgenerated)
  refine ⟨⟨u, ds, hu, hds, by simpa using hlength, hreports⟩, herror, ?_, hclean, ?_⟩
  · exact (((compile_reports wanting { denyErrors := true }).2.2 rfl).1 _).2 ⟨rfl, herror⟩
  · exact ((compile_reports idle { denyErrors := true }).2.2 rfl).2 hclean

end Graph

end EntityFlow
