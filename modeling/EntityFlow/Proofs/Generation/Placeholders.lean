import EntityFlow.Proofs.Generation.Drafts

/-!
# No silent placeholders

Where no value can be produced, generation puts a placeholder and goes on.  There are three causes:
the input cannot be read in a job, nothing feeds the input, or the output reads as nothing.  The
first is reported while the job is described, the others where the placeholder is put.  Whichever it
is, the unit's diagnostics name the node at fault, so a unit without errors has no placeholder.
-/

namespace EntityFlow

open Generation Planning

variable {g : Graph} {p : Plan} {scope : Scope} {ds : List Diagnostic}

/-- The diagnostic says why a placeholder stands for the port in code of that scope. -/
inductive Accounts (g : Graph) (p : Plan) (scope : Scope) : PortRef → Diagnostic → Prop
  | unavailable {input : PortRef} {port : String} {problem : Problem}
      (hscope : ∃ boundary, scope = .job boundary) (hinput : input ∈ p.unavailable)
      (hproblem : problem = .notCapturable port ∨ problem = .valueUnavailableInJob port) :
      Accounts g p scope input (.atNode input.node problem)
  | unconnected {input : PortRef} (hinput : g.sourceOf? input = none) :
      Accounts g p scope input (.atNode input.node (.unresolvedValue (g.portLabel input)))
  | missing {output : PortRef} (hbinding : p.binding? output = none)
      (hkind : ∀ kind, g.kind? output.node = some kind → kind.isComputed = false) :
      Accounts g p scope output (.atNode output.node (.unresolvedValue (g.portLabel output)))

/-- What accounts for a placeholder is an error. -/
theorem Accounts.isError {r : PortRef} {d : Diagnostic} (h : Accounts g p scope r d) :
    d.isError = true := by
  cases h with
  | unavailable _ _ hproblem => rcases hproblem with rfl | rfl <;> rfl
  | unconnected _ => rfl
  | missing _ _ => rfl

def IsAccounted (g : Graph) (p : Plan) (ds : List Diagnostic) (scope : Scope)
    (r : PortRef) : Prop :=
  ∃ d ∈ ds, Accounts g p scope r d

/-- Every placeholder of an assembly is accounted for by the diagnostics `ds`. -/
structure PlaceholdersAccounted (g : Graph) (a : Assembly) (ds : List Diagnostic) : Prop where
  /-- A placeholder anywhere in the code stands for a port that is accounted for. -/
  code : a.draft.All a.plan fun scope _ x => ∀ port, x = .unresolved port →
    ∃ r, g.portLabel r = port ∧ IsAccounted g a.plan ds scope r
  /-- Reading an input that has no value makes a placeholder, and this very input is accounted
  for. -/
  input : ∀ scope resolve access i,
    let s : Site := ⟨g, a.plan, scope⟩
    s.redirect? i = none → s.isUnavailable i = true ∨ g.sourceOf? i = none →
      Noted a.ledger (s.inputWith resolve access i) fun e =>
        e = .unresolved (g.portLabel i) ∧ IsAccounted g a.plan ds scope i
  /-- So does reading an output that has no expression. -/
  output : ∀ scope fuel access o,
    let s : Site := ⟨g, a.plan, scope⟩
    a.plan.binding? o = none →
    (∀ kind, g.kind? o.node = some kind → kind.isComputed = false) →
      Noted a.ledger (s.valueWithin (fuel + 1) access o) fun e =>
        e = .unresolved (g.portLabel o) ∧ IsAccounted g a.plan ds scope o

namespace Site

variable {N : Ledger} (hp : Plan.make g = .ok p) (hplan : p.diagnostics ⊆ ds)
  (hledger : N.diagnostics ⊆ ds)

include hp hplan in
/-- An input that reads across the boundary in vain is accounted for by planning. -/
theorem isAccounted_of_isUnavailable {input : PortRef}
    (h : isUnavailable ⟨g, p, scope⟩ input = true) : IsAccounted g p ds scope input := by
  rw [isUnavailable, Bool.and_eq_true] at h
  obtain ⟨hjob, hmem⟩ := h
  have hscope : ∃ boundary, scope = .job boundary := by
    cases scope with
    | job boundary => exact ⟨boundary, rfl⟩
    | «unit» => exact absurd hjob nofun
    | function method => exact absurd hjob nofun
  have hinput : input ∈ p.unavailable := by simpa using hmem
  obtain ⟨port, hport⟩ := (sound_make hp).givenUp input hinput
  rcases hport with hd | hd
  · exact ⟨_, hplan hd, .unavailable hscope hinput (.inl rfl)⟩
  · exact ⟨_, hplan hd, .unavailable hscope hinput (.inr rfl)⟩

include hp hplan hledger

/-- What a placeholder rests on is among the diagnostics. -/
theorem Gap.isAccounted {port : String} (h : Gap ⟨g, p, scope⟩ N port) :
    ∃ r, g.portLabel r = port ∧ IsAccounted g p ds scope r := by
  cases h with
  | unavailable input h => exact ⟨input, rfl, isAccounted_of_isUnavailable hp hplan h⟩
  | unconnected input h hN => exact ⟨input, rfl, _, hledger hN, .unconnected h⟩
  | missing output hbinding hkind hN =>
    exact ⟨output, rfl, _, hledger hN, .missing hbinding hkind⟩

/-- Every placeholder is accounted for, where it is made. -/
theorem grounds_accounted : Grounds ⟨g, p, scope⟩ N fun _ x => ∀ port, x = .unresolved port →
    ∃ r, g.portLabel r = port ∧ IsAccounted g p ds scope r := by
  apply grounds_of_make hp
  · rintro job x ⟨-, hx⟩ port heq
    exact absurd heq (hx port)
  · exact fun _ _ => id
  · exact fun _ _ _ => nofun
  · rintro port hgap _ ⟨⟩
    exact hgap.isAccounted hp hplan hledger
  · exact fun _ _ _ _ => nofun
  · exact fun _ _ _ _ _ => nofun

/-- An input without source, or with one that is not available, gives a placeholder. -/
theorem noted_inputWith_gap {resolve : Resolve} (access : Access) {i : PortRef}
    (hredirect : redirect? ⟨g, p, scope⟩ i = none)
    (hi : isUnavailable ⟨g, p, scope⟩ i = true ∨ g.sourceOf? i = none) :
    Noted N (inputWith ⟨g, p, scope⟩ resolve access i) fun e =>
      e = .unresolved (g.portLabel i) ∧ IsAccounted g p ds scope i := by
  unfold inputWith
  rw [hredirect]
  dsimp only
  split
  · rename_i hunavailable
    exact noted_pure ⟨rfl, isAccounted_of_isUnavailable hp hplan hunavailable⟩
  · rename_i hunavailable
    have hsource := hi.resolve_left hunavailable
    rw [hsource]
    refine noted_bind (noted_report _ _) fun _ => noted_pure fun hN => ?_
    exact ⟨rfl, _, hledger hN, .unconnected hsource⟩

omit hp hplan in
/-- An output that is neither bound nor computed gives a placeholder. -/
theorem noted_valueWithin_gap (fuel : Nat) (access : Access) {o : PortRef}
    (hbinding : p.binding? o = none)
    (hkind : ∀ kind, g.kind? o.node = some kind → kind.isComputed = false) :
    Noted N (valueWithin ⟨g, p, scope⟩ (fuel + 1) access o) fun e =>
      e = .unresolved (g.portLabel o) ∧ IsAccounted g p ds scope o := by
  rw [valueWithin, hbinding]
  unfold computeWith
  dsimp only
  cases hnode : g.node o.node with
  | error e => exact noted_throw
  | ok node =>
    have hother : node.kind.isComputed = false :=
      hkind node.kind (by simp [Graph.kind?, Graph.node_eq_ok.1 hnode])
    simp only [Generation.ofGraph, pure_bind]
    split
    · simp [NodeKind.isComputed, *] at hother
    · simp [NodeKind.isComputed, *] at hother
    · simp [NodeKind.isComputed, *] at hother
    · simp [NodeKind.isComputed, *] at hother
    · refine noted_bind (noted_report _ _) fun _ => noted_pure fun hN => ?_
      exact ⟨rfl, _, hledger hN, .missing hbinding hkind⟩

end Site

/-- In every unit, each placeholder is accounted for by an error; so a unit without errors has
none. -/
theorem Graph.compile_accounts {options : Options} {u : CompiledUnit}
    (h : g.compile options = .ok u) : ∃ a, g.assemble options = .ok a ∧ u.source = a.source ∧
      PlaceholdersAccounted g a u.diagnostics ∧
      (Diagnostic.hasErrors u.diagnostics = false →
        a.draft.All a.plan fun _ _ x => ∀ port, x ≠ .unresolved port) := by
  obtain ⟨a, ha, hsource, hdiagnostics⟩ := Graph.compile_eq_ok h
  obtain ⟨-, hp, -⟩ := Graph.assemble_eq_ok ha
  have hledger : a.ledger.diagnostics ⊆ u.diagnostics := by
    rw [hdiagnostics]
    exact List.subset_append_right _ _
  have hplan : a.plan.diagnostics ⊆ u.diagnostics :=
    List.Subset.trans (Graph.ofPlan_le ha).diagnostics hledger
  have hcode := Graph.all_draft ha fun scope =>
    Site.grounds_accounted hp hplan hledger
  refine ⟨a, ha, hsource, ⟨hcode, ?_, ?_⟩, fun hclean => ?_⟩
  · intro scope resolve access i s hredirect hi
    exact Site.noted_inputWith_gap hp hplan hledger access hredirect hi
  · intro scope fuel access o s hbinding hkind
    exact Site.noted_valueWithin_gap hledger fuel access hbinding hkind
  · refine hcode.imp fun scope _ x hx port heq => ?_
    obtain ⟨r, -, d, hd, haccounts⟩ := hx port heq
    rw [Diagnostic.hasErrors, List.any_eq_false] at hclean
    exact hclean d hd haccounts.isError

namespace Placeholder

/-- An entity is destroyed that nothing gives. -/
def graph : Graph := Graph.build {} [
  .addNode "Update" (.event .update) ContainerTree.root,
  .addNode "Destroy" .destroyEntity ContainerTree.root,
  .connect ⟨0⟩ "exit" ⟨1⟩ "enter"]

def hasGap (port : String) (ss : List Stmt) : Bool :=
  (Stmt.leavesOf ss).any fun u =>
    match u.2 with
    | .unresolved name => name == port
    | _ => false

/-- How a placeholder is seen in a body. -/
theorem exists_of_hasGap {port : String} {ss : List Stmt} (h : hasGap port ss = true) :
    ∃ job, (job, .unresolved port) ∈ Stmt.leavesOf ss := by
  obtain ⟨⟨job, x⟩, hx, hmatch⟩ := List.any_eq_true.1 h
  cases x with
  | unresolved name =>
    obtain rfl : name = port := by simpa using hmatch
    exact ⟨job, hx⟩
  | _ => exact absurd hmatch nofun

/-- The unit is made, with a placeholder for the entity. -/
theorem compile_accounts_destroy : ∃ u, graph.compile {} = .ok u ∧ ∃ a, graph.assemble {} = .ok a ∧
    u.source = a.source ∧ PlaceholdersAccounted graph a u.diagnostics ∧
    ∃ x ∈ a.draft.bodies, ∃ job, (job, .unresolved "entity") ∈ Stmt.leavesOf x.2 := by
  obtain ⟨u, hu, -⟩ := exists_ok_of_any (x := graph.compile {}) (c := fun _ => true)
    (by decide +kernel)
  obtain ⟨a, ha, hsource, haccounted, -⟩ := Graph.compile_accounts hu
  obtain ⟨a', ha', hgap⟩ := exists_ok_of_any (x := graph.assemble {})
    (c := fun a => a.draft.bodies.any fun x => hasGap "entity" x.2) (by decide +kernel)
  obtain rfl : a = a' := Except.ok.inj (ha.symm.trans ha')
  obtain ⟨x, hx, hmem⟩ := List.any_eq_true.1 hgap
  exact ⟨u, hu, a, ha, hsource, haccounted, x, hx, exists_of_hasGap hmem⟩

end Placeholder

end EntityFlow
