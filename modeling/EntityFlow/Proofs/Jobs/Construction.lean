import EntityFlow.Proofs.Generation.Entities
import EntityFlow.Proofs.Generation.Failures
import EntityFlow.Proofs.Generation.Parts
import EntityFlow.Proofs.Jobs.Names
import EntityFlow.Proofs.Unit.Source

/-!
# Constructing jobs

A job is constructed where flow reaches it, and its type is rendered apart from that.  Both go by
the fields of the job: all of them are set, in their order, except for variables that nothing is
connected to.  An executor finds its input for a variable by name, and takes the first of its ports
that has it.  So a variable with the name of another port is set by what that port is connected to.
-/

namespace EntityFlow

/-! ## Inputs for variables -/

namespace Graph

variable {g : Graph} {n job : NodeId} {node : Node} {runWith : Discipline} {i : Nat}
  {v : JobVariable}

/-- The inputs for variables stand at the end. -/
theorem ofExecutor_append (runWith : Discipline) (vars rest : List JobVariable) :
    Layout.ofExecutor runWith (vars ++ rest) =
      Layout.ofExecutor runWith vars ++ rest.map fun v => Port.valueIn v.name (some v.type) := by
  simp [Layout.ofExecutor]

/-- The ports of an executor are laid out by the variables of its job. -/
theorem Reachable.ports_executor (hg : g.Reachable) (hn : g.node? n = some node)
    (hkind : node.kind = .executor runWith (some job)) :
    node.ports = Layout.ofExecutor runWith (g.jobVariables job) := by
  obtain ⟨jobKind, hjob, hl⟩ := hg.laidOut hn
  rw [hkind] at hjob hl
  obtain ⟨jobNode, hjobNode, hkinds⟩ := bind_eq_ok.1 hjob
  split at hkinds
  · obtain rfl := pure_eq_ok.1 hkinds
    rw [← Except.ok.inj hl]
    simp [jobVariables, kind?, node_eq_ok.1 hjobNode]
  · exact absurd hkinds throw_ne_ok

/-- The input for a variable stands at the place of the variable, after the other ports. -/
theorem getElem?_ofExecutor {vars : List JobVariable} (hv : vars[i]? = some v) :
    (Layout.ofExecutor runWith vars)[(Layout.ofExecutor runWith []).length + i]? =
      some (.valueIn v.name (some v.type)) := by
  rw [← List.nil_append vars, ofExecutor_append, List.getElem?_append_right (Nat.le_add_right _ _),
    Nat.add_sub_cancel_left, List.getElem?_map, hv, Option.map_some]

end Graph

/-! ## What is set -/

namespace Job

variable {g : Graph} {j : Job} {executor : Option NodeId} {f : CaptureField} {i : Nat}

/-- The field is set where the job is constructed, by that executor if any: a variable only if the
first port of the executor with its name is connected, and everything else always. -/
def isSet (g : Graph) (j : Job) (executor : Option NodeId) (f : CaptureField) : Bool :=
  match f.owner with
  | .jobVariable i =>
      (executor.bind fun n => (g.jobVariables j.node)[i]?.bind fun v => g.portRef? n v.name).any
        fun r => (g.sourceOf? r).isSome
  | _ => true

/-- Everything but variables is set by every construction. -/
theorem isSet_of_other (h : ∀ i, f.owner ≠ .jobVariable i) : j.isSet g executor f = true := by
  unfold isSet
  split
  · exact absurd ‹_› (h _)
  · rfl

/-- When a variable is set, and by whom. -/
theorem isSet_variable (h : f.owner = .jobVariable i) : j.isSet g executor f = true ↔
    ∃ n v r, executor = some n ∧ (g.jobVariables j.node)[i]? = some v ∧
      g.portRef? n v.name = some r ∧ (g.sourceOf? r).isSome := by
  simp only [isSet, h, Option.any_eq_true, Option.bind_eq_some_iff]
  constructor
  · rintro ⟨r, ⟨n, hn, v, hv, hr⟩, hsource⟩
    exact ⟨n, v, r, hn, hv, hr, hsource⟩
  · rintro ⟨n, v, r, hn, hv, hr, hsource⟩
    exact ⟨r, ⟨n, hn, v, hv, hr⟩, hsource⟩

end Job

theorem Planning.Fits.jobVariable_iff {p : Plan} {n : NodeId} {owner : CaptureOwner}
    {source : CaptureSource} (h : Fits p n owner source) (i : Nat) :
    owner = .jobVariable i ↔ source = .jobVariable i := by
  cases h <;> simp

namespace Site

open Planning

variable {s : Site} {N : Ledger} {j : Job} {executor : Option NodeId} {p : Plan}

/-- The initializer of a job, by induction on its fields. -/
theorem Initializes.names {fs : List CaptureField} {xs : List (String × Expr)}
    (hredirect : ∀ input field, s.redirect? input = some field → (s.graph.sourceOf? input).isSome)
    (hfits : ∀ f ∈ fs, Fits p j.node f.owner f.source)
    (h : s.Initializes N executor (s.graph.jobVariables j.node) fs xs) :
    xs.map Prod.fst = (fs.filter (j.isSet s.graph executor)).map CaptureField.name := by
  have hfed : ∀ n name input, s.Feeds n name input ↔
      s.graph.portRef? n name = some input ∧ (s.graph.sourceOf? input).isSome := by
    intro n name input
    refine and_congr_right fun _ => ⟨?_, .inl⟩
    rintro (hsource | hfield)
    · exact hsource
    · obtain ⟨field, hfield⟩ := Option.isSome_iff_exists.1 hfield
      exact hredirect input field hfield
  induction h with
  | nil => rfl
  | @set f e fs xs hgiven _ ih =>
    obtain ⟨hf, hrest⟩ := List.forall_mem_cons.1 hfits
    have hset : j.isSet s.graph executor f = true := by
      cases hgiven with
      | captured hsource _ | copied hsource =>
        refine Job.isSet_of_other fun i howner => ?_
        exact absurd (hsource.symm.trans ((hf.jobVariable_iff i).1 howner)) nofun
      | fed hsource hv hn hinput _ =>
        obtain ⟨hr, hfeeds⟩ := (hfed _ _ _).1 hinput
        exact (Job.isSet_variable ((hf.jobVariable_iff _).2 hsource)).2
          ⟨_, _, _, hn, hv, hr, hfeeds⟩
    rw [List.filter_cons_of_pos hset, List.map_cons, List.map_cons, ih hrest]
  | @skip f i fs xs hsource hunfed _ ih =>
    obtain ⟨hf, hrest⟩ := List.forall_mem_cons.1 hfits
    have hunset : ¬j.isSet s.graph executor f = true := by
      intro hset
      obtain ⟨n, v, r, hn, hv, hr, hfeeds⟩ :=
        (Job.isSet_variable ((hf.jobVariable_iff i).2 hsource)).1 hset
      exact hunfed v n r hv hn ((hfed _ _ _).2 ⟨hr, hfeeds⟩)
    rw [List.filter_cons_of_neg hunset, ih hrest]

end Site

/-! ## What is declared -/

namespace Planning

variable {g : Graph} {p : Plan} {b : Boundary} {j : Job} {f : CaptureField}

end Planning

def Draft.stmts (d : Draft) : List Stmt :=
  d.bodies.flatMap (fun x => Stmt.partsOf x.2) ++ d.jobs.flatMap fun b =>
    Stmt.partsOf b.execute ++ b.functions.flatMap fun x => Stmt.partsOf x.2

/-- Every statement of the draft is made at some site. -/
theorem Graph.states_draft {g : Graph} {options : Options} {a : Assembly} {t : Stmt}
    (ha : g.assemble options = .ok a) (ht : t ∈ a.draft.stmts) :
    ∃ scope, Site.States ⟨g, a.plan, scope⟩ a.ledger t := by
  have hemitted := emitted_draft ha
  rcases List.mem_append.1 ht with ht | ht
  · obtain ⟨x, hx, ht⟩ := List.mem_flatMap.1 ht
    obtain ⟨scope, -, hbody⟩ := hemitted.bodies x hx
    exact ⟨scope, hbody.states t ht⟩
  · obtain ⟨b, hb, ht⟩ := List.mem_flatMap.1 ht
    have hwritten := hemitted.jobs b hb
    rcases List.mem_append.1 ht with ht | ht
    · exact ⟨_, hwritten.execute.states t ht⟩
    · obtain ⟨x, hx, ht⟩ := List.mem_flatMap.1 ht
      exact ⟨_, (hwritten.functions x hx).states t ht⟩

namespace Assembly

open Planning Text

variable {g : Graph} {options : Options} {a : Assembly} {p : Plan} {c : Boundary} {j : Job}
  {f : CaptureField} {executor : Option NodeId}

/-- A parallel job with captures of all kinds, one of whose two variables is connected. -/
def Fed.graph : Graph := Graph.build {} (Mixed.steps ++ [
  .addNode "Ten" (.literal (.int 10)) ContainerTree.root, .connect ⟨10⟩ "Out" ⟨4⟩ "speed"])

/-- A job whose variable has the name of the flow input of its executor. -/
def Homonym.graph : Graph := Graph.build {} [
  .addNode "Update" (.event .update) ContainerTree.root,
  .addNode "Move" (.jobEntity { items := [⟨"a", some (.component "A"), .readOnly⟩]
                                vars := [⟨"enter", .float, false⟩] }) ContainerTree.root,
  .addNode "Seen" (.localVar "seen" .float) ContainerTree.root,
  .addNode "Run" (.executor .schedule (some ⟨1⟩)) ContainerTree.root,
  .connect ⟨1⟩ "execute" ⟨2⟩ "enter", .connect ⟨0⟩ "exit" ⟨3⟩ "enter"]

end Assembly

end EntityFlow
