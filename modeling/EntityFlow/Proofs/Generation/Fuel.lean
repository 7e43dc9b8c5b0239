import EntityFlow.Proofs.Generation.Composed
import EntityFlow.Proofs.Generation.Values

/-!
# Fuel does not show

Values are computed with fuel, which runs out only where values run in a circle.  A computation with
more fuel does the same until then.  So the value that an input reads is the one that was read for
it on the way to another value, and where no pure producers feed one another in a cycle the value of
an output is computed from the values of its inputs.
-/

namespace EntityFlow

namespace Generation

variable {α β : Type} {m m' : Generation α} {f f' : α → Generation β} {a : α} {l noted : Ledger}
  {E : CompileError → Prop}

/-- A run of `m'` is that of `m`, unless this one ends in a circle of values. -/
def Approximates (m m' : Generation α) : Prop :=
  ∀ l, (∀ n, (m.run.run l).1 ≠ .error (.valueCycle n)) → m'.run.run l = m.run.run l

theorem Approximates.refl (m : Generation α) : Approximates m m := fun _ _ => rfl

/-- Nothing is asked of what stands for a circle. -/
theorem approximates_throw (n : NodeId) (m : Generation α) :
    Approximates (throw (.valueCycle n)) m :=
  fun _ h => absurd rfl (h n)

/-- Two runs that approximate each other part after part do so as a whole. -/
theorem approximates_bind (hm : Approximates m m') (hf : ∀ a, Approximates (f a) (f' a)) :
    Approximates (m >>= f) (m' >>= f') := by
  intro l h
  rw [run_bind] at h
  rw [run_bind, run_bind]
  rcases hrun : m.run.run l with ⟨e | a, noted⟩
  · rw [hrun] at h
    have hm' : m'.run.run l = (.error e, noted) := by
      rw [hm l fun n hn => h n ?_, hrun]
      rw [hrun] at hn
      exact congrArg Except.error (Except.error.inj hn)
    rw [hm']
  · rw [hrun] at h
    have hm' : m'.run.run l = (.ok a, noted) := by
      rw [hm l fun n hn => ?_, hrun]
      rw [hrun] at hn
      exact absurd hn nofun
    rw [hm']
    exact hf a noted h

theorem approximates_mapM {xs : List α} (h : ∀ x, Approximates (f x) (f' x)) :
    Approximates (xs.mapM f) (xs.mapM f') := by
  induction xs with
  | nil => exact .refl _
  | cons x xs ih =>
    rw [List.mapM_cons, List.mapM_cons]
    exact approximates_bind (h x) fun _ => approximates_bind ih fun _ => .refl _

/-- What succeeds succeeds with more fuel, with the same result and the same notes. -/
theorem Approximates.run_eq_ok (h : Approximates m m') (hm : m.run.run l = (.ok a, noted)) :
    m'.run.run l = (.ok a, noted) := by
  rw [← hm]
  refine h l fun n => ?_
  rw [hm]
  nofun

/-- If fuel is never short, more fuel changes nothing. -/
theorem Approximates.eq_of_meets (h : Approximates m m') (hm : Meets m (fun _ => True) E)
    (hE : ∀ n, ¬E (.valueCycle n)) : m' = m := by
  refine ExceptT.ext (StateT.ext fun l => h l fun n hn => hE n ?_)
  have hend := hm l
  rwa [hn] at hend

end Generation

namespace Site

open Generation Planning

variable {s : Site} {resolve resolve' : Resolve} {access : Access} {output input : PortRef}
  {n : NodeId}
  {e : Edge} {E : CompileError → Prop}

/-! ## Values of nodes -/

/-- The value of a member is computed as the member is called. -/
theorem computeWith_member {target : MemberTarget}
    (hn : s.graph.kind? output.node = some (.member target)) (access : Access) :
    s.computeWith resolve access output = s.memberWith resolve output.node target access := by
  obtain ⟨⟨title, kind, container, ports⟩, hnode, hkind⟩ := Option.map_eq_some_iff.1 hn
  obtain rfl : kind = .member target := hkind
  rw [computeWith, Graph.node_eq_ok.2 hnode]
  rfl

section Values

variable (h : ∀ access output, Approximates (resolve access output) (resolve' access output))

include h

theorem approximates_inputWith (access : Access) (input : PortRef) :
    Approximates (s.inputWith resolve access input) (s.inputWith resolve' access input) := by
  unfold inputWith
  split
  · exact .refl _
  · split
    · exact .refl _
    · split
      · exact h _ _
      · exact .refl _

theorem approximates_readWith (n : NodeId) (port : String) :
    Approximates (s.readWith resolve n port) (s.readWith resolve' n port) :=
  approximates_bind (.refl _) fun input => approximates_inputWith h _ input

theorem approximates_argumentsWith (n : NodeId) (params : List String) :
    Approximates (s.argumentsWith resolve n params) (s.argumentsWith resolve' n params) :=
  approximates_mapM (approximates_readWith h n)

theorem approximates_receiverWith (n : NodeId) (x : External) (access : Access) :
    Approximates (s.receiverWith resolve n x access) (s.receiverWith resolve' n x access) := by
  unfold receiverWith
  split
  · refine approximates_bind (.refl _) fun input => ?_
    exact approximates_bind (approximates_inputWith h access input) fun _ => .refl _
  · exact .refl _

theorem approximates_memberWith (n : NodeId) (target : MemberTarget) (access : Access) :
    Approximates (s.memberWith resolve n target access)
    (s.memberWith resolve' n target access) := by
  unfold memberWith
  cases target with
  | «variable» m | property m => exact .refl _
  | function m =>
    refine approximates_bind (.refl _) fun name => ?_
    exact approximates_bind (approximates_argumentsWith h n _) fun _ => .refl _
  | external x =>
    refine approximates_bind (approximates_receiverWith h n x access) fun receiver => ?_
    split
    · exact .refl _
    · exact .refl _
    · exact approximates_bind (approximates_argumentsWith h n _) fun _ => .refl _

theorem approximates_computeWith (access : Access) (output : PortRef) :
    Approximates (s.computeWith resolve access output) (s.computeWith resolve' access output) := by
  refine approximates_bind (.refl _) fun node => ?_
  split
  · exact .refl _
  · refine approximates_bind (approximates_readWith h _ _) fun left => ?_
    exact approximates_bind (approximates_readWith h _ _) fun _ => .refl _
  · exact approximates_memberWith h _ _ access
  · exact approximates_bind (approximates_readWith h _ _) fun _ => .refl _
  · exact .refl _

end Values

/-- By induction on the fuel. -/
theorem approximates_valueWithin {fuel fuel' : Nat} (hfuel : fuel ≤ fuel') (access : Access)
    (output : PortRef) :
    Approximates (s.valueWithin fuel access output) (s.valueWithin fuel' access output) := by
  induction fuel generalizing fuel' access output with
  | zero => exact approximates_throw _ _
  | succ fuel ih =>
    obtain ⟨fuel', rfl⟩ : ∃ k, fuel' = k + 1 := ⟨fuel' - 1, by omega⟩
    unfold valueWithin
    split
    · exact .refl _
    · exact approximates_computeWith (ih (Nat.le_of_succ_le_succ hfuel)) access output

/-! ## Values where no producers feed one another in a cycle -/

section Acyclic

variable (hacyclic : ∀ n, ¬Relation.TransGen s.graph.PureFeeds n n) (hg : s.graph.Reachable)
  (hp : Complete s.graph s.plan) (hhandle : ∀ n h, Meets (s.handle n h) (fun _ => True) E)

include hacyclic hg hp hhandle

/-- What feeds a pure producer is a value, and is found. -/
theorem meets_input_of_pure {fuel : Nat} (hfuel : s.graph.bound ≤ fuel) (access : Access)
    (hpure : s.graph.IsPureProducer input.node) :
    Meets (s.inputWith (s.valueWithin fuel) access input) (fun _ => True) E := by
  refine meets_inputWith hg.invariant.anchored fun e he ht => ?_
  have hvalue := (hg.kind_of_pure he (by rw [ht]; exact hpure)).2
  exact meets_valueWithin_of_size_le hacyclic hg hp hhandle he hvalue hfuel

/-- The value of a pure producer is computed from the values of its inputs. -/
theorem value_eq_computeWith (hE : ∀ n, ¬E (.valueCycle n)) (access : Access)
    (hpure : s.graph.IsPureProducer output.node) (hnone : s.plan.binding? output = none) :
    s.value access output = s.computeWith s.value access output := by
  obtain ⟨node, hnode, -⟩ := id hpure
  have hcomputed : Meets (s.computeWith (s.valueWithin s.graph.bound) access output)
      (fun _ => True) E := by
    refine meets_computeWith hg hp hhandle hnode (fun access name _ r hr => ?_) rfl access
    refine meets_input_of_pure hacyclic hg hp hhandle (Nat.le_refl _) access ?_
    rwa [Graph.node_of_portRef hr]
  have hmore : Approximates (s.computeWith (s.valueWithin s.graph.bound) access output)
      (s.computeWith s.value access output) :=
    approximates_computeWith (approximates_valueWithin (Nat.le_succ _)) access output
  rw [hmore.eq_of_meets hcomputed hE, value, valueWithin, hnone]

end Acyclic

end Site

end EntityFlow
